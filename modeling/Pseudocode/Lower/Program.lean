import Pseudocode.Lower.Stmt

/-!
Code for programs.

The statements of the top level become the function `main`, which returns zero.  Every subroutine
becomes a function of its own, in the order in which their declarations end, and `main` comes last.
-/

namespace Pseudocode

namespace Lower

/-- The state in which code generation begins. -/
def State.start (name sourceName target : String) : State :=
  let (routines, module) := Routines.declare { Ir.ModuleDraft.empty name target with sourceName }
  { module, routines, function := .start "main" [] .i32 }

/-- Code for a program. -/
def program (p : Program) : Lowering Ir.Module := do
  block .top p
  leave (.i32 0)
  let s ← get
  return (s.module.addFunction s.function.build).build

end Lower

/-- The module for a program, or why there is none, and what has happened.  The module has a name,
the name of its source, and the name of the machine it is for. -/
def generate (name sourceName target : String) (p : Program) :
    Except LowerError Ir.Module × Array Event :=
  let (result, s) := (Lower.program p).run.run (.start name sourceName target)
  (result, s.log)

end Pseudocode
