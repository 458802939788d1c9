import Pseudocode.Proofs.Ir.Typing
import Pseudocode.Lower.Program

/-!
Where code generation begins.

Before a statement is lowered, the routines have been declared and the formats interned.  No two of
them have the same name or text, so they are what was asked for, and the module holds nothing else.
-/

namespace Pseudocode

open Ir Lower

/-- A constant string with a NUL after it. -/
def Ir.Global.ofText (name text : String) : Global :=
  ⟨name, utf8 text ++ [0]⟩

namespace Routines

/-- The routines of every module. -/
def standard : Routines :=
  { printf := ⟨.i32, [.bytes], true⟩
    scanf := ⟨.i32, [.bytes], true⟩
    malloc := ⟨.bytes, [.i64], false⟩
    memcpy := ⟨.bytes, [.bytes, .bytes, .i64], false⟩
    realloc := ⟨.bytes, [.bytes, .i64], false⟩
    doubleFormat := (Global.ofText "fmt_double" "%lf").address
    stringFormat := (Global.ofText "fmt_string" "%s").address
    intFormat := (Global.ofText "fmt_int" "%d").address
    newlineFormat := (Global.ofText "fmt_newline" "\n").address }

/-- The formats of every module. -/
def formats : Array Global :=
  #[.ofText "fmt_double" "%lf", .ofText "fmt_string" "%s", .ofText "fmt_int" "%d",
    .ofText "fmt_newline" "\n"]

/-- What every module declares. -/
def declarations : Array Declaration :=
  #[⟨"printf", standard.printf⟩, ⟨"scanf", standard.scanf⟩, ⟨"malloc", standard.malloc⟩,
    ⟨"memcpy", standard.memcpy⟩, ⟨"realloc", standard.realloc⟩]

/-- A module that has the declarations and formats of every module, and nothing else. -/
def initial (name sourceName target : String) : ModuleDraft :=
  formats.foldl ModuleDraft.addString { ModuleDraft.empty name target with
    sourceName, declarations }

theorem declare_empty (name sourceName target : String) :
    declare { ModuleDraft.empty name target with sourceName } =
    (standard, initial name sourceName target) := by
  have hdiffer : utf8 "%lf" ≠ utf8 "%s" ∧ utf8 "%lf" ≠ utf8 "%d" ∧ utf8 "%s" ≠ utf8 "%d" ∧
      utf8 "%lf" ≠ utf8 "\n" ∧ utf8 "%s" ≠ utf8 "\n" ∧ utf8 "%d" ≠ utf8 "\n" := by decide +kernel
  obtain ⟨h₁, h₂, h₃, h₄, h₅, h₆⟩ := hdiffer
  simp [declare, ModuleDraft.declare, ModuleDraft.declaration?, ModuleDraft.empty,
    ModuleDraft.intern,
    ModuleDraft.string?, ModuleDraft.addString, standard, initial, formats, declarations,
    Global.ofText, h₁, h₂, h₃, h₄, h₅, h₆]

end Routines

namespace Lower.State

variable (name sourceName target : String)

theorem start_routines : (State.start name sourceName target).routines = .standard :=
  congrArg Prod.fst (Routines.declare_empty name sourceName target)

theorem start_module :
    (State.start name sourceName target).module = Routines.initial name sourceName target :=
  congrArg Prod.snd (Routines.declare_empty name sourceName target)

theorem start_globals : (State.start name sourceName target).module.globals = Routines.formats := by
  rw [start_module]
  rfl

theorem start_function : (State.start name sourceName target).function = .start "main" [] .i32 := by
  unfold State.start
  rfl

theorem start_functions : (State.start name sourceName target).module.functions = #[] := by
  rw [start_module]
  rfl

end Lower.State

end Pseudocode
