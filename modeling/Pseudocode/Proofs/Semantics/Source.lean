import Pseudocode.Proofs.Semantics.Basic
import Pseudocode.Stmt

/-!
What integer programs mean.

An expression has a value in a store, or none: a variable that has not been set has none, and
neither does a quotient by zero.  A statement changes the store and prints.  `WHILE` runs its body
and then tests, so the body always runs once; `FOR v = a TO b` sets `v` to `a` and then runs its
body and adds one to `v`, again and again while `v <= b`, with the bound evaluated anew each time.

A program may run forever, so a run is followed only so far: `exec n` gives up on a loop when its
body has been run `n` times, and then tells what has been printed.  What a program prints, and
whether it ends, is what is seen for some `n`.

Statements and expressions that are not about integers have no meaning here.
-/

namespace Pseudocode

/-! ### Expressions -/

/-- The values of variables. -/
abbrev Store := String → Option Int32

namespace Store

/-- The store in which nothing has been set. -/
def empty : Store := fun _ => none

/-- Sets a variable. -/
def set (σ : Store) (x : String) (v : Int32) : Store :=
  fun y => if y = x then some v else σ y

theorem set_same (σ : Store) (x : String) (v : Int32) : σ.set x v x = some v :=
  if_pos rfl

theorem set_other (σ : Store) {x y : String} (v : Int32) (h : y ≠ x) : σ.set x v y = σ y :=
  if_neg h

end Store

/-- What an operator makes of two numbers.  A comparison gives one or zero. -/
def BinaryOp.result? : BinaryOp → Int32 → Int32 → Option Int32
  | add, a, b => some (a + b)
  | sub, a, b => some (a - b)
  | mul, a, b => some (a * b)
  | div, a, b => quotient? a b
  | mod, a, b => remainder? a b
  | eq, a, b => some (truthWord (a = b))
  | ne, a, b => some (truthWord (a ≠ b))
  | lt, a, b => some (truthWord (a < b))
  | le, a, b => some (truthWord (a ≤ b))
  | gt, a, b => some (truthWord (a > b))
  | ge, a, b => some (truthWord (a ≥ b))

/-- The value of an expression, if it has one. -/
def Expr.eval (σ : Store) : Expr → Option Int32
  | constant (.int value) _ => some value
  | var name _ => σ name
  | binary op lhs rhs _ => do op.result? (← lhs.eval σ) (← rhs.eval σ)
  | negate operand _ => do return -(← operand.eval σ)
  | _ => none

/-! ### Statements -/

/-- How far a run has come. -/
inductive Progress where
  /-- It has ended. -/
  | done (σ : Store) (out : Output)
  /-- It cannot go on: something has no value. -/
  | stuck (out : Output)
  /-- It has not ended yet. -/
  | unfinished (out : Output)

namespace Progress

/-- What has been printed. -/
def output : Progress → Output
  | done _ out => out
  | stuck out => out
  | unfinished out => out

/-- Goes on where a run has ended. -/
def andThen : Progress → (Store → Output → Progress) → Progress
  | done σ out, next => next σ out
  | stuck out, _ => stuck out
  | unfinished out, _ => unfinished out

/-- Goes on with a value, if there is one. -/
def withValue (value? : Option Int32) (out : Output) (next : Int32 → Progress) : Progress :=
  match value? with
  | some v => next v
  | none => stuck out

end Progress

/-- Runs a body, and again while a test gives a number other than zero, but no more than `n`
times. -/
def repeatWhile (body : Store → Output → Progress) (test : Store → Option Int32) :
    Nat → Store → Output → Progress
  | 0, _, out => .unfinished out
  | n + 1, σ, out => (body σ out).andThen fun σ out => .withValue (test σ) out fun v =>
    if v ≠ 0 then repeatWhile body test n σ out else .done σ out

/-- Storing a value in a variable. -/
def Assignment.exec (a : Assignment) (σ : Store) (out : Output) : Progress :=
  match a.target with
  | .var name _ => .withValue (a.value.eval σ) out fun v => .done (σ.set name v) out
  | .element .. => .stuck out

/-- Adding one to a variable. -/
def increment (name : String) (σ : Store) (out : Output) : Progress :=
  .withValue (σ name) out fun v => .done (σ.set name (v + 1)) out

/-- Is a variable not beyond a bound? -/
def notBeyond (name : String) (bound : Expr) (σ : Store) : Option Int32 := do
  BinaryOp.le.result? (← σ name) (← bound.eval σ)

mutual

/-- Runs a statement, and gives up on a loop after `n` times. -/
def Stmt.exec (n : Nat) : Stmt → Store → Output → Progress
  | .expr e, σ, out => .withValue (e.eval σ) out fun _ => .done σ out
  | .assign a, σ, out => a.exec σ out
  | .output e, σ, out => .withValue (e.eval σ) out fun v => .done σ (out ++ [.number v, .lineBreak])
  | .ifThen condition body rest, σ, out => .withValue (condition.eval σ) out fun v =>
    if v ≠ 0 then execAll n body σ out else rest.exec n σ out
  | .whileLoop condition body, σ, out =>
    repeatWhile (execAll n body) (fun σ => condition.eval σ) n σ out
  | .forLoop init bound body, σ, out => (init.exec σ out).andThen <|
    repeatWhile (fun σ out => (execAll n body σ out).andThen (increment init.target.name))
      (notBeyond init.target.name bound) n
  | _, _, out => .stuck out

def execAll (n : Nat) : List Stmt → Store → Output → Progress
  | [], σ, out => .done σ out
  | s :: rest, σ, out => (s.exec n σ out).andThen (execAll n rest)

def ElsePart.exec (n : Nat) : ElsePart → Store → Output → Progress
  | .none, σ, out => .done σ out
  | .body body, σ, out => execAll n body σ out
  | .elseIf condition body rest, σ, out => .withValue (condition.eval σ) out fun v =>
    if v ≠ 0 then execAll n body σ out else rest.exec n σ out

end

/-! ### Programs -/

/-- Runs a program from its beginning. -/
def Program.exec (p : Program) (n : Nat) : Progress :=
  execAll n p .empty []

/-- Does the program print this, and perhaps more? -/
def Program.Prints (p : Program) (out : Output) : Prop :=
  ∃ n, out <+: (Program.exec p n).output

/-- Does the program end, having printed this? -/
def Program.Terminates (p : Program) (out : Output) : Prop :=
  ∃ n σ, Program.exec p n = .done σ out

/-- Does the program get stuck, having printed this? -/
def Program.GetsStuck (p : Program) (out : Output) : Prop :=
  ∃ n, Program.exec p n = .stuck out

end Pseudocode
