import Mathlib.Data.Finset.Image
import Pseudocode.Proofs.Lower.Functions
import Pseudocode.Proofs.Typing.Bindings

/-!
Which slot of a variable has been stored to last.

A variable may come to have several slots.  It is given another one where it is bound as something
else, and both arms of a conditional give one to a variable that had none before: each of them
begins with the slots from before the conditional.  Where the arms meet, one of the slots stands for
the variable, but a path through the other arm has stored to the other.

A `Trail` follows one variable `x` through statements and takes down which slot stands for it, and
which slots a path to the current place may have stored to last.  Slots are counted in the order in
which they are given. Conditions are not looked at: every arm may be taken, and a loop may be run
any number of times.  A load finds what has been stored last on every path if no other slot than the
one that stands there is among the last ones. That is what `settled` asks of every load in a
program.
-/

namespace Pseudocode

/-- The variables that are loaded to find where the value of an expression is. -/
def Expr.addressReads : Expr → List String
  | .var .. => []
  | e => e.reads

/-! ### Trails -/

/-- What is known of a variable at a place. -/
@[ext] structure Trail where
  /-- The slot that stands for the variable, and what it is for. -/
  slot? : Option (Nat × SlotKind) := none
  /-- How many slots the variable has been given. -/
  count : Nat := 0
  /-- The slots that have been stored to last, on one path or another.  A path that has not stored
  to any is there as `none`; where no path leads to, there is nothing. -/
  last : Finset (Option Nat) := {none}
  deriving DecidableEq

namespace Trail

/-- Does a load find what has been stored last, on every path? -/
def loads (t : Trail) : Bool :=
  ∀ k? ∈ t.last, k? = none ∨ k? = t.slot?.map Prod.fst

/-- Is every load of `x` among loads of these variables one that finds what has been stored last? -/
def allows (t : Trail) (x : String) (names : List String) : Bool :=
  x ∉ names || t.loads

/-- The variable is given another slot and stored to. -/
def renew (t : Trail) (kind : SlotKind) : Trail :=
  { slot? := some (t.count, kind), count := t.count + 1,
    last := t.last.image fun _ => some t.count }

/-- The variable is stored to as something of a kind. -/
def store (t : Trail) (kind : SlotKind) : Trail :=
  match t.slot? with
  | some (k, kind') =>
    if kind' = kind then { t with last := t.last.image fun _ => some k } else t.renew kind
  | none => t.renew kind

/-- Where two arms meet, the slot of the second one stands, if there is one. -/
def join (t₁ t₂ : Trail) : Trail :=
  { slot? := t₂.slot?.or t₁.slot?, count := t₂.count, last := t₁.last ∪ t₂.last }

/-- Where a loop begins that does this in every turn. -/
def around (t : Trail) (turn : Trail → Trail) : Trail :=
  { t with last := t.last ∪ (turn t).last }

/-- The variable of this name is loaded to get at its buffer, if it is a string. -/
def buffer (t : Trail) (name : String) : List String :=
  if t.slot?.map Prod.snd = some (.scalar .string) then [name] else []

/-- Where the body of a subroutine begins, its parameters have been stored. -/
def enter (x : String) (params : List Param) : Trail :=
  params.foldl (fun t p => if p.name = x then t.store (.scalar p.ty) else t) {}

end Trail

/-! ### Statements -/

/-- What an assignment does to the trail of `x`. -/
def Assignment.trail (x : String) (a : Assignment) (t : Trail) : Trail :=
  match a.target with
  | .var name shape => if name = x then t.store (.scalar shape.ty) else t
  | .element .. => t

/-- The variables that are loaded in an assignment.  For a string it is the buffer that is stored
to. -/
def Assignment.reads (a : Assignment) (t : Trail) : List String :=
  match a.target with
  | .var name shape => a.value.reads ++ if shape.ty = .string then t.buffer name else []
  | .element name index _ => a.value.reads ++ name :: index.reads

/-- The variables that are loaded to find where a value is read to. -/
def Target.reads (target : Target) (t : Trail) : List String :=
  match target with
  | .var name _ => t.buffer name
  | .element name index _ => name :: index.reads

mutual

/-- The trail of `x` behind a statement. -/
def Stmt.trail (x : String) (t : Trail) : Stmt → Trail
  | .assign a => a.trail x t
  | .array ty name _ => if name = x then t.store (.array ty) else t
  | .ifThen _ body rest =>
    let t₁ := trailAll x t body
    t₁.join (rest.trail x { t with count := t₁.count })
  | .whileLoop _ body => trailAll x (t.around fun t => trailAll x t body) body
  | .forLoop init _ body =>
    let turn t := (Lower.counterStep init).trail x (trailAll x t body)
    turn ((init.trail x t).around turn)
  | .ret _ => { t with last := ∅ }
  | _ => t

def trailAll (x : String) (t : Trail) : List Stmt → Trail
  | [] => t
  | s :: rest => trailAll x (s.trail x t) rest

def ElsePart.trail (x : String) (t : Trail) : ElsePart → Trail
  | .none => t
  | .body body => trailAll x t body
  | .elseIf _ body rest =>
    let t₁ := trailAll x t body
    t₁.join (rest.trail x { t with count := t₁.count })

end

mutual

/-- Does every load of `x` in a statement find what has been stored last? -/
def Stmt.settled (x : String) (t : Trail) : Stmt → Bool
  | .expr e => t.allows x e.addressReads
  | .assign a => t.allows x (a.reads t)
  | .array _ _ size => t.allows x size.reads
  | .output e => t.allows x e.reads
  | .input target _ => t.allows x (target.reads t)
  | .ifThen condition body rest =>
    t.allows x condition.reads && settledAll x t body &&
      rest.settled x { t with count := (trailAll x t body).count }
  | .whileLoop condition body =>
    let t₀ := t.around fun t => trailAll x t body
    settledAll x t₀ body && (trailAll x t₀ body).allows x condition.reads
  | .forLoop init bound body =>
    let step := Lower.counterStep init
    let t₀ := (init.trail x t).around fun t => step.trail x (trailAll x t body)
    let t₁ := trailAll x t₀ body
    t.allows x (init.reads t) && settledAll x t₀ body && t₁.allows x (step.reads t₁) &&
      (step.trail x t₁).allows x (init.target.name :: bound.reads)
  | .subroutine .. => true
  | .ret e => t.allows x e.reads

def settledAll (x : String) (t : Trail) : List Stmt → Bool
  | [] => true
  | s :: rest => s.settled x t && settledAll x (s.trail x t) rest

def ElsePart.settled (x : String) (t : Trail) : ElsePart → Bool
  | .none => true
  | .body body => settledAll x t body
  | .elseIf condition body rest =>
    t.allows x condition.reads && settledAll x t body &&
      rest.settled x { t with count := (trailAll x t body).count }

end

/-! ### Programs -/

/-- Does every load in the body of a subroutine find what has been stored last? -/
def settledBody (params : List Param) (body : List Stmt) : Bool :=
  (params.map Param.name ++ bindsAll body).all fun x => settledAll x (.enter x params) body

/-- Does every load in a program, and in the subroutines that it declares, find what has been stored
last? -/
def Program.settled (p : Program) : Bool :=
  settledBody [] p && (routinesAll p).all fun (params, body) => settledBody params body

end Pseudocode
