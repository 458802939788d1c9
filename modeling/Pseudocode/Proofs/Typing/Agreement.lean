import Pseudocode.Proofs.Run
import Pseudocode.Stmt
import Pseudocode.Typing

/-!
Trees whose shapes agree.

A tree carries shapes that were found while it was built, with an environment that is no longer
there. `Agrees` says that they can all be found again: it walks a tree in the order of its text with
an environment of its own, and asks of every node that its shape is the one that the environment and
the shapes of its parts give it.  `after` is the environment that a statement leaves behind.

The functions that build nodes build ones that agree, and each is taken for what it is when it
succeeds (`combine_eq_ok` and the lemmas around it).
-/

namespace Pseudocode

variable {args : List Expr}

/-! ### Expressions -/

theorem Ty.ne_string_of_isNumeric {ty : Ty} (h : ty.isNumeric) : ty ≠ .string := by
  rintro rfl
  simp [isNumeric] at h

/-- The shape of two operands combined, if they can be. -/
def Shape.combined? (op : BinaryOp) (left right : Shape) : Option Shape :=
  if left.ty = .string ∧ right.ty = .string then
    if op = .add then some ⟨.string, concatLength left.length right.length⟩ else none
  else (Ty.promote? left.ty right.ty).map fun ty => ⟨ty, 0⟩

theorem Shape.combined?_cases {op : BinaryOp} {left right shape : Shape}
    (h : combined? op left right = some shape) :
    (left.ty.isNumeric ∧ right.ty.isNumeric ∧ shape.ty.isNumeric ∧
        shape = ⟨if left.ty = .double ∨ right.ty = .double then .double else .int, 0⟩) ∨
      (op = .add ∧ left.ty = .string ∧ right.ty = .string ∧
        shape = ⟨.string, concatLength left.length right.length⟩) := by
  rw [combined?] at h
  split at h
  · next hstrings =>
      split at h
      · next hop => exact .inr ⟨hop, hstrings.1, hstrings.2, (Option.some.inj h).symm⟩
      · cases h
  · obtain ⟨ty, hty, rfl⟩ := Option.map_eq_some_iff.mp h
    left
    cases hl : left.ty <;> cases hr : right.ty <;> simp_all [Ty.promote?, Ty.isNumeric]
    all_goals rw [← hty]

mutual

/-- Do the shapes of an expression agree with the environment in a scope? -/
def Expr.Agrees (env : Environment) (scope : Scope) : Expr → Prop
  | .constant (.int _) shape => shape = ⟨.int, 0⟩
  | .constant (.double _) shape => shape = ⟨.double, 0⟩
  | .constant (.string text) shape => shape = ⟨.string, text.utf8ByteSize + 1⟩
  | .var name shape => shape = env.shape ⟨name, scope⟩
  | .element name index shape =>
    index.Agrees env scope ∧ index.ty.isNumeric ∧ shape = ⟨(env.shape ⟨name, scope⟩).ty, 0⟩
  | .binary op lhs rhs shape =>
    lhs.Agrees env scope ∧ rhs.Agrees env scope ∧
      Shape.combined? op lhs.shape rhs.shape = some shape
  | .negate operand shape => operand.Agrees env scope ∧ operand.ty.isNumeric ∧ shape = operand.shape
  | .call name args ty => env.returnTy? name = some ty ∧ argumentsAgree env scope args

/-- Do the arguments of a call agree, and are they numbers? -/
def argumentsAgree (env : Environment) (scope : Scope) : List Expr → Prop
  | [] => True
  | arg :: args => arg.Agrees env scope ∧ arg.ty.isNumeric ∧ argumentsAgree env scope args

end

theorem argumentsAgree_iff {env : Environment} {scope : Scope} :
    argumentsAgree env scope args ↔ ∀ arg ∈ args, arg.Agrees env scope ∧ arg.ty.isNumeric := by
  induction args with
  | nil => simp [argumentsAgree]
  | cons arg args ih => simp [argumentsAgree, ih, and_assoc]

/-! ### Building expressions -/

namespace Expr

theorem requireResolved_eq_ok {e : Expr} {line : Nat} {u : Unit} :
    e.requireResolved line = .ok u ↔ e.ty.isResolved := by
  rw [requireResolved]
  by_cases h : e.ty.isResolved = true <;> simp [h]

theorem requireNumeric_eq_ok {e : Expr} {position : String} {line : Nat} {u : Unit} :
    e.requireNumeric position line = .ok u ↔ e.ty.isNumeric := by
  rw [requireNumeric, requireResolved]
  cases e.ty <;>
    simp [Ty.isResolved, Ty.isNumeric, bind, Except.bind, pure, Except.pure, throw, throwThe,
    MonadExceptOf.throw]

theorem combine_eq_ok {op : BinaryOp} {lhs rhs e : Expr} {line : Nat} :
    lhs.combine op rhs line = .ok e ↔
      ∃ shape, Shape.combined? op lhs.shape rhs.shape = some shape ∧
      e = .binary op lhs rhs shape := by
  have hleft : lhs.shape.ty = lhs.ty := rfl
  have hright : rhs.shape.ty = rhs.ty := rfl
  have hleftLength : lhs.shape.length = lhs.length := rfl
  have hrightLength : rhs.shape.length = rhs.length := rfl
  rw [combine, requireResolved, requireResolved, Shape.combined?, hleft, hright, hleftLength,
    hrightLength]
  -- Strings are told from numbers by the operator alone, so one split by it and one by the types
  -- are enough.
  by_cases hadd : op = .add
  · subst hadd
    cases lhs.ty <;> cases rhs.ty <;>
      simp [Ty.isResolved, Ty.promote?, BinaryOp.isComparison, bind, Except.bind,
      pure, Except.pure, throw, throwThe, MonadExceptOf.throw, eq_comm]
  · cases lhs.ty <;> cases rhs.ty <;> cases op.isComparison <;>
      simp [Ty.isResolved, Ty.promote?, bind,
      Except.bind, pure, Except.pure, throw, throwThe, MonadExceptOf.throw, eq_comm, hadd]

theorem negated_eq_ok {operand e : Expr} {line : Nat} :
    operand.negated line = .ok e ↔ operand.ty.isNumeric ∧ e = .negate operand operand.shape := by
  rw [negated, requireResolved]
  cases operand.ty <;>
    simp [Ty.isResolved, Ty.isNumeric, bind, Except.bind, pure, Except.pure, throw, throwThe,
    MonadExceptOf.throw, eq_comm]

end Expr

namespace Environment

variable {env : Environment} {e : Expr} {line : Nat}

theorem readElement_eq_ok {symbol : Symbol} {index : Expr} :
    env.readElement symbol index line = .ok e ↔
      index.ty.isNumeric ∧ e = .element symbol.name index ⟨(env.shape symbol).ty, 0⟩ := by
  rw [readElement, bind_eq_ok]
  simp only [Expr.requireNumeric_eq_ok, pure_eq_ok, exists_const]

theorem forM_requireNumeric_eq_ok {position : String} {u : PUnit} :
    (forM args (fun arg : Expr => arg.requireNumeric position line) :
      Except SourceError PUnit) = .ok u ↔ ∀ arg ∈ args, arg.ty.isNumeric := by
  induction args with
  | nil => simp [pure_eq_ok]
  | cons arg args ih =>
    rw [List.forM_cons, bind_eq_ok]
    simp only [Expr.requireNumeric_eq_ok, ih, exists_const, List.forall_mem_cons]

theorem call_eq_ok {name : String} :
    env.call name args line = .ok e ↔
      ∃ ty, env.returnTy? name = some ty ∧ (∀ arg ∈ args, arg.ty.isNumeric) ∧
      e = .call name args ty := by
  rw [call]
  cases hty : env.returnTy? name with
  | none => simp
  | some ty =>
    show (forM args (fun arg : Expr => arg.requireNumeric _ line) >>= _) = Except.ok e ↔ _
    rw [bind_eq_ok]
    simp only [forM_requireNumeric_eq_ok, pure_eq_ok, exists_const, Option.some.injEq,
      exists_eq_left']

end Environment

/-! ### Statements -/

/-- The environment in which the body of a subroutine is read. -/
def Environment.enter (env : Environment) (name : String) (params : List Param) (ty : Ty) :
    Environment :=
  params.foldl (fun env p => env.bind ⟨p.name, .subroutine name⟩ ⟨p.ty, 0⟩) (env.register name ty)

namespace Assignment

/-- The environment after an assignment: a variable is bound, an element of an array is not. -/
def after (env : Environment) (scope : Scope) (a : Assignment) : Environment :=
  match a.target with
  | .var name shape => env.bind ⟨name, scope⟩ shape
  | .element .. => env

/-- Do the shapes of an assignment agree with the environment before it? -/
def Agrees (env : Environment) (scope : Scope) (a : Assignment) : Prop :=
  a.value.Agrees env scope ∧
    match a.target with
    | .var _ shape => a.value.ty.isResolved ∧ shape = a.value.shape ∧ a.ty = a.value.ty
    | .element name index ty => env.contains ⟨name, scope⟩ ∧ index.Agrees env scope ∧
      index.ty.isNumeric ∧
        a.value.ty.isNumeric ∧ ty = (env.shape ⟨name, scope⟩).ty ∧ a.ty = ty

end Assignment

/-- Does what a value is read into agree with the environment? -/
def Target.Agrees (env : Environment) (scope : Scope) : Target → Prop
  | .var name shape => env.contains ⟨name, scope⟩ ∧ shape = env.shape ⟨name, scope⟩
  | .element name index ty => env.contains ⟨name, scope⟩ ∧ index.Agrees env scope ∧
    index.ty.isNumeric ∧
      ty = (env.shape ⟨name, scope⟩).ty

mutual

/-- The environment after a statement. -/
def Stmt.after (env : Environment) (scope : Scope) : Stmt → Environment
  | .assign a => a.after env scope
  | .array ty name _ => env.bind ⟨name, scope⟩ ⟨ty, 0⟩
  | .ifThen _ body rest => rest.after (afterAll env scope body) scope
  | .whileLoop _ body => afterAll env scope body
  | .forLoop init _ body => afterAll (init.after env scope) scope body
  | .subroutine name params body ty => afterAll (env.enter name params ty) (.subroutine name) body
  | _ => env

def afterAll (env : Environment) (scope : Scope) : List Stmt → Environment
  | [] => env
  | s :: rest => afterAll (s.after env scope) scope rest

def ElsePart.after (env : Environment) (scope : Scope) : ElsePart → Environment
  | .none => env
  | .body body => afterAll env scope body
  | .elseIf _ body rest => rest.after (afterAll env scope body) scope

end

mutual

/-- Do the shapes of a statement agree with the environment before it? -/
def Stmt.Agrees (env : Environment) (scope : Scope) : Stmt → Prop
  | .expr e => e.Agrees env scope ∧ e.ty.isResolved
  | .assign a => a.Agrees env scope
  | .array ty _ size => size.Agrees env scope ∧ size.ty.isNumeric ∧ ty.isNumeric
  | .output e => e.Agrees env scope ∧ e.ty.isResolved
  | .input target ty => target.Agrees env scope ∧ ty = target.ty
  | .ifThen condition body rest => condition.Agrees env scope ∧ condition.ty.isNumeric ∧
      allAgree env scope body ∧ rest.Agrees (afterAll env scope body) scope
  | .whileLoop condition body => condition.Agrees env scope ∧ condition.ty.isNumeric ∧
    allAgree env scope body
  | .forLoop init bound body => init.Agrees env scope ∧
    (∃ name shape, init.target = .var name shape) ∧
      init.ty.isNumeric ∧ bound.Agrees (init.after env scope) scope ∧ bound.ty.isNumeric ∧
      allAgree (init.after env scope) scope body
  | .subroutine name params body ty => scope = .top ∧ ty.isNumeric ∧
    (∀ p ∈ params, p.ty.isNumeric) ∧
      allAgree (env.enter name params ty) (.subroutine name) body
  | .ret e => scope ≠ .top ∧ e.Agrees env scope ∧ e.ty.isResolved

def allAgree (env : Environment) (scope : Scope) : List Stmt → Prop
  | [] => True
  | s :: rest => s.Agrees env scope ∧ allAgree (s.after env scope) scope rest

def ElsePart.Agrees (env : Environment) (scope : Scope) : ElsePart → Prop
  | .none => True
  | .body body => allAgree env scope body
  | .elseIf condition body rest => condition.Agrees env scope ∧ condition.ty.isNumeric ∧
      allAgree env scope body ∧ rest.Agrees (afterAll env scope body) scope

end

theorem Environment.contains_of_isResolved {env : Environment} {symbol : Symbol}
    (h : (env.shape symbol).ty.isResolved) : env.contains symbol := by
  cases hc : env.contains symbol with
  | true => rfl
  | false =>
    rw [shape, Std.TreeMap.getD_eq_fallback_of_contains_eq_false hc] at h
    exact absurd h (by decide)

end Pseudocode
