import Pseudocode.Proofs.Typing.Agreement
import Pseudocode.Proofs.Typing.Bindings

/-!
Programs of integers.

A program is one of integers if its constants are and it has neither arrays nor subroutines nor
input.  That is a matter of its text alone.  If its shapes agree as well, then every expression in
it has the type `int` and every variable is bound where it is read; `Integral` says so, tree by
tree, together with the condition on the arms of conditionals.  It is all that generating code needs
to know of such a program.
-/

namespace Pseudocode

variable {bound : String → Prop} {env : Environment}

/-! ### The text -/

/-- Is the expression made of integers, variables, operators and signs alone? -/
def Expr.isPlain : Expr → Bool
  | .constant (.int _) _ => true
  | .var .. => true
  | .binary _ lhs rhs _ => lhs.isPlain && rhs.isPlain
  | .negate operand _ => operand.isPlain
  | _ => false

mutual

/-- Is the statement one about integer variables? -/
def Stmt.isPlain : Stmt → Bool
  | .expr e => e.isPlain
  | .assign a => a.value.isPlain && a.binds != []
  | .output e => e.isPlain
  | .ifThen condition body rest => condition.isPlain && allPlain body && rest.isPlain
  | .whileLoop condition body => condition.isPlain && allPlain body
  | .forLoop init bound body => init.value.isPlain && bound.isPlain && allPlain body
  | _ => false

def allPlain : List Stmt → Bool
  | [] => true
  | s :: rest => s.isPlain && allPlain rest

def ElsePart.isPlain : ElsePart → Bool
  | .none => true
  | .body body => allPlain body
  | .elseIf condition body rest => condition.isPlain && allPlain body && rest.isPlain

end

/-! ### The types -/

/-- The names, and those that are bound already. -/
def also (names : List String) (bound : String → Prop) : String → Prop :=
  fun x => x ∈ names ∨ bound x

theorem also_nil (bound : String → Prop) : also [] bound = bound := by
  funext x
  simp [also]

theorem also_append (names more : List String) (bound : String → Prop) :
    also (names ++ more) bound = also more (also names bound) := by
  funext x
  simp only [also, List.mem_append, eq_iff_iff]
  constructor
  · rintro ((h | h) | h)
    · exact Or.inr (Or.inl h)
    · exact Or.inl h
    · exact Or.inr (Or.inr h)
  · rintro (h | h | h)
    · exact Or.inl (Or.inr h)
    · exact Or.inl (Or.inl h)
    · exact Or.inr h

/-- Names that are bound already add nothing. -/
theorem also_eq {names : List String} (h : ∀ x ∈ names, bound x) : also names bound = bound := by
  funext x
  exact propext ⟨fun hx => hx.elim (h x) id, Or.inr⟩

/-- The expression is of type `int` throughout, and its variables are bound. -/
def Expr.Integral (bound : String → Prop) : Expr → Prop
  | .constant (.int _) shape => shape.ty = .int
  | .var name shape => bound name ∧ shape.ty = .int
  | .binary _ lhs rhs shape => lhs.Integral bound ∧ rhs.Integral bound ∧ shape.ty = .int
  | .negate operand shape => operand.Integral bound ∧ shape.ty = .int
  | _ => False

theorem Expr.Integral.ty {e : Expr} (h : e.Integral bound) : e.ty = .int := by
  cases e with
  | constant value shape =>
    cases value with
    | int _ => exact h
    | _ => exact absurd h (by simp [Integral])
  | var name shape => exact h.2
  | binary op lhs rhs shape => exact h.2.2
  | negate operand shape => exact h.2
  | _ => exact absurd h (by simp [Integral])

/-- The assignment is one of an integer to a variable. -/
def Assignment.Integral (bound : String → Prop) (a : Assignment) : Prop :=
  a.value.Integral bound ∧ a.ty = .int ∧ ∃ name shape, a.target = .var name shape ∧ shape.ty = .int

mutual

/-- Expressions are integral where they stand, and the arms of a conditional bind nothing new. -/
def Stmt.Integral (bound : String → Prop) : Stmt → Prop
  | .expr e => e.Integral bound
  | .assign a => a.Integral bound
  | .output e => e.Integral bound
  | .ifThen condition body rest => condition.Integral bound ∧
    (∀ x ∈ bindsAll body ++ rest.binds, bound x) ∧
      allIntegral bound body ∧ rest.Integral bound
  | .whileLoop condition body => condition.Integral bound ∧ allIntegral bound body
  | .forLoop init limit body => init.Integral bound ∧ limit.Integral (also init.binds bound) ∧
      allIntegral (also init.binds bound) body
  | _ => False

def allIntegral (bound : String → Prop) : List Stmt → Prop
  | [] => True
  | s :: rest => s.Integral bound ∧ allIntegral (also s.binds bound) rest

def ElsePart.Integral (bound : String → Prop) : ElsePart → Prop
  | .none => True
  | .body body => (∀ x ∈ bindsAll body, bound x) ∧ allIntegral bound body
  | .elseIf condition body rest => condition.Integral bound ∧
    (∀ x ∈ bindsAll body ++ rest.binds, bound x) ∧
      allIntegral bound body ∧ rest.Integral bound

end

/-! ### From one to the other -/

/-- The environment binds these names of the top level, and all of them as integers. -/
structure Environment.Integral (env : Environment) (bound : String → Prop) : Prop where
  contains : ∀ x, env.contains ⟨x, .top⟩ ↔ bound x
  int : ∀ x, bound x → (env.shape ⟨x, .top⟩).ty = .int

theorem Environment.Integral.bind (h : env.Integral bound) (name : String) {shape : Shape}
    (hshape : shape.ty = .int) : (env.bind ⟨name, .top⟩ shape).Integral (also [name] bound) := by
  refine ⟨?_, ?_⟩
  · intro x
    rw [contains_bind, Bool.or_eq_true, beq_iff_eq, Symbol.mk.injEq, h.contains]
    simp [also, eq_comm]
  · intro x hx
    rw [shape_bind]
    by_cases heq : (⟨name, .top⟩ : Symbol) = ⟨x, .top⟩
    · rw [if_pos heq]
      exact hshape
    · rw [if_neg heq]
      rcases hx with hx | hx
      · rw [List.mem_singleton] at hx
        exact absurd (by rw [hx]) heq
      · exact h.int x hx

theorem integral_of_expr (henv : env.Integral bound) (e : Expr) (hplain : e.isPlain)
    (hagrees : e.Agrees env .top) (hty : e.ty.isResolved) : e.Integral bound := by
  cases e with
  | constant value shape =>
    cases value with
    | int n =>
      have hshape : shape = ⟨.int, 0⟩ := hagrees
      show shape.ty = .int
      rw [hshape]
    | _ => exact absurd hplain (by simp [Expr.isPlain])
  | var name shape =>
    have hshape : shape = env.shape ⟨name, .top⟩ := hagrees
    have hresolved : (env.shape ⟨name, .top⟩).ty.isResolved := by rw [← hshape]; exact hty
    have hbound := (henv.contains name).1 (Environment.contains_of_isResolved hresolved)
    exact ⟨hbound, by rw [hshape]; exact henv.int name hbound⟩
  | binary op lhs rhs shape =>
    obtain ⟨hleft, hright, hshape⟩ := hagrees
    rw [Expr.isPlain, Bool.and_eq_true] at hplain
    -- Operands that can be combined have types that are known.
    have hknown : lhs.ty.isResolved ∧ rhs.ty.isResolved := by
      show lhs.shape.ty.isResolved ∧ rhs.shape.ty.isResolved
      revert hshape
      rw [Shape.combined?]
      cases lhs.shape.ty <;> cases rhs.shape.ty <;> simp [Ty.promote?, Ty.isResolved]
    have hl := integral_of_expr henv lhs hplain.1 hleft hknown.1
    have hr := integral_of_expr henv rhs hplain.2 hright hknown.2
    refine ⟨hl, hr, ?_⟩
    have hlty : lhs.shape.ty = .int := hl.ty
    have hrty : rhs.shape.ty = .int := hr.ty
    rw [Shape.combined?, hlty, hrty] at hshape
    simp only [reduceCtorEq, and_self, if_false, Ty.promote?, Option.map_some,
      Option.some.injEq] at hshape
    rw [← hshape]
  | negate operand shape =>
    obtain ⟨hoperand, hnumeric, hshape⟩ := hagrees
    have hknown : operand.ty.isResolved := by
      revert hnumeric
      cases operand.ty <;> simp [Ty.isNumeric, Ty.isResolved]
    have ho := integral_of_expr henv operand hplain hoperand hknown
    exact ⟨ho, by rw [hshape]; exact ho.ty⟩
  | _ => exact absurd hplain (by simp [Expr.isPlain])

theorem isResolved_of_isNumeric {ty : Ty} (h : ty.isNumeric) : ty.isResolved := by
  cases ty <;> first | rfl | exact absurd h (by decide)

theorem integral_of_assignment (henv : env.Integral bound) {a : Assignment}
    (hplain : a.value.isPlain)
    (hagrees : a.Agrees env .top) {name : String} {shape : Shape}
    (htarget : a.target = .var name shape) :
    a.Integral bound ∧ (a.after env .top).Integral (also a.binds bound) := by
  obtain ⟨hvalue, hrest⟩ := hagrees
  simp only [htarget] at hrest
  obtain ⟨hresolved, hshape, hty⟩ := hrest
  have hint := integral_of_expr henv a.value hplain hvalue hresolved
  have hshapeInt : shape.ty = .int := by rw [hshape]; exact hint.ty
  refine ⟨⟨hint, by rw [hty]; exact hint.ty, name, shape, htarget, hshapeInt⟩, ?_⟩
  rw [Assignment.after, Assignment.binds, htarget]
  exact henv.bind name hshapeInt

theorem Environment.Integral.bindsNothing (h : env.Integral bound) :
    env.Integral (also [] bound) := by
  rw [also_nil]
  exact h

theorem also_mem (names before : List String) :
    also names (· ∈ before) = (· ∈ names ++ before) := by
  funext x
  simp [also]

mutual

/-- **A statement of integers whose shapes agree is integral.** -/
theorem integral_of_statement {env : Environment} {before : List String}
    (henv : env.Integral (· ∈ before))
    (s : Stmt) (hplain : s.isPlain) (harms : s.armsBound before) (hagrees : s.Agrees env .top) :
    s.Integral (· ∈ before) ∧ (s.after env .top).Integral (also s.binds (· ∈ before)) := by
  cases s with
  | expr e => exact ⟨integral_of_expr henv e hplain hagrees.1 hagrees.2, henv.bindsNothing⟩
  | output e => exact ⟨integral_of_expr henv e hplain hagrees.1 hagrees.2, henv.bindsNothing⟩
  | assign a =>
    rw [Stmt.isPlain, Bool.and_eq_true, bne_iff_ne] at hplain
    cases htarget : a.target with
    | element name index ty => exact absurd (by rw [Assignment.binds, htarget]) hplain.2
    | var name shape => exact integral_of_assignment henv hplain.1 hagrees htarget
  | ifThen condition body rest =>
    simp only [Stmt.isPlain, Bool.and_eq_true] at hplain
    simp only [Stmt.armsBound, Bool.and_eq_true, List.all_eq_true, decide_eq_true_eq] at harms
    obtain ⟨hcondition, hnumeric, hbody, hrest⟩ := hagrees
    obtain ⟨⟨hall, harmsBody⟩, harmsRest⟩ := harms
    obtain ⟨hbodyInt, henvBody⟩ := integral_of_all henv body hplain.1.2 harmsBody hbody
    rw [also_mem] at henvBody
    obtain ⟨hrestInt, henvRest⟩ := integral_of_elsePart henvBody rest hplain.2
      (fun x hx => List.mem_append_right _ (hall x (List.mem_append_right _ hx))) harmsRest hrest
    rw [← also_mem, ← also_append] at henvRest
    rw [← also_mem, also_eq fun x hx => hall x (List.mem_append_left _ hx)] at hrestInt
    exact ⟨⟨integral_of_expr henv condition hplain.1.1 hcondition
      (isResolved_of_isNumeric hnumeric), hall, hbodyInt, hrestInt⟩, henvRest⟩
  | whileLoop condition body =>
    simp only [Stmt.isPlain, Bool.and_eq_true] at hplain
    obtain ⟨hcondition, hnumeric, hbody⟩ := hagrees
    obtain ⟨hbodyInt, henvBody⟩ := integral_of_all henv body hplain.2 harms hbody
    exact ⟨⟨integral_of_expr henv condition hplain.1 hcondition (isResolved_of_isNumeric hnumeric),
      hbodyInt⟩, henvBody⟩
  | forLoop init limit body =>
    simp only [Stmt.isPlain, Bool.and_eq_true] at hplain
    obtain ⟨hinit, ⟨name, shape, htarget⟩, -, hlimit, hnumeric, hbody⟩ := hagrees
    obtain ⟨hinitInt, henvInit⟩ := integral_of_assignment henv hplain.1.1 hinit htarget
    have hlimitInt :=
      integral_of_expr henvInit limit hplain.1.2 hlimit (isResolved_of_isNumeric hnumeric)
    rw [also_mem] at henvInit
    have hbinds := Assignment.binds_of_var htarget
    have harms : armsBoundAll (init.binds ++ before) body := by
      rw [hbinds]
      exact harms
    obtain ⟨hbodyInt, henvBody⟩ := integral_of_all henvInit body hplain.2 harms hbody
    rw [← also_mem] at hbodyInt henvBody
    rw [← also_append, hbinds] at henvBody
    exact ⟨⟨hinitInt, hlimitInt, hbodyInt⟩, henvBody⟩
  | _ => exact absurd hplain (by simp [Stmt.isPlain])

theorem integral_of_all {env : Environment} {before : List String}
    (henv : env.Integral (· ∈ before))
    (body : List Stmt) (hplain : allPlain body) (harms : armsBoundAll before body)
    (hagrees : allAgree env .top body) :
    allIntegral (· ∈ before) body ∧
    (afterAll env .top body).Integral (also (bindsAll body) (· ∈ before)) := by
  cases body with
  | nil => exact ⟨trivial, henv.bindsNothing⟩
  | cons s rest =>
    rw [allPlain, Bool.and_eq_true] at hplain
    rw [armsBoundAll, Bool.and_eq_true] at harms
    obtain ⟨hs, henvS⟩ := integral_of_statement henv s hplain.1 harms.1 hagrees.1
    rw [also_mem] at henvS
    obtain ⟨hrest, henvRest⟩ := integral_of_all henvS rest hplain.2 harms.2 hagrees.2
    rw [← also_mem] at hrest henvRest
    exact ⟨⟨hs, hrest⟩, by rw [bindsAll, also_append]; exact henvRest⟩

theorem integral_of_elsePart {env : Environment} {before : List String}
    (henv : env.Integral (· ∈ before))
    (part : ElsePart) (hplain : part.isPlain) (hall : ∀ x ∈ part.binds, x ∈ before)
    (harms : part.armsBound before) (hagrees : part.Agrees env .top) :
    part.Integral (· ∈ before) ∧ (part.after env .top).Integral (also part.binds (· ∈ before)) := by
  cases part with
  | none => exact ⟨trivial, henv.bindsNothing⟩
  | body body =>
    obtain ⟨hbodyInt, henvBody⟩ := integral_of_all henv body hplain harms hagrees
    exact ⟨⟨hall, hbodyInt⟩, henvBody⟩
  | elseIf condition body rest =>
    simp only [ElsePart.isPlain, Bool.and_eq_true] at hplain
    simp only [ElsePart.armsBound, Bool.and_eq_true] at harms
    obtain ⟨hcondition, hnumeric, hbody, hrest⟩ := hagrees
    obtain ⟨hbodyInt, henvBody⟩ := integral_of_all henv body hplain.1.2 harms.1 hbody
    rw [also_mem] at henvBody
    obtain ⟨hrestInt, henvRest⟩ := integral_of_elsePart henvBody rest hplain.2
      (fun x hx => List.mem_append_right _ (hall x (List.mem_append_right _ hx))) harms.2 hrest
    rw [← also_mem, ← also_append] at henvRest
    rw [← also_mem, also_eq fun x hx => hall x (List.mem_append_left _ hx)] at hrestInt
    exact ⟨⟨integral_of_expr henv condition hplain.1.1 hcondition
      (isResolved_of_isNumeric hnumeric), hall, hbodyInt, hrestInt⟩, henvRest⟩

end

end Pseudocode
