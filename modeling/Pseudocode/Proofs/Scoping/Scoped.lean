import Pseudocode.Proofs.Slots.Trail

/-!
Programs that use a variable only where it has been bound.

Reading a program takes every name to be bound from where it is first assigned to on, in the order
of the text. Code is generated in another order.  What follows an arm of a conditional begins with
the variables from before the conditional, and not with those of the arm; the condition of a loop
comes behind the body.  `scoped` checks the uses of variables in that order: `bound` are the names
that have been bound on the way to a statement.
-/

namespace Pseudocode

/-- The variables that must have been bound before an assignment. -/
def Assignment.needs (a : Assignment) : List String :=
  match a.target with
  | .var .. => a.value.reads
  | .element name index _ => name :: (a.value.reads ++ index.reads)

def Target.needs : Target → List String
  | .var name _ => [name]
  | .element name index _ => name :: index.reads

mutual

/-- Is every variable bound where a statement uses it? -/
def Stmt.scoped (bound : List String) : Stmt → Bool
  | .expr e => e.reads ⊆ bound
  | .assign a => a.needs ⊆ bound
  | .array _ _ size => size.reads ⊆ bound
  | .output e => e.reads ⊆ bound
  | .input target _ => target.needs ⊆ bound
  | .ifThen condition body rest =>
    condition.reads ⊆ bound && scopedAll bound body && rest.scoped bound
  | .whileLoop condition body => scopedAll bound body && condition.reads ⊆ bindsAll body ++ bound
  | .forLoop init limit body => init.needs ⊆ bound && scopedAll (init.target.name :: bound) body &&
      limit.reads ⊆ bindsAll body ++ init.target.name :: bound
  | .subroutine _ params body _ => scopedAll (params.map Param.name) body
  | .ret e => e.reads ⊆ bound

def scopedAll (bound : List String) : List Stmt → Bool
  | [] => true
  | s :: rest => s.scoped bound && scopedAll (s.binds ++ bound) rest

def ElsePart.scoped (bound : List String) : ElsePart → Bool
  | .none => true
  | .body body => scopedAll bound body
  | .elseIf condition body rest =>
    condition.reads ⊆ bound && scopedAll bound body && rest.scoped bound

end

/-- Is every variable bound where a program uses it? -/
def Program.scoped (p : Program) : Bool :=
  scopedAll [] p

/-! ### Subroutines that are called -/

/-- Have all of these subroutines been declared? -/
def Environment.Declares (env : Environment) (names : List String) : Prop :=
  ∀ name ∈ names, (env.returnTy? name).isSome

theorem Environment.declares_append {env : Environment} {names names' : List String} :
    env.Declares (names ++ names') ↔ env.Declares names ∧ env.Declares names' :=
  List.forall_mem_append

mutual

theorem Expr.declares_calls {env : Environment} {scope : Scope} (e : Expr)
    (h : e.Agrees env scope) : env.Declares e.calls := by
  cases e with
  | constant value shape => exact fun _ hname => absurd hname List.not_mem_nil
  | var name shape => exact fun _ hname => absurd hname List.not_mem_nil
  | element name index shape => exact index.declares_calls h.1
  | binary op lhs rhs shape =>
    exact Environment.declares_append.mpr ⟨lhs.declares_calls h.1, rhs.declares_calls h.2.1⟩
  | negate operand shape => exact operand.declares_calls h.1
  | call name args ty =>
    refine List.forall_mem_cons.mpr ⟨?_, declares_callsAll args h.2⟩
    rw [h.1]
    rfl

theorem declares_callsAll {env : Environment} {scope : Scope} (args : List Expr)
    (h : argumentsAgree env scope args) : env.Declares (callsAll args) := by
  cases args with
  | nil => exact fun _ hname => absurd hname List.not_mem_nil
  | cons arg args =>
    exact Environment.declares_append.mpr ⟨arg.declares_calls h.1, declares_callsAll args h.2.2⟩

end

theorem Target.declares_calls {env : Environment} {scope : Scope} (target : Target)
    (h : target.Agrees env scope) : env.Declares target.calls := by
  cases target with
  | var name shape => exact fun _ hname => absurd hname List.not_mem_nil
  | element name index ty => exact index.declares_calls h.2.1

theorem Assignment.declares_calls {env : Environment} {scope : Scope} (a : Assignment)
    (h : a.Agrees env scope) : env.Declares a.value.calls ∧ env.Declares a.target.calls := by
  refine ⟨a.value.declares_calls h.1, ?_⟩
  have hplace := h.2
  cases htarget : a.target with
  | var name shape => exact fun _ hname => absurd hname List.not_mem_nil
  | element name index ty =>
    rw [htarget] at hplace
    exact index.declares_calls hplace.2.1

/-! ### Subroutines stay declared -/

namespace Environment

/-- Is every subroutine still declared? -/
def Extends (env env' : Environment) : Prop :=
  ∀ name, (env.returnTy? name).isSome → (env'.returnTy? name).isSome

variable {env env₁ env₂ : Environment}

theorem Extends.refl (env : Environment) : env.Extends env :=
  fun _ h => h

theorem Extends.trans (h₁ : env.Extends env₁) (h₂ : env₁.Extends env₂) : env.Extends env₂ :=
  fun name h => h₂ name (h₁ name h)

theorem Declares.mono {names : List String} (h : env.Declares names) (hext : env.Extends env₁) :
    env₁.Declares names :=
  fun name hname => hext name (h name hname)

theorem returnTy?_foldl_bind (scope : Scope) (params : List Param) (env : Environment)
    (name : String) :
    (params.foldl (fun env p => env.bind ⟨p.name, scope⟩ ⟨p.ty, 0⟩) env).returnTy? name =
    env.returnTy? name := by
  induction params generalizing env with
  | nil => rfl
  | cons p params ih => rw [List.foldl_cons, ih, returnTy?_bind]

theorem returnTy?_enter (env : Environment) (name : String) (params : List Param) (ty : Ty)
    (other : String) :
    (env.enter name params ty).returnTy? other =
      if name = other then some ty else env.returnTy? other := by
  rw [enter, returnTy?_foldl_bind, returnTy?_register]

theorem extends_enter (env : Environment) (name : String) (params : List Param) (ty : Ty) :
    env.Extends (env.enter name params ty) := by
  intro other h
  rw [returnTy?_enter]
  split
  · rfl
  · exact h

end Environment

theorem Assignment.returnTy?_after (env : Environment) (scope : Scope) (a : Assignment)
    (name : String) : (a.after env scope).returnTy? name = env.returnTy? name := by
  unfold after
  split
  · rw [Environment.returnTy?_bind]
  · rfl

theorem Assignment.extends_after (env : Environment) (scope : Scope) (a : Assignment) :
    env.Extends (a.after env scope) := by
  intro name h
  rwa [a.returnTy?_after]

mutual

theorem Stmt.extends_after (env : Environment) (scope : Scope) (s : Stmt) :
    env.Extends (s.after env scope) := by
  cases s with
  | assign a => exact a.extends_after env scope
  | ifThen condition body rest =>
    exact (extends_afterAll env scope body).trans (rest.extends_after _ scope)
  | whileLoop condition body => exact extends_afterAll env scope body
  | forLoop init limit body =>
    exact (init.extends_after env scope).trans (extends_afterAll _ scope body)
  | subroutine name params body ty =>
    exact (env.extends_enter name params ty).trans (extends_afterAll _ _ body)
  | _ => exact .refl env

theorem extends_afterAll (env : Environment) (scope : Scope) (body : List Stmt) :
    env.Extends (afterAll env scope body) := by
  cases body with
  | nil => exact .refl env
  | cons s rest => exact (s.extends_after env scope).trans (extends_afterAll _ scope rest)

theorem ElsePart.extends_after (env : Environment) (scope : Scope) (rest : ElsePart) :
    env.Extends (rest.after env scope) := by
  cases rest with
  | none => exact .refl env
  | body body => exact extends_afterAll env scope body
  | elseIf condition body rest =>
    exact (extends_afterAll env scope body).trans (rest.extends_after _ scope)

end

end Pseudocode
