import Pseudocode.Proofs.Scoping.Scoped
import Pseudocode.Proofs.Typing.Annotation

/-!
Programs in which every name stands for one kind of thing.

Reading a program lets a name be bound again as something else: as a value of another type, or as an
array where it was a number.  It also takes a name to be bound behind the arm of a conditional that
binds it, although the other arm does not.  A regular program does neither.  Every binding of a name
is like the first one, an index stands behind a name exactly if it is an array (`uniform`), an arm
that has another one behind it binds no new names (`armsKnown`), and what is returned is a number
(`returnsNumbers`).

What follows from that for an environment is `Environment.Fits`: the types of the names are those of
their kinds.
-/

namespace Pseudocode

namespace SlotKind

/-- The type of the value, or of the elements. -/
def ty : SlotKind → Ty
  | scalar ty => ty
  | array ty => ty

/-- Is it the kind of an array? -/
def isArray : SlotKind → Bool
  | scalar _ => false
  | array _ => true

end SlotKind

/-! ### Where names are used -/

mutual

/-- The names that an expression uses, and whether it does with an index. -/
def Expr.uses (scope : Scope) : Expr → List (Symbol × Bool)
  | .constant .. => []
  | .var name _ => [(⟨name, scope⟩, false)]
  | .element name index _ => (⟨name, scope⟩, true) :: index.uses scope
  | .binary _ lhs rhs _ => lhs.uses scope ++ rhs.uses scope
  | .negate operand _ => operand.uses scope
  | .call _ args _ => usesOfArguments scope args

def usesOfArguments (scope : Scope) : List Expr → List (Symbol × Bool)
  | [] => []
  | arg :: args => arg.uses scope ++ usesOfArguments scope args

end

def Target.uses (scope : Scope) : Target → List (Symbol × Bool)
  | .var name _ => [(⟨name, scope⟩, false)]
  | .element name index _ => (⟨name, scope⟩, true) :: index.uses scope

/-- The names that an assignment uses.  A variable that is assigned to is bound and not used. -/
def Assignment.uses (scope : Scope) (a : Assignment) : List (Symbol × Bool) :=
  a.value.uses scope ++
    match a.target with
    | .var .. => []
    | .element name index _ => (⟨name, scope⟩, true) :: index.uses scope

mutual

/-- The names that a statement uses, in its scope or in that of a subroutine. -/
def Stmt.uses (scope : Scope) : Stmt → List (Symbol × Bool)
  | .expr e => e.uses scope
  | .assign a => a.uses scope
  | .array _ _ size => size.uses scope
  | .output e => e.uses scope
  | .input target _ => target.uses scope
  | .ifThen condition body rest => condition.uses scope ++ usesAll scope body ++ rest.uses scope
  | .whileLoop condition body => condition.uses scope ++ usesAll scope body
  | .forLoop init bound body => init.uses scope ++ bound.uses scope ++ usesAll scope body
  | .subroutine name _ body _ => usesAll (.subroutine name) body
  | .ret e => e.uses scope

def usesAll (scope : Scope) : List Stmt → List (Symbol × Bool)
  | [] => []
  | st :: rest => st.uses scope ++ usesAll scope rest

def ElsePart.uses (scope : Scope) : ElsePart → List (Symbol × Bool)
  | .none => []
  | .body body => usesAll scope body
  | .elseIf condition body rest => condition.uses scope ++ usesAll scope body ++ rest.uses scope

end

/-! ### Where names are bound -/

/-- The name that an assignment binds, if it does, and as what. -/
def Assignment.bindings (scope : Scope) (a : Assignment) : List (Symbol × SlotKind) :=
  match a.target with
  | .var name shape => [(⟨name, scope⟩, .scalar shape.ty)]
  | .element .. => []

/-- The parameters of a subroutine, as what they are bound. -/
def Param.bindings (scope : Scope) (params : List Param) : List (Symbol × SlotKind) :=
  params.map fun p => (⟨p.name, scope⟩, .scalar p.ty)

mutual

/-- The names that a statement binds, in its scope or in that of a subroutine, and as what. -/
def Stmt.bindings (scope : Scope) : Stmt → List (Symbol × SlotKind)
  | .assign a => a.bindings scope
  | .array ty name _ => [(⟨name, scope⟩, .array ty)]
  | .ifThen _ body rest => bindingsAll scope body ++ rest.bindings scope
  | .whileLoop _ body => bindingsAll scope body
  | .forLoop init _ body => init.bindings scope ++ bindingsAll scope body
  | .subroutine name params body _ =>
    Param.bindings (.subroutine name) params ++ bindingsAll (.subroutine name) body
  | _ => []

def bindingsAll (scope : Scope) : List Stmt → List (Symbol × SlotKind)
  | [] => []
  | st :: rest => st.bindings scope ++ bindingsAll scope rest

def ElsePart.bindings (scope : Scope) : ElsePart → List (Symbol × SlotKind)
  | .none => []
  | .body body => bindingsAll scope body
  | .elseIf _ body rest => bindingsAll scope body ++ rest.bindings scope

end

/-! ### Regular programs -/

/-- What the first binding of a name binds it as. -/
def Program.kindOf (p : Program) (symbol : Symbol) : SlotKind :=
  match (bindingsAll .top p).find? fun b => b.1 = symbol with
  | some b => b.2
  | none => .scalar .undetermined

/-- Is every name bound always as the same, and is it indexed exactly if it is an array? -/
def Program.uniform (p : Program) : Bool :=
  (bindingsAll .top p).all (fun b => p.kindOf b.1 = b.2) && (usesAll .top p).all
    fun u => (p.kindOf u.1).isArray = u.2

/-- Is there nothing behind an arm of a conditional? -/
def ElsePart.isNone : ElsePart → Bool
  | .none => true
  | _ => false

/-- If there is something behind an arm of a conditional, have all names been bound before that the
arm binds in its scope? -/
def armKnown (scope : Scope) (before : List Symbol) (body : List Stmt) (rest : ElsePart) : Bool :=
  rest.isNone || (bindingsAll scope body).all fun b => b.1.scope ≠ scope ∨ b.1 ∈ before

mutual

/-- Have the names been bound before a conditional that its arms bind, but for the last one?
`before` are the names that are bound before the statement. -/
def Stmt.armsKnown (scope : Scope) (before : List Symbol) : Stmt → Bool
  | .ifThen _ body rest => armKnown scope before body rest && armsKnownAll scope before body &&
      rest.armsKnown scope ((bindingsAll scope body).map Prod.fst ++ before)
  | .whileLoop _ body => armsKnownAll scope before body
  | .forLoop init _ body => armsKnownAll scope ((init.bindings scope).map Prod.fst ++ before) body
  | .subroutine name params body _ =>
    armsKnownAll (.subroutine name) ((Param.bindings (.subroutine name) params).map Prod.fst ++
      before) body
  | _ => true

def armsKnownAll (scope : Scope) (before : List Symbol) : List Stmt → Bool
  | [] => true
  | st :: rest =>
    st.armsKnown scope before && armsKnownAll scope
    ((st.bindings scope).map Prod.fst ++ before) rest

def ElsePart.armsKnown (scope : Scope) (before : List Symbol) : ElsePart → Bool
  | .none => true
  | .body body => armsKnownAll scope before body
  | .elseIf _ body rest => armKnown scope before body rest && armsKnownAll scope before body &&
      rest.armsKnown scope ((bindingsAll scope body).map Prod.fst ++ before)

end

mutual

/-- Does a statement return no strings? -/
def Stmt.returnsNumbers : Stmt → Bool
  | .ret e => e.ty ≠ .string
  | .ifThen _ body rest => returnNumbers body && rest.returnsNumbers
  | .whileLoop _ body => returnNumbers body
  | .forLoop _ _ body => returnNumbers body
  | .subroutine _ _ body _ => returnNumbers body
  | _ => true

def returnNumbers : List Stmt → Bool
  | [] => true
  | st :: rest => st.returnsNumbers && returnNumbers rest

def ElsePart.returnsNumbers : ElsePart → Bool
  | .none => true
  | .body body => returnNumbers body
  | .elseIf _ body rest => returnNumbers body && rest.returnsNumbers

end

/-- Does every name stand for one kind of thing, is it bound before the arms that bind it again, and
are only numbers returned? -/
def Program.regular (p : Program) : Bool :=
  p.uniform && armsKnownAll .top [] p && returnNumbers p

/-! ### Names that are bound -/

namespace Environment

variable {env : Environment}

theorem contains_enter {name : String} {params : List Param} {ty : Ty} {symbol : Symbol} :
    (env.enter name params ty).contains symbol ↔
      symbol ∈ (Param.bindings (.subroutine name) params).map Prod.fst ∨ env.contains symbol := by
  unfold enter Param.bindings
  have hstart : (env.register name ty).contains symbol = env.contains symbol := rfl
  rw [← hstart]
  generalize env.register name ty = env'
  induction params generalizing env' with
  | nil => simp
  | cons p params ih =>
    rw [List.foldl_cons]
    refine (ih _).trans ?_
    rw [contains_bind]
    simp only [Bool.or_eq_true, beq_iff_eq, List.map_cons, List.mem_cons, @eq_comm _ symbol]
    tauto

end Environment

section

variable {env : Environment} {scope : Scope}

theorem Assignment.contains_after (env : Environment) (scope : Scope) (a : Assignment)
    (symbol : Symbol) :
    (a.after env scope).contains symbol ↔ symbol ∈ (a.bindings scope).map Prod.fst ∨
    env.contains symbol := by
  unfold after bindings
  cases a.target with
  | var name shape => simp [@eq_comm _ symbol]
  | element name index ty => simp

mutual

/-- A name is bound behind a statement if the statement binds it or if it was bound before. -/
theorem Stmt.contains_after (env : Environment) (scope : Scope) (st : Stmt) (symbol : Symbol) :
    (st.after env scope).contains symbol ↔ symbol ∈ (st.bindings scope).map Prod.fst ∨
    env.contains symbol := by
  cases st with
  | assign a => exact a.contains_after env scope symbol
  | array ty name size => simp [Stmt.after, Stmt.bindings, @eq_comm _ symbol]
  | ifThen condition body rest =>
    rw [Stmt.after, rest.contains_after, contains_afterAll, Stmt.bindings, List.map_append,
      List.mem_append]
    tauto
  | whileLoop condition body => exact contains_afterAll env scope body symbol
  | forLoop init bound body =>
    rw [Stmt.after, contains_afterAll, init.contains_after, Stmt.bindings, List.map_append,
      List.mem_append]
    tauto
  | subroutine name params body ty =>
    rw [Stmt.after, contains_afterAll, Environment.contains_enter, Stmt.bindings, List.map_append,
      List.mem_append]
    tauto
  | _ => simp [Stmt.after, Stmt.bindings]

theorem contains_afterAll (env : Environment) (scope : Scope) (body : List Stmt) (symbol : Symbol) :
    (afterAll env scope body).contains symbol ↔
      symbol ∈ (bindingsAll scope body).map Prod.fst ∨ env.contains symbol := by
  cases body with
  | nil => simp [afterAll, bindingsAll]
  | cons st rest =>
    rw [afterAll, contains_afterAll, st.contains_after, bindingsAll, List.map_append,
      List.mem_append]
    tauto

theorem ElsePart.contains_after (env : Environment) (scope : Scope) (part : ElsePart)
    (symbol : Symbol) :
    (part.after env scope).contains symbol ↔ symbol ∈ (part.bindings scope).map Prod.fst ∨
    env.contains symbol := by
  cases part with
  | none => simp [ElsePart.after, ElsePart.bindings]
  | body body => exact contains_afterAll env scope body symbol
  | elseIf condition body rest =>
    rw [ElsePart.after, rest.contains_after, contains_afterAll, ElsePart.bindings, List.map_append,
      List.mem_append]
    tauto

end

theorem Assignment.scope_bindings (scope : Scope) (a : Assignment) :
    ∀ b ∈ a.bindings scope, b.1.scope = scope := by
  unfold bindings
  cases a.target with
  | var name shape => simp
  | element name index ty => simp

mutual

/-- A subroutine binds nothing at the top level. -/
theorem Stmt.scope_ne_top {scope : Scope} (hscope : scope ≠ .top) (st : Stmt) :
    ∀ b ∈ st.bindings scope, b.1.scope ≠ .top := by
  cases st with
  | assign a =>
    intro b hb
    rwa [a.scope_bindings scope b hb]
  | array ty name size => simpa [Stmt.bindings] using hscope
  | ifThen condition body rest =>
    exact List.forall_mem_append.2 ⟨bindingsAll_ne_top hscope body, rest.scope_ne_top hscope⟩
  | whileLoop condition body => exact bindingsAll_ne_top hscope body
  | forLoop init bound body =>
    refine List.forall_mem_append.2 ⟨fun b hb => ?_, bindingsAll_ne_top hscope body⟩
    rwa [init.scope_bindings scope b hb]
  | subroutine name params body ty =>
    refine List.forall_mem_append.2 ⟨?_, bindingsAll_ne_top (by simp) body⟩
    simp [Param.bindings]
  | _ => simp [Stmt.bindings]

theorem bindingsAll_ne_top {scope : Scope} (hscope : scope ≠ .top) (body : List Stmt) :
    ∀ b ∈ bindingsAll scope body, b.1.scope ≠ .top := by
  cases body with
  | nil => simp [bindingsAll]
  | cons st rest =>
    exact List.forall_mem_append.2 ⟨st.scope_ne_top hscope, bindingsAll_ne_top hscope rest⟩

theorem ElsePart.scope_ne_top {scope : Scope} (hscope : scope ≠ .top) (part : ElsePart) :
    ∀ b ∈ part.bindings scope, b.1.scope ≠ .top := by
  cases part with
  | none => simp [ElsePart.bindings]
  | body body => exact bindingsAll_ne_top hscope body
  | elseIf condition body rest =>
    exact List.forall_mem_append.2 ⟨bindingsAll_ne_top hscope body, rest.scope_ne_top hscope⟩

end

end

/-! ### Environments whose types are those of the kinds -/

theorem Ty.isNumeric_of_isResolved {ty : Ty} (h : ty.isResolved) (hstring : ty ≠ .string) :
    ty.isNumeric := by
  cases ty <;> simp_all [Ty.isResolved, Ty.isNumeric]

theorem Ty.isNumeric_of_promote? {left right ty : Ty} (h : Ty.promote? left right = some ty) :
    left ≠ .string ∧ ty.isNumeric := by
  cases left <;> cases right <;> simp [Ty.promote?] at h <;> simp [← h, Ty.isNumeric]

/-- Has the subroutine been declared whose scope it is? -/
def Environment.Opens (env : Environment) (scope : Scope) : Prop :=
  ∀ f, scope = .subroutine f → (env.returnTy? f).isSome

theorem Environment.Opens.mono {env env' : Environment} {scope : Scope} (h : env.Opens scope)
    (hext : env.Extends env') : env'.Opens scope :=
  fun f hf => hext f (h f hf)

/-- Names have the types of their kinds, the elements of arrays are numbers, and names are bound
only in scopes of subroutines that have been declared. -/
structure Environment.Fits (kinds : Symbol → SlotKind) (env : Environment) : Prop where
  proper : env.Proper
  types : ∀ symbol, env.contains symbol → (env.shape symbol).ty = (kinds symbol).ty
  arrays : ∀ symbol ty, env.contains symbol → kinds symbol = .array ty → ty.isNumeric
  scopes : ∀ symbol, env.contains symbol → env.Opens symbol.scope

section

variable {kinds : Symbol → SlotKind} {env : Environment} {scope : Scope}

namespace Environment.Fits

theorem empty : ({} : Environment).Fits kinds := by
  have hnone : ∀ symbol, ¬ ({} : Environment).contains symbol := by simp [contains]
  exact ⟨.empty, fun symbol h => absurd h (hnone symbol), fun symbol _ h => absurd h (hnone symbol),
    fun symbol h => absurd h (hnone symbol)⟩

theorem bind (h : env.Fits kinds) {symbol : Symbol} {shape : Shape} (hproper : shape.Proper)
    (hty : shape.ty = (kinds symbol).ty) (harray : ∀ ty, kinds symbol = .array ty → ty.isNumeric)
    (hscope : env.Opens symbol.scope) : (env.bind symbol shape).Fits kinds := by
  have hcases : ∀ other, (env.bind symbol shape).contains other → symbol = other ∨
    env.contains other := by
    intro other hother
    rwa [contains_bind, Bool.or_eq_true, beq_iff_eq] at hother
  refine ⟨h.proper.bind symbol hproper, fun other hother => ?_, fun other ty hother => ?_,
    fun other hother => ?_⟩
  · rw [shape_bind]
    split
    · next heq => rwa [← heq]
    · next hne => exact h.types other ((hcases other hother).resolve_left hne)
  · rcases hcases other hother with rfl | hold
    · exact harray ty
    · exact h.arrays other ty hold
  · rcases hcases other hother with rfl | hold
    · exact hscope
    · exact h.scopes other hold

theorem register (h : env.Fits kinds) (name : String) {ty : Ty} (hty : ty.isNumeric) :
    (env.register name ty).Fits kinds := by
  refine ⟨h.proper.register name hty, h.types, h.arrays, fun symbol hsymbol f hf => ?_⟩
  rw [returnTy?_register]
  split
  · rfl
  · exact h.scopes symbol hsymbol f hf

theorem enter (h : env.Fits kinds) {name : String} {params : List Param} {ty : Ty}
    (hty : ty.isNumeric) (hparams : ∀ p ∈ params, p.ty.isNumeric)
    (hkinds : ∀ b ∈ Param.bindings (.subroutine name) params, kinds b.1 = b.2) :
    (env.enter name params ty).Fits kinds := by
  unfold Environment.enter
  have hstart := h.register name hty
  have hopens : (env.register name ty).Opens (.subroutine name) := by
    intro f hf
    obtain rfl := Scope.subroutine.inj hf
    simp
  generalize env.register name ty = env' at hstart hopens
  induction params generalizing env' with
  | nil => exact hstart
  | cons p params ih =>
    obtain ⟨hp, hrest⟩ := List.forall_mem_cons.1 hparams
    obtain ⟨hkind, hkinds⟩ := List.forall_mem_cons.1 hkinds
    have hbound : (env'.bind ⟨p.name, .subroutine name⟩ ⟨p.ty, 0⟩).Fits kinds :=
      hstart.bind (Shape.proper_number hp) (by rw [hkind]; rfl) (by simp [hkind]) hopens
    exact ih hrest hkinds _ hbound hopens

theorem shape_number (henv : env.Fits kinds) {symbol : Symbol} (hbound : env.contains symbol)
    {ty : Ty}
    (hkind : kinds symbol = .scalar ty) (hty : ty.isNumeric) : env.shape symbol = ⟨ty, 0⟩ := by
  have htype := henv.types symbol hbound
  rw [hkind] at htype
  have hlength := (henv.proper.shapes symbol hbound).length
  rw [htype] at hlength
  have hzero := hlength hty
  cases hshape : env.shape symbol with
  | mk ty' length =>
    rw [hshape] at htype hzero
    dsimp only at htype hzero
    rw [htype, hzero]
    rfl

end Environment.Fits

theorem Environment.opens_enter (env : Environment) (name : String) (params : List Param)
    (ty : Ty) : (env.enter name params ty).Opens (.subroutine name) := by
  intro f hf
  obtain rfl := Scope.subroutine.inj hf
  rw [returnTy?_enter, if_pos rfl]
  rfl

theorem Assignment.fits_after (henv : env.Fits kinds) (hscope : env.Opens scope) {a : Assignment}
    (h : a.Agrees env scope) (hkinds : ∀ b ∈ a.bindings scope, kinds b.1 = b.2) :
    (a.after env scope).Fits kinds := by
  obtain ⟨hvalue, htarget⟩ := h
  unfold after
  unfold bindings at hkinds
  cases hplace : a.target with
  | var name shape =>
    rw [hplace] at htarget hkinds
    obtain ⟨hty, rfl, -⟩ := htarget
    have hkind := hkinds _ (List.mem_singleton_self _)
    exact henv.bind (a.value.proper_shape henv.proper hvalue hty) (by rw [hkind]; rfl)
      (by simp [hkind]) hscope
  | element name index ty => exact henv

mutual

theorem Stmt.fits_after {env : Environment} {scope : Scope} (henv : env.Fits kinds)
    (hscope : env.Opens scope)
    (st : Stmt) (h : st.Agrees env scope) (hkinds : ∀ b ∈ st.bindings scope, kinds b.1 = b.2) :
    (st.after env scope).Fits kinds := by
  cases st with
  | assign a => exact a.fits_after henv hscope h hkinds
  | array ty name size =>
    have hkind := hkinds _ (List.mem_singleton_self _)
    refine henv.bind (Shape.proper_number h.2.2) (by rw [hkind]; rfl) (fun ty' hty' => ?_) hscope
    obtain rfl := SlotKind.array.inj (hkind.symm.trans hty')
    exact h.2.2
  | ifThen condition body rest =>
    obtain ⟨hbody, hrest⟩ := List.forall_mem_append.1 hkinds
    exact rest.fits_after (fits_afterAll henv hscope body h.2.2.1 hbody)
      (hscope.mono (extends_afterAll env scope body)) h.2.2.2 hrest
  | whileLoop condition body => exact fits_afterAll henv hscope body h.2.2 hkinds
  | forLoop init bound body =>
    obtain ⟨hinit, hbody⟩ := List.forall_mem_append.1 hkinds
    exact fits_afterAll (init.fits_after henv hscope h.1 hinit)
      (hscope.mono (init.extends_after env scope)) body h.2.2.2.2.2 hbody
  | subroutine name params body ty =>
    obtain ⟨hparams, hbody⟩ := List.forall_mem_append.1 hkinds
    exact fits_afterAll (henv.enter h.2.1 h.2.2.1 hparams) (env.opens_enter name params ty) body
      h.2.2.2 hbody
  | _ => exact henv

theorem fits_afterAll {env : Environment} {scope : Scope} (henv : env.Fits kinds)
    (hscope : env.Opens scope)
    (body : List Stmt) (h : allAgree env scope body)
    (hkinds : ∀ b ∈ bindingsAll scope body, kinds b.1 = b.2) :
    (afterAll env scope body).Fits kinds := by
  cases body with
  | nil => exact henv
  | cons st rest =>
    obtain ⟨hfirst, hrest⟩ := List.forall_mem_append.1 hkinds
    have hopens := hscope.mono (st.extends_after env scope)
    exact fits_afterAll (st.fits_after henv hscope h.1 hfirst) hopens rest h.2 hrest

theorem ElsePart.fits_after {env : Environment} {scope : Scope} (henv : env.Fits kinds)
    (hscope : env.Opens scope)
    (part : ElsePart) (h : part.Agrees env scope)
    (hkinds : ∀ b ∈ part.bindings scope, kinds b.1 = b.2) : (part.after env scope).Fits kinds := by
  cases part with
  | none => exact henv
  | body body => exact fits_afterAll henv hscope body h hkinds
  | elseIf condition body rest =>
    obtain ⟨hbody, hrest⟩ := List.forall_mem_append.1 hkinds
    exact rest.fits_after (fits_afterAll henv hscope body h.2.2.1 hbody)
      (hscope.mono (extends_afterAll env scope body)) h.2.2.2 hrest

end

end

end Pseudocode
