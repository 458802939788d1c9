import Pseudocode.Proofs.Lower.Control

/-!
What lowering a statement leaves alone.

Code for a statement goes into the function that is being made, into slots of the scope that the
statement belongs to, and into what is added to the module.  `Keeps` says that nothing else changes.
The function only grows, subroutines stay declared, and the slots of every other scope that has been
declared are as they were.  The last point is where subroutines come in: one that is declared inside
a body brings slots of its own into the storage, and since its name is new they are slots of a scope
that has not been declared before.

Every statement begins and ends in an open block.  That is what makes the function grow and not
change: an instruction is never added behind a terminator.
-/

namespace Pseudocode

theorem insert_cases {α β : Type} [Ord α] [Std.TransOrd α] [Std.LawfulEqOrd α]
    {map : Std.TreeMap α β} {key other : α}
    {value found : β} (h : (map.insert key value)[other]? = some found) :
    other = key ∧ found = value ∨ map[other]? = some found := by
  rw [Std.TreeMap.getElem?_insert] at h
  split at h
  · next heq =>
      exact Or.inl ⟨(Std.LawfulEqOrd.compare_eq_iff_eq.mp heq).symm, (Option.some.inj h).symm⟩
  · exact Or.inr h

theorem getElem?_insert_of_new {α β : Type} [Ord α] [Std.TransOrd α] [Std.LawfulEqOrd α]
    {map : Std.TreeMap α β}
    {key other : α} {found : β} (hnew : key ∉ map) (value : β) (h : map[other]? = some found) :
    (map.insert key value)[other]? = some found := by
  rw [Std.TreeMap.getElem?_insert, if_neg, h]
  rw [Std.LawfulEqOrd.compare_eq_iff_eq]
  rintro rfl
  exact hnew (Std.TreeMap.mem_iff_isSome_getElem?.mpr (Option.isSome_of_eq_some h))

namespace Lower

open Ir

variable {name : String}

/-- Is the scope the top level, or one of a subroutine that has been declared? -/
def Declared (s : State) : Scope → Prop
  | .top => True
  | .subroutine name => name ∈ s.subroutines

theorem Declared.mono {s s' : State} {scope : Scope} (h : Declared s scope)
    (hsub : ∀ name ∈ s.subroutines, name ∈ s'.subroutines) : Declared s' scope := by
  cases scope with
  | top => trivial
  | subroutine name => exact hsub name h

/-- `s'` is what lowering in a scope makes of `s`. -/
structure Keeps (scope : Scope) (s s' : State) : Prop where
  steps : s.function.Steps s'.function
  grows : s.function.Grows s'.function
  subroutines : ∀ (name : String) (sub : Subroutine), s.subroutines[name]? = some sub →
    s'.subroutines[name]? = some sub
  others : ∀ symbol : Symbol, symbol.scope ≠ scope → Declared s symbol.scope →
    s'.storage[symbol]? = s.storage[symbol]?
  routines : s'.routines = s.routines
  globals : s.module.globals.toList <+: s'.module.globals.toList
  functions : s.module.functions.toList <+: s'.module.functions.toList

namespace Keeps

variable {scope : Scope} {s s₁ s₂ s' : State}

theorem refl (s : State) : Keeps scope s s :=
  ⟨.refl, .refl _, fun _ _ h => h, fun _ _ _ => rfl, rfl, List.prefix_refl _, List.prefix_refl _⟩

theorem mem_subroutines (h : Keeps scope s s') : ∀ name ∈ s.subroutines, name ∈ s'.subroutines := by
  intro name hname
  rw [Std.TreeMap.mem_iff_isSome_getElem?] at hname ⊢
  obtain ⟨sub, hsub⟩ := Option.isSome_iff_exists.mp hname
  rw [h.subroutines name sub hsub]
  rfl

theorem trans (h₁ : Keeps scope s s₁) (h₂ : Keeps scope s₁ s') : Keeps scope s s' := by
  refine ⟨h₁.steps.trans h₂.steps, h₁.grows.trans h₂.grows, ?_, ?_, h₂.routines.trans h₁.routines,
    h₁.globals.trans h₂.globals, h₁.functions.trans h₂.functions⟩
  · intro name sub hsub
    exact h₂.subroutines name sub (h₁.subroutines name sub hsub)
  · intro symbol hscope hdeclared
    rw [h₂.others symbol hscope (hdeclared.mono h₁.mem_subroutines),
      h₁.others symbol hscope hdeclared]

/-- Moving on in the function and exchanging the slots of the scope. -/
theorem replace (h : Keeps scope s s₁) {g : FunctionDraft} {storage : Storage}
    (hsteps : s₁.function.Steps g) (hgrows : s.function.Grows g)
    (hstorage : ∀ symbol : Symbol, symbol.scope ≠ scope → Declared s symbol.scope →
      storage[symbol]? = s.storage[symbol]?) :
    Keeps scope s (s₁.moved g storage) :=
  ⟨h.steps.trans hsteps, hgrows, h.subroutines, hstorage, h.routines, h.globals, h.functions⟩

end Keeps

/-- A piece of code that begins and ends in an open block and keeps everything else. -/
def KeepsOpen (scope : Scope) (m : Lowering Unit) : Prop :=
  ∀ s s', s.function.Open → Runs m s () s' → Keeps scope s s' ∧ s'.function.Open

section

variable {scope : Scope} {s s' : State} {v : Value} {u : Unit}

/-! ### Slots -/

theorem Appends.keeps (h : Appends s s') (scope : Scope) (hopen : s.function.Open) :
    Keeps scope s s' ∧ s'.function.Open := by
  obtain ⟨is, his⟩ := h.function
  refine ⟨⟨?_, ?_, ?_, ?_, h.routines, h.globals, ?_⟩, ?_⟩
  · rw [his]
    exact FunctionDraft.Steps.refl.extend is
  · rw [his]
    exact FunctionDraft.grows_extend hopen is
  · intro name sub hsub
    rw [h.subroutines]
    exact hsub
  · intro symbol _ _
    rw [h.storage]
  · simp only [h.functions, List.prefix_refl]
  · rw [his]
    exact hopen.extend is

theorem keeps_reserved (scope : Scope) (hopen : s.function.Open) (symbol : Symbol) (ty : Ir.Ty) :
    Keeps scope s (s.reserved symbol ty) ∧ (s.reserved symbol ty).function.Open :=
  ⟨⟨FunctionDraft.Steps.refl.reserve (by simp) ty, FunctionDraft.grows_setup s.function _ _,
    fun _ _ h => h,
    fun _ _ _ => rfl, rfl, List.prefix_refl _, List.prefix_refl _⟩, hopen⟩

theorem keeps_withSlot (s : State) (name : String) (slot : Slot) :
    Keeps scope s (s.withSlot ⟨name, scope⟩ slot) := by
  refine ⟨.refl, .refl _, fun _ _ h => h, ?_, rfl, List.prefix_refl _, List.prefix_refl _⟩
  intro symbol hscope _
  show (s.storage.insert (⟨name, scope⟩ : Symbol) slot)[symbol]? = _
  rw [Std.TreeMap.getElem?_insert, if_neg]
  intro heq
  rw [Std.LawfulEqOrd.compare_eq_iff_eq] at heq
  exact hscope (by rw [← heq])

theorem keeps_storeFirst {value ptr : Value} (scope : Scope) (hopen : s.function.Open)
    (h : Runs (storeFirst value ptr) s u s') :
    Keeps scope s s' ∧ s'.function.Open := by
  obtain ⟨-, rfl⟩ := runs_storeFirst.1 h
  exact ⟨⟨FunctionDraft.Steps.refl.storeFirst value ptr, FunctionDraft.grows_setup s.function _ _,
    fun _ _ h => h,
    fun _ _ _ => rfl, rfl, List.prefix_refl _, List.prefix_refl _⟩, hopen⟩

/-! ### Code within a block -/

/-- Is it the kind of a slot for one value? -/
def IsScalar (kind : SlotKind) : Prop :=
  ∃ ty, kind = .scalar ty

/-- Code that stays in its block: instructions are added to it, and slots of these kinds are
reserved and noted. -/
inductive Straight (kinds : SlotKind → Prop) (scope : Scope) : State → State → Prop
  | appends {s s' : State} (h : Appends s s') : Straight kinds scope s s'
  | reserved (s : State) (name : String) (ty : Ir.Ty) :
    Straight kinds scope s (s.reserved ⟨name, scope⟩ ty)
  | first {s s' : State} {value ptr : Value} (h : Runs (storeFirst value ptr) s () s') :
    Straight kinds scope s s'
  | made {s : State} {name register : String} {ty : Ir.Ty} {slot : Slot}
    (haddress : slot.address = .register register ty)
      (hname : Draft.SlotOf name register) (hkind : kinds slot.kind) :
      Straight kinds scope s (s.withSlot ⟨name, scope⟩ slot)
  | resized {s : State} {name : String} {slot : Slot}
    (hslot : s.storage[(⟨name, scope⟩ : Symbol)]? = some slot)
      (length : Option Nat) : Straight kinds scope s (s.withSlot ⟨name, scope⟩ { slot with length })
  | trans {s s₁ s' : State} (h₁ : Straight kinds scope s s₁) (h₂ : Straight kinds scope s₁ s') :
    Straight kinds scope s s'

namespace Straight

variable {kinds : SlotKind → Prop}

theorem refl (s : State) : Straight kinds scope s s :=
  .appends (Appends.refl s)

theorem keeps (h : Straight kinds scope s s') (hopen : s.function.Open) : Keeps scope s s' ∧
    s'.function.Open := by
  induction h with
  | appends h => exact h.keeps scope hopen
  | reserved s name ty => exact keeps_reserved scope hopen _ ty
  | first h => exact keeps_storeFirst scope hopen h
  | made => exact ⟨keeps_withSlot _ _ _, hopen⟩
  | resized => exact ⟨keeps_withSlot _ _ _, hopen⟩
  | trans _ _ ih₁ ih₂ =>
    obtain ⟨k₁, o₁⟩ := ih₁ hopen
    obtain ⟨k₂, o₂⟩ := ih₂ o₁
    exact ⟨k₁.trans k₂, o₂⟩

/-- No block is created or entered, and no subroutine is declared or finished. -/
theorem same (h : Straight kinds scope s s') :
    (s'.function.current = s.function.current ∧ s'.function.blocks.size = s.function.blocks.size) ∧
      s'.subroutines = s.subroutines ∧ s'.module.functions = s.module.functions := by
  induction h with
  | appends h =>
    obtain ⟨is, his⟩ := h.function
    rw [his]
    exact ⟨⟨rfl, FunctionDraft.extend_size _ _⟩, h.subroutines, h.functions⟩
  | first h =>
    obtain ⟨-, rfl⟩ := runs_storeFirst.1 h
    exact ⟨⟨rfl, rfl⟩, rfl, rfl⟩
  | trans _ _ ih₁ ih₂ =>
    exact ⟨⟨ih₂.1.1.trans ih₁.1.1, ih₂.1.2.trans ih₁.1.2⟩, ih₂.2.1.trans ih₁.2.1,
      ih₂.2.2.trans ih₁.2.2⟩
  | _ => exact ⟨⟨rfl, rfl⟩, rfl, rfl⟩

end Straight

theorem Appends.straight (h : Appends s s') (scope : Scope) : Straight IsScalar scope s s' :=
  .appends h

theorem straight_scalarSlot {ty : Ty} (h : Runs (scalarSlot ⟨name, scope⟩ ty) s v s') :
    Straight IsScalar scope s s' := by
  rcases runs_scalarSlot h with ⟨slot, -, -, -, rfl⟩ | ⟨-, t, -, rfl, rfl⟩
  · exact .refl _
  · exact (Straight.reserved s name t).trans (.made rfl (Draft.slotOf_freshName _ _) ⟨ty, rfl⟩)

theorem straight_stringBuffer {length : Nat} (h : Runs (stringBuffer ⟨name, scope⟩ length) s v s') :
    Straight IsScalar scope s s' := by
  rcases runs_stringBuffer h with ⟨slot, -, -, -, hload⟩ |
    ⟨slot, old, size, s₁, s₂, s₃, s₄, hslot, -, hload, hsize, hrealloc, hstore, rfl⟩ |
    ⟨-, size, s₁, s₂, s₃, s₄, hfirst, hsize, hmalloc, hstore, rfl⟩
  · exact hload.appends.straight scope
  · have a := (hload.appends.trans hsize.appends).trans (hrealloc.appends.trans hstore.appends)
    exact (Straight.appends a).trans (.resized (by rw [a.storage]; exact hslot) _)
  · have a := hsize.appends.trans (hmalloc.appends.trans hstore.appends)
    exact ((Straight.reserved s name .bytes).trans (.first hfirst)).trans
      ((Straight.appends a).trans (.made rfl (Draft.slotOf_freshName _ _) ⟨.string, rfl⟩))

theorem straight_assign {a : Assignment} (h : Runs (assign scope a) s u s') :
    Straight IsScalar scope s s' := by
  cases runs_assign h with
  | string x shape htarget hty hsource hbuffer hsize hcopy =>
    have hcopied := hsize.appends.trans hcopy.appends
    exact (hsource.appends.straight scope).trans
      ((straight_stringBuffer hbuffer).trans (.appends hcopied))
  | scalar x shape htarget hty hvalue hslot hstore =>
    exact (hvalue.appends.straight scope).trans
      ((straight_scalarSlot hslot).trans (hstore.appends.straight scope))
  | element x index ty htarget hty hvalue haddress hstore =>
    have hplace := haddress.appends
    exact .appends (hvalue.appends.trans
      (hplace.trans hstore.appends))

theorem straight_declareArray {ty : Ty} {size : Expr}
    (h : Runs (declareArray scope ty name size) s u s') : Straight (· = .array ty) scope s s' := by
  obtain ⟨count, wide, memory, first, address, t, s₁, s₂, s₃, s₄, s₅, hcount, hwide, hmalloc, -,
    hcast, hslot, hstore⟩ := runs_declareArray h
  have a₄ := (hcount.appends.trans hwide.appends).trans (hmalloc.appends.trans hcast.appends)
  have a₆ := hstore.appends
  rcases hslot with ⟨slot, -, -, -, rfl⟩ | ⟨-, rfl, rfl⟩
  · exact .appends (a₄.trans a₆)
  · refine (Straight.appends a₄).trans
      (((Straight.reserved s₄ name (.ptr t)).trans ?_).trans (.appends a₆))
    exact .made rfl (Draft.slotOf_freshName _ _) rfl

theorem straight_storeParams {pairs : List (Param × Ir.Param)}
    (h : Runs (storeParams scope pairs) s u s') : Straight IsScalar scope s s' := by
  induction pairs generalizing s with
  | nil =>
    obtain rfl := runs_forM_nil.1 h
    exact .refl _
  | cons pair pairs ih =>
    obtain ⟨s₁, hone, hrest⟩ := runs_forM_cons.1 h
    obtain ⟨address, s₂, hslot, hstore⟩ := runs_bind.1 hone
    exact (straight_scalarSlot hslot).trans ((hstore.appends.straight scope).trans (ih hrest))

theorem keeps_scalarSlot {ty : Ty} (hopen : s.function.Open)
    (h : Runs (scalarSlot ⟨name, scope⟩ ty) s v s') : Keeps scope s s' ∧ s'.function.Open :=
  (straight_scalarSlot h).keeps hopen

theorem keeps_stringBuffer {length : Nat} (hopen : s.function.Open)
    (h : Runs (stringBuffer ⟨name, scope⟩ length) s v s') : Keeps scope s s' ∧ s'.function.Open :=
  (straight_stringBuffer h).keeps hopen

theorem keeps_assign {a : Assignment} (hopen : s.function.Open) (h : Runs (assign scope a) s u s') :
    Keeps scope s s' ∧ s'.function.Open :=
  (straight_assign h).keeps hopen

theorem keeps_storeParams {pairs : List (Param × Ir.Param)} :
    KeepsOpen scope (storeParams scope pairs) :=
  fun _ _ hopen h => (straight_storeParams h).keeps hopen

/-! ### Returning -/

theorem keeps_pure : KeepsOpen scope (pure ()) := by
  intro s s' hopen h
  obtain ⟨-, rfl⟩ := runs_pure.1 h
  exact ⟨Keeps.refl _, hopen⟩

theorem keeps_leaveWith {e : Expr} (hopen : s.function.Open) (h : Runs (leaveWith scope e) s u s') :
    Keeps scope s s' ∧ s'.function.Open := by
  obtain ⟨sub, value, s₁, -, hvalue, rfl⟩ := runs_leaveWith h
  obtain ⟨k₁, o₁⟩ := hvalue.appends.keeps scope hopen
  have hgrows := (FunctionDraft.grows_terminate o₁ (.ret (some value))).trans
    (FunctionDraft.grows_createBlock _ "after.return")
  refine ⟨k₁.trans
    ((Keeps.refl s₁).replace ((FunctionDraft.Steps.refl.terminate _).createBlock (by simp)
      |>.switchTo _)
    (hgrows.switchTo (Nat.le_refl _)) fun _ _ _ => rfl), ?_⟩
  have hnew := FunctionDraft.getElem?_createBlock (s₁.function.leave (some value)) "after.return"
  rw [FunctionDraft.leave, FunctionDraft.terminate_size] at hnew
  exact ⟨_, hnew, rfl⟩

/-! ### Conditionals and loops -/

/-- Where two paths meet, a slot that both have is as it was. -/
theorem getElem?_join_same {ours theirs : Storage} {symbol : Symbol}
    (h : ours[symbol]? = theirs[symbol]?) : (ours.join theirs)[symbol]? = ours[symbol]? := by
  rw [Storage.getElem?_join, ← h]
  cases ours[symbol]? with
  | none => rfl
  | some slot => simp [Slot.meet]

/-- A run of an arm of a conditional: the states after its condition, after its body and after what
follows, and what is kept on the way. -/
structure ArmRun (scope : Scope) (condition : Expr) (join? : Option Nat) (body : Lowering Unit)
    (rest? : Option (Nat → Lowering Unit)) (s s' : State) (truth : Value) (s₁ s₂ s₃ : State)
    (k : FunctionDraft.Fork) : Prop where
  fork : k = s₁.function.fork truth join? rest?.isSome
  condition : Runs (truthOf scope condition) s truth s₁
  opened : s₁.function.Open
  body : Runs body (s₁.moved (k.function.switchTo k.body) s₁.storage) () s₂
  ran : FunctionDraft.Fork.Ran s₁.function s₂.function truth join? rest?.isSome
  thenKeeps : Keeps scope s₁ s₂
  followed : ∀ rest, rest? = some rest → Runs (rest k.join) (s₁.otherwise s₂ k) () s₃
  followedKeeps : rest?.isSome → Keeps scope (s₁.otherwise s₂ k) s₃
  alone : rest? = none → s₃ = s₂.moved (s₂.function.fallTo k.join) s₁.storage
  restKeeps : Keeps scope s₁ s₃
  result : s' = s₃.moved (if join?.isNone then s₃.function.switchTo k.join else s₃.function)
    (s₃.storage.join s₂.storage)

theorem ArmRun.of_parts {condition : Expr} {join? : Option Nat} {body : Lowering Unit}
    {rest? : Option (Nat → Lowering Unit)} {truth : Value} {s₁ s₂ s₃ : State}
    {k : FunctionDraft.Fork} (hbody : KeepsOpen scope body)
    (hrest : ∀ rest, rest? = some rest → ∀ join s s', s.function.Open → Runs (rest join) s () s' →
      Keeps scope s s')
    (hopen : s.function.Open) (hk : k = s₁.function.fork truth join? rest?.isSome)
    (htruth : Runs (truthOf scope condition) s truth s₁)
    (hrun : Runs body (s₁.moved (k.function.switchTo k.body) s₁.storage) () s₂)
    (hfollowed : ∀ rest, rest? = some rest → Runs (rest k.join) (s₁.otherwise s₂ k) () s₃)
    (halone : rest? = none → s₃ = s₂.moved (s₂.function.fallTo k.join) s₁.storage)
    (hresult : s' = s₃.moved (if join?.isNone then s₃.function.switchTo k.join else s₃.function)
      (s₃.storage.join s₂.storage)) :
    ArmRun scope condition join? body rest? s s' truth s₁ s₂ s₃ k := by
  subst hk
  obtain ⟨-, o₁⟩ := htruth.appends.keeps scope hopen
  have hstart : Keeps scope s₁ (s₁.moved _ s₁.storage) := (Keeps.refl s₁).replace
    ((FunctionDraft.steps_fork s₁.function truth join? rest?.isSome).switchTo
      s₁.function.blocks.size)
    ((FunctionDraft.grows_fork o₁ truth join? rest?.isSome).switchTo (Nat.le_refl _))
    fun _ _ _ => rfl
  obtain ⟨k₂, o₂⟩ := hbody _ _ (FunctionDraft.open_body o₁ truth join? rest?.isSome) hrun
  have hran : FunctionDraft.Fork.Ran s₁.function s₂.function truth join? rest?.isSome :=
    ⟨o₁, k₂.grows, o₂⟩
  have hthen := hstart.trans k₂
  -- What follows the body begins with the storage from before it, so the body leaves no trace
  -- there.
  have hbefore : ∀ symbol : Symbol, symbol.scope ≠ scope → Declared s₁ symbol.scope →
      s₁.storage[symbol]? = s₁.storage[symbol]? := fun _ _ _ => rfl
  have hgrows := FunctionDraft.grows_fallTo hran (s₁.function.fork truth join? rest?.isSome).join
  have hsteps :=
    FunctionDraft.steps_fallTo s₂.function (s₁.function.fork truth join? rest?.isSome).join
  cases rest? with
  | none =>
    refine ⟨rfl, htruth, o₁, hrun, hran, hthen, hfollowed, by simp, halone, ?_, hresult⟩
    rw [halone rfl]
    exact hthen.replace hsteps hgrows hbefore
  | some rest =>
    have k₂' : Keeps scope s₁ (s₁.otherwise s₂ (s₁.function.fork truth join? true)) :=
      hthen.replace (hsteps.switchTo _) (hgrows.switchTo (Nat.le_add_right _ 1)) hbefore
    have k₃ := hrest rest rfl _ _ _ (FunctionDraft.open_otherwise hran _) (hfollowed rest rfl)
    exact ⟨rfl, htruth, o₁, hrun, hran, hthen, hfollowed, fun _ => k₃, halone,
      k₂'.trans k₃, hresult⟩

theorem arm_run {condition : Expr} {join? : Option Nat} {body : Lowering Unit}
    {rest? : Option (Nat → Lowering Unit)} (hbody : KeepsOpen scope body)
    (hrest : ∀ rest, rest? = some rest → ∀ join s s', s.function.Open → Runs (rest join) s () s' →
      Keeps scope s s')
    (hopen : s.function.Open) (h : Runs (arm scope condition join? body rest?) s u s') :
    ∃ truth s₁ s₂ s₃ k, ArmRun scope condition join? body rest? s s' truth s₁ s₂ s₃ k := by
  obtain ⟨truth, s₁, s₂, s₃, k, hk, htruth, hrun, hfollowed, halone, hresult⟩ := runs_arm.1 h
  exact ⟨truth, s₁, s₂, s₃, k,
    ArmRun.of_parts hbody hrest hopen hk htruth hrun hfollowed halone hresult⟩

namespace ArmRun

variable {condition : Expr} {join? : Option Nat} {body : Lowering Unit}
  {rest? : Option (Nat → Lowering Unit)} {truth : Value} {s₁ s₂ s₃ : State} {k : FunctionDraft.Fork}

section

variable (h : ArmRun scope condition join? body rest? s s' truth s₁ s₂ s₃ k)

include h

theorem open_then :
    (s₁.moved (k.function.switchTo k.body) s₁.storage).function.Open := by
  rw [h.fork]
  exact FunctionDraft.open_body h.opened _ _ _

theorem open_otherwise (hsome : rest?.isSome = true) : (s₁.otherwise s₂ k).function.Open := by
  have hran := h.ran
  rw [hsome] at hran
  have hk : k = s₁.function.fork truth join? true := by rw [h.fork, hsome]
  rw [hk]
  exact FunctionDraft.open_otherwise hran _

theorem extends_then :
    k.function.Extends s₂.function := by
  have hgrows := h.ran.grows
  rw [← h.fork] at hgrows
  exact (FunctionDraft.extends_switchTo _ k.body).trans hgrows.toExtends

end

/-- The new block where the conditional goes on has not been touched. -/
theorem join_empty (h : ArmRun scope condition none body rest? s s' truth s₁ s₂ s₃ k) :
    ∃ label, s₃.function.blocks[k.join]? = some { label } := by
  obtain rfl := h.fork
  cases rest? with
  | none =>
    rw [h.alone rfl]
    exact FunctionDraft.join_alone h.ran _
  | some rest => exact FunctionDraft.join_followed h.ran (h.followedKeeps rfl).grows

section

variable (h : ArmRun scope condition join? body rest? s s' truth s₁ s₂ s₃ k)

include h

theorem keeps (hopen : s.function.Open) :
    Keeps scope s s' := by
  obtain ⟨k₁, -⟩ := h.condition.appends.keeps scope hopen
  have k₃ := h.restKeeps
  have hjoined : ∀ symbol : Symbol, symbol.scope ≠ scope → Declared s₁ symbol.scope →
      (s₃.storage.join s₂.storage)[symbol]? = s₁.storage[symbol]? := by
    intro symbol hscope hdeclared
    have hsame : s₃.storage[symbol]? = s₂.storage[symbol]? := by
      rw [k₃.others symbol hscope hdeclared, h.thenKeeps.others symbol hscope hdeclared]
    rw [getElem?_join_same hsame, k₃.others symbol hscope hdeclared]
  rw [h.result]
  cases join? with
  | none =>
    have hnew : s₁.function.blocks.size ≤ k.join := by
      rw [h.fork]
      cases rest?.isSome
      · exact Nat.le_add_right _ 1
      · exact Nat.le_add_right _ 2
    exact k₁.trans
      (k₃.replace (FunctionDraft.Steps.refl.switchTo _) (k₃.grows.switchTo hnew) hjoined)
  | some join => exact k₁.trans (k₃.replace .refl k₃.grows hjoined)

/-- What the body leaves in the function and among the subroutines is still there at the end. -/
theorem after_body :
    s₂.function.prologue.toList <+: s₃.function.prologue.toList ∧
      ∀ name ∈ s₂.subroutines, name ∈ s₃.subroutines := by
  have hfall := (FunctionDraft.steps_fallTo s₂.function k.join).prologue
  cases rest? with
  | none =>
    rw [h.alone rfl]
    exact ⟨hfall, fun _ hname => hname⟩
  | some rest =>
    have hkeeps := h.followedKeeps rfl
    exact ⟨hfall.trans hkeeps.steps.prologue, hkeeps.mem_subroutines⟩

/-- The function in which the body has been left only grows. -/
theorem extends_fallTo :
    (s₂.function.fallTo k.join).Extends s₃.function := by
  cases rest? with
  | none =>
    rw [h.alone rfl]
    exact FunctionDraft.Extends.refl _
  | some rest =>
    exact (FunctionDraft.extends_switchTo _ k.otherwise).trans (h.followedKeeps rfl).grows.toExtends

end

/-- An arm that creates the block where its arms go on ends there. -/
theorem finish (h : ArmRun scope condition none body rest? s s' truth s₁ s₂ s₃ k) :
    s'.function.Open := by
  obtain ⟨label, hlabel⟩ := h.join_empty
  rw [h.result]
  exact ⟨_, hlabel, rfl⟩

end ArmRun

/-- A run of a loop: the states after its body, after its step and after its condition. -/
structure LoopRun (scope : Scope) (kind : String) (body step : Lowering Unit) (condition : Expr)
    (s s' : State) (truth : Value) (s₁ s₂ s₃ : State) : Prop where
  opened : s.function.Open
  body : Runs body (s.moved (s.function.enter kind) (s.storage.forgetLengths scope)) () s₁
  bodyKeeps : Keeps scope (s.moved (s.function.enter kind) (s.storage.forgetLengths scope)) s₁
  bodyOpen : s₁.function.Open
  step : Runs step s₁ () s₂
  stepKeeps : Keeps scope s₁ s₂
  stepOpen : s₂.function.Open
  condition : Runs (truthOf scope condition) s₂ truth s₃
  result : s' = s₃.moved ((s₃.function.condBranch truth s.function.blocks.size
    (s.function.blocks.size + 1)).switchTo (s.function.blocks.size + 1)) s₃.storage

theorem loop_run {kind : String} {body step : Lowering Unit} {condition : Expr}
    (hbody : KeepsOpen scope body) (hstep : KeepsOpen scope step) (hopen : s.function.Open)
    (h : Runs (loop scope kind body step condition) s u s') :
    ∃ truth s₁ s₂ s₃, LoopRun scope kind body step condition s s' truth s₁ s₂ s₃ := by
  obtain ⟨truth, s₁, s₂, s₃, hrun, hrunStep, htruth, hresult⟩ := runs_loop.1 h
  have hstart : (s.moved (s.function.enter kind) (s.storage.forgetLengths scope)).function.Open :=
    FunctionDraft.open_enter hopen kind
  obtain ⟨k₁, o₁⟩ := hbody _ _ hstart hrun
  obtain ⟨k₂, o₂⟩ := hstep _ _ o₁ hrunStep
  exact ⟨truth, s₁, s₂, s₃, hopen, hrun, k₁, o₁, hrunStep, k₂, o₂, htruth, hresult⟩

namespace LoopRun

variable {kind : String} {body step : Lowering Unit} {condition : Expr} {truth : Value}
  {s₁ s₂ s₃ : State}

variable (h : LoopRun scope kind body step condition s s' truth s₁ s₂ s₃)

include h

theorem open_body :
    (s.moved (s.function.enter kind) (s.storage.forgetLengths scope)).function.Open :=
  FunctionDraft.open_enter h.opened kind

theorem inside :
    Keeps scope (s.moved (s.function.enter kind) (s.storage.forgetLengths scope)) s₃ ∧
    s₃.function.Open := by
  obtain ⟨k₃, o₃⟩ := h.condition.appends.keeps scope h.stepOpen
  exact ⟨h.bodyKeeps.trans (h.stepKeeps.trans k₃), o₃⟩

/-- The exit is not where the body ends. -/
theorem exit_ne :
    s.function.blocks.size + 1 ≠ s₃.function.current := by
  rcases h.inside.1.grows.place with hsame | hnew
  · have : s₃.function.current = s.function.blocks.size := hsame
    omega
  · have hsize : (s.function.enter kind).blocks.size = s.function.blocks.size + 2 :=
      (FunctionDraft.terminate_size _ _).trans (FunctionDraft.created_size _ _)
    have : (s.function.enter kind).blocks.size ≤ s₃.function.current := hnew
    omega

theorem exit_empty :
    ∃ label, s₃.function.blocks[s.function.blocks.size + 1]? = some { label } :=
  FunctionDraft.exit_empty h.opened h.inside.1.grows

theorem keeps : Keeps scope s s' := by
  have hforget : ∀ symbol : Symbol, symbol.scope ≠ scope → Declared s symbol.scope →
      (s.storage.forgetLengths scope)[symbol]? = s.storage[symbol]? := by
    intro symbol hscope _
    rw [Storage.getElem?_forgetLengths]
    simp [hscope]
  have k₀ := (Keeps.refl s).replace (FunctionDraft.steps_enter s.function kind)
    (FunctionDraft.grows_enter h.opened kind) hforget
  obtain ⟨hinside, o₃⟩ := h.inside
  have hall := k₀.trans hinside
  have hgrows := hall.grows.trans (FunctionDraft.grows_terminate o₃
    (.condBr truth (s₃.function.label s.function.blocks.size)
      (s₃.function.label (s.function.blocks.size + 1))))
  rw [h.result]
  exact hall.replace ((FunctionDraft.Steps.refl.terminate _).switchTo _)
    (hgrows.switchTo (Nat.le_add_right _ 1)) hall.others

theorem finish : s'.function.Open := by
  obtain ⟨label, hlabel⟩ := h.exit_empty
  rw [h.result]
  exact ⟨{ label }, (FunctionDraft.getElem?_terminate_ne _ _ h.exit_ne).trans hlabel, rfl⟩

end LoopRun

theorem keeps_loop {kind : String} {body step : Lowering Unit} {condition : Expr}
    (hbody : KeepsOpen scope body)
    (hstep : KeepsOpen scope step) : KeepsOpen scope (loop scope kind body step condition) := by
  intro s s' hopen h
  obtain ⟨_, _, _, _, hloop⟩ := loop_run hbody hstep hopen h
  exact ⟨hloop.keeps, hloop.finish⟩

/-! ### Subroutines -/

theorem open_start (name : String) (params : List Ir.Param) (ret : Ir.Ty) :
    (FunctionDraft.start name params ret).Open :=
  ⟨_, FunctionDraft.getElem?_createBlock _ "entry", rfl⟩

/-- A subroutine leaves the function alone that it is declared in, and brings slots of a new
scope. -/
theorem keeps_subroutine (scope : Scope) {params : List Param} {ty : Ty} {body : Lowering Unit}
    (hbody : KeepsOpen (.subroutine name) body) (h : Runs (subroutine name params ty body) s u s') :
    Keeps scope s s' ∧ s'.function = s.function := by
  obtain ⟨-, hnew, irParams, ret, s₁, s₂, f, -, -, hstore, hrun, -, rfl⟩ := runs_subroutine h
  obtain ⟨k₁, o₁⟩ := keeps_storeParams _ _ (open_start name irParams ret) hstore
  obtain ⟨k₂, -⟩ := hbody _ _ o₁ hrun
  have hall := k₁.trans k₂
  refine ⟨⟨.refl, .refl _, ?_, ?_, hall.routines, hall.globals, ?_⟩, rfl⟩
  · exact fun other sub hsub => hall.subroutines other sub (getElem?_insert_of_new hnew _ hsub)
  · intro symbol _ hdeclared
    refine hall.others symbol ?_ ?_
    · intro heq
      rw [heq] at hdeclared
      exact hnew hdeclared
    · refine hdeclared.mono fun other hother => ?_
      show other ∈ s.subroutines.insert name _
      exact Std.TreeMap.mem_insert.mpr (Or.inr hother)
  · show s.module.functions.toList <+: (s₂.module.functions.push f.build).toList
    rw [Array.toList_push]
    exact hall.functions.trans (List.prefix_append _ _)

end

/-! ### Statements -/

/-- What is to be shown of the code of statements, of blocks and of what follows an arm: of each
from what is known of the code inside. -/
structure Walk (S : Scope → Stmt → State → State → Prop)
    (B : Scope → List Stmt → State → State → Prop)
    (E : Scope → ElsePart → Nat → State → State → Prop) : Prop where
  logged : ∀ {scope st s s'} (event : Event), S scope st { s with log := s.log.push event } s' →
    S scope st s s'
  expr : ∀ {scope e s o s'}, s.function.Open → Runs (operand scope e) s o s' →
    S scope (.expr e) s s'
  assign : ∀ {scope a s s'}, s.function.Open → Runs (assign scope a) s () s' →
    S scope (.assign a) s s'
  array : ∀ {scope ty name size s s'}, s.function.Open →
    Runs (declareArray scope ty name size) s () s' → S scope (.array ty name size) s s'
  output : ∀ {scope e s s'}, s.function.Open → Runs (output scope e) s () s' →
    S scope (.output e) s s'
  input : ∀ {scope target ty s s'}, s.function.Open → Runs (input scope target) s () s' →
    S scope (.input target ty) s s'
  ifThen : ∀ {scope condition body rest s s' truth s₁ s₂ s₃ k}, s.function.Open →
    ArmRun scope condition none (block scope body) (elsePart? scope rest) s s' truth s₁ s₂ s₃ k →
    B scope body (s₁.moved (k.function.switchTo k.body) s₁.storage) s₂ →
    ((elsePart? scope rest).isSome → E scope rest k.join (s₁.otherwise s₂ k) s₃) →
    S scope (.ifThen condition body rest) s s'
  whileLoop : ∀ {scope condition body s s' truth s₁ s₃},
    LoopRun scope "while" (block scope body) (pure ()) condition s s' truth s₁ s₁ s₃ →
    B scope body (s.moved (s.function.enter "while") (s.storage.forgetLengths scope)) s₁ →
    S scope (.whileLoop condition body) s s'
  forLoop : ∀ {scope init bound test body s s₀ s' truth s₁ s₂ s₃}, s.function.Open →
    Runs (Lower.assign scope init) s () s₀ → Runs (counterTest init bound) s₀ test s₀ →
    LoopRun scope "for" (block scope body) (Lower.assign scope (counterStep init)) test s₀ s' truth
    s₁ s₂ s₃ →
    B scope body (s₀.moved (s₀.function.enter "for") (s₀.storage.forgetLengths scope)) s₁ →
    S scope (.forLoop init bound body) s s'
  subroutine : ∀ {scope name params body ty s s'}, s.function.Open →
    Runs (subroutine name params ty (block (.subroutine name) body)) s () s' →
    (∀ s s', s.function.Open → Runs (block (.subroutine name) body) s () s' →
      B (.subroutine name) body s s') →
    S scope (.subroutine name params body ty) s s'
  ret : ∀ {scope e s s'}, s.function.Open → Runs (leaveWith scope e) s () s' → S scope (.ret e) s s'
  nil : ∀ {scope s}, B scope [] s s
  cons : ∀ {scope st rest s s₁ s'}, s.function.Open → Runs (statement scope st) s () s₁ →
    Keeps scope s s₁ →
    s₁.function.Open → Runs (block scope rest) s₁ () s' → Keeps scope s₁ s' → S scope st s s₁ →
    B scope rest s₁ s' → B scope (st :: rest) s s'
  body : ∀ {scope body join s s₁}, s.function.Open → Runs (block scope body) s () s₁ →
    Keeps scope s s₁ → s₁.function.Open → B scope body s s₁ →
    E scope (.body body) join s (s₁.moved (s₁.function.fallTo join) s₁.storage)
  elseIf : ∀ {scope condition body rest join s s' truth s₁ s₂ s₃ k}, s.function.Open →
    k.join = join →
    ArmRun scope condition (some join) (block scope body) (elsePart? scope rest) s s' truth s₁
    s₂ s₃ k → B scope body (s₁.moved (k.function.switchTo k.body) s₁.storage) s₂ →
    ((elsePart? scope rest).isSome → E scope rest k.join (s₁.otherwise s₂ k) s₃) →
    E scope (.elseIf condition body rest) join s s'

namespace Walk

variable {S : Scope → Stmt → State → State → Prop} {B : Scope → List Stmt → State → State → Prop}
  {E : Scope → ElsePart → Nat → State → State → Prop}

mutual

/-- **A statement keeps what is not its own**, and what is shown of all code is so of its code. -/
theorem statement (w : Walk S B E) (scope : Scope) (st : Stmt) :
    ∀ s s', s.function.Open → Runs (statement scope st) s () s' →
      (Keeps scope s s' ∧ s'.function.Open) ∧ S scope st s s' := by
  intro s s' hopen h
  rw [statement.eq_def] at h
  obtain ⟨_, s₀, htell, hrun⟩ := runs_bind.1 h
  have hopen₀ : s₀.function.Open := by rw [runs_modify.1 htell]; exact hopen
  suffices hall : (Keeps scope s₀ s' ∧ s'.function.Open) ∧ S scope st s₀ s' by
    obtain rfl := runs_modify.1 htell
    refine ⟨⟨Keeps.trans ?_ hall.1.1, hall.1.2⟩, w.logged _ hall.2⟩
    exact ⟨.refl, .refl _, fun _ _ h => h, fun _ _ _ => rfl, rfl, List.prefix_refl _,
      List.prefix_refl _⟩
  cases st with
  | expr e =>
    obtain ⟨_, hoperand, -⟩ := runs_bind_pure.1 hrun
    exact ⟨hoperand.appends.keeps scope hopen₀, w.expr hopen₀ hoperand⟩
  | assign a => exact ⟨keeps_assign hopen₀ hrun, w.assign hopen₀ hrun⟩
  | array ty name size => exact ⟨(straight_declareArray hrun).keeps hopen₀, w.array hopen₀ hrun⟩
  | output e => exact ⟨hrun.appends.keeps scope hopen₀, w.output hopen₀ hrun⟩
  | input target ty => exact ⟨hrun.appends.keeps scope hopen₀, w.input hopen₀ hrun⟩
  | ifThen condition body rest =>
    obtain ⟨_, _, _, _, _, harm⟩ := arm_run (fun _ _ ho h => (block w scope body _ _ ho h).1)
      (fun _ hrest _ _ _ ho h => (elsePart w scope rest _ hrest _ _ _ ho h).1) hopen₀ hrun
    exact ⟨⟨harm.keeps hopen₀, harm.finish⟩,
      w.ifThen hopen₀ harm (block w scope body _ _ harm.open_then harm.body).2
      fun hsome => (elsePart w scope rest _ (Option.eq_some_of_isSome hsome) _ _ _
        (harm.open_otherwise hsome) (harm.followed _ (Option.eq_some_of_isSome hsome))).2⟩
  | whileLoop condition body =>
    obtain ⟨_, s₁, s₂, _, hloop⟩ :=
      loop_run (fun _ _ ho h => (block w scope body _ _ ho h).1) keeps_pure hopen₀ hrun
    obtain ⟨-, rfl⟩ := runs_pure.1 hloop.step
    exact ⟨⟨hloop.keeps, hloop.finish⟩,
      w.whileLoop hloop (block w scope body _ _ hloop.open_body hloop.body).2⟩
  | forLoop init bound body =>
    obtain ⟨_, s₁, hinit, hrun₁⟩ := runs_bind.1 hrun
    obtain ⟨test, s₂, htest, hrunLoop⟩ := runs_bind.1 hrun₁
    obtain ⟨-, rfl⟩ := runs_counterTest htest
    obtain ⟨k₁, o₁⟩ := keeps_assign hopen₀ hinit
    obtain ⟨_, _, _, _, hloop⟩ := loop_run (fun _ _ ho h => (block w scope body _ _ ho h).1)
      (fun _ _ => keeps_assign) o₁ hrunLoop
    exact ⟨⟨k₁.trans hloop.keeps, hloop.finish⟩, w.forLoop hopen₀ hinit htest hloop
      (block w scope body _ _ hloop.open_body hloop.body).2⟩
  | subroutine name params body ty =>
    obtain ⟨k, hfunction⟩ :=
      keeps_subroutine scope (fun _ _ ho h => (block w (.subroutine name) body _ _ ho h).1) hrun
    refine ⟨⟨k, ?_⟩, w.subroutine hopen₀ hrun fun s s' ho h => (block w _ body s s' ho h).2⟩
    rw [hfunction]
    exact hopen₀
  | ret e => exact ⟨keeps_leaveWith hopen₀ hrun, w.ret hopen₀ hrun⟩

theorem block (w : Walk S B E) (scope : Scope) (body : List Stmt) :
    ∀ s s', s.function.Open → Runs (block scope body) s () s' →
      (Keeps scope s s' ∧ s'.function.Open) ∧ B scope body s s' := by
  intro s s' hopen h
  cases body with
  | nil =>
    rw [Lower.block] at h
    obtain ⟨-, rfl⟩ := runs_pure.1 h
    exact ⟨⟨Keeps.refl _, hopen⟩, w.nil⟩
  | cons st rest =>
    rw [Lower.block] at h
    obtain ⟨_, s₁, hone, hrest⟩ := runs_bind.1 h
    obtain ⟨⟨k₁, o₁⟩, h₁⟩ := statement w scope st s s₁ hopen hone
    obtain ⟨⟨k₂, o₂⟩, h₂⟩ := block w scope rest s₁ s' o₁ hrest
    exact ⟨⟨k₁.trans k₂, o₂⟩, w.cons hopen hone k₁ o₁ hrest k₂ h₁ h₂⟩

theorem elsePart (w : Walk S B E) (scope : Scope) (part : ElsePart) :
    ∀ rest, elsePart? scope part = some rest → ∀ join s s', s.function.Open →
    Runs (rest join) s () s' →
      Keeps scope s s' ∧ E scope part join s s' := by
  intro rest hpart join s s' hopen h
  cases part with
  | none => simp [elsePart?] at hpart
  | body body =>
    rw [elsePart?, Option.some.injEq] at hpart
    rw [← hpart] at h
    obtain ⟨_, s₁, hblock, hfall⟩ := runs_bind.1 h
    obtain ⟨⟨k₁, o₁⟩, h₁⟩ := block w scope body s s₁ hopen hblock
    obtain rfl := runs_fallTo.1 hfall
    refine ⟨k₁.trans ((Keeps.refl s₁).replace (FunctionDraft.steps_fallTo _ _) ?_ fun _ _ _ => rfl),
      w.body hopen hblock k₁ o₁ h₁⟩
    rw [FunctionDraft.fallTo_of_open o₁]
    exact FunctionDraft.grows_terminate o₁ _
  | elseIf condition body rest' =>
    rw [elsePart?, Option.some.injEq] at hpart
    rw [← hpart] at h
    obtain ⟨_, _, _, _, k, harm⟩ := arm_run (fun _ _ ho h => (block w scope body _ _ ho h).1)
      (fun _ hrest _ _ _ ho h => (elsePart w scope rest' _ hrest _ _ _ ho h).1) hopen h
    have hk : k.join = join := by rw [harm.fork]; rfl
    exact ⟨harm.keeps hopen,
      w.elseIf hopen hk harm (block w scope body _ _ harm.open_then harm.body).2
      fun hsome => (elsePart w scope rest' _ (Option.eq_some_of_isSome hsome) _ _ _
        (harm.open_otherwise hsome) (harm.followed _ (Option.eq_some_of_isSome hsome))).2⟩

end

end Walk

theorem keeps_walk : Walk (fun _ _ _ _ => True) (fun _ _ _ _ => True) fun _ _ _ _ _ => True := by
  constructor <;> intros <;> trivial

theorem statement_keeps (scope : Scope) (st : Stmt) : KeepsOpen scope (statement scope st) :=
  fun s s' hopen h => (keeps_walk.statement scope st s s' hopen h).1

theorem block_keeps (scope : Scope) (body : List Stmt) : KeepsOpen scope (block scope body) :=
  fun s s' hopen h => (keeps_walk.block scope body s s' hopen h).1

theorem elsePart_keeps (scope : Scope) (part : ElsePart) :
    ∀ rest, elsePart? scope part = some rest → ∀ join s s', s.function.Open →
    Runs (rest join) s () s' →
      Keeps scope s s' :=
  fun rest hpart join s s' hopen
    h => (keeps_walk.elsePart scope part rest hpart join s s' hopen h).1

/-! ### Statements one after another -/

theorem block_append (scope : Scope) (p q : List Stmt) :
    block scope (p ++ q) = block scope p >>= fun _ => block scope q := by
  induction p with
  | nil => simp [block]
  | cons st p ih => simp [block, ih]

end Lower

end Pseudocode
