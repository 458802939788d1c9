import Pseudocode.Proofs.Regular.Expressions
import Pseudocode.Proofs.Scoping.Resolved

/-!
Code for regular programs.

A statement takes a state that houses the names of the environment before it to one that houses
those of the environment behind it (`Sends`).  Where an arm of a conditional has been lowered, the
slots from before it are brought back although the environment keeps the names that the arm has
bound; a regular program has bound them before.  A condition of a loop is read before the body and
lowered behind it, where there are more names (`Yields.weaken`).

Thus code generation for a regular program fails only for the name of a subroutine, for the number
of arguments of a call, or for a string that is too long.
-/

namespace Pseudocode

open Lower

variable {x name : String} {slot : Slot} {ty : Ty} {e condition limit : Expr} {params : List Param}
  {irParams : List Ir.Param} {init : Assignment} {before : List Symbol}

namespace Lower

open Ir

section

variable {α β : Type} {kinds : Symbol → SlotKind} {env env' env₁ env₂ : Environment} {scope : Scope}

/-! ### Larger and smaller environments -/

theorem Houses.Frame.weaken {s : State} (h : Houses.Frame env₁ scope s) (hext : env.Extends env₁) :
    Houses.Frame env scope s :=
  ⟨h.routines, h.fits, fun f hf => h.declared f (hext f hf), h.here⟩

theorem Houses.Slots.weaken {storage : Storage} (h : Houses.Slots kinds env₁ scope storage)
    (hnames : ∀ x, env.contains ⟨x, scope⟩ → env₁.contains ⟨x, scope⟩) :
    Houses.Slots kinds env scope storage :=
  ⟨h.kinds, fun x hx => h.bound x (hnames x hx)⟩

theorem State.Houses.weaken {s : State} (h : s.Houses kinds env₁ scope) (hext : env.Extends env₁)
    (hnames : ∀ x, env.contains ⟨x, scope⟩ → env₁.contains ⟨x, scope⟩) : s.Houses kinds env scope :=
  ⟨h.frame.weaken hext, h.slots.weaken hnames⟩

theorem Yields.weaken {m : Lowering α} {φ : α → Prop}
    (h : Yields kinds env scope m φ) [OnlyAppends m]
    (hext : env.Extends env₁) (hnames : ∀ x, env.contains ⟨x, scope⟩ → env₁.contains ⟨x, scope⟩) :
    Yields kinds env₁ scope m φ := by
  intro s hs
  obtain ⟨hruns, hfails⟩ := h s (hs.weaken hext hnames)
  exact ⟨fun a s' hrun => ⟨(hruns a s' hrun).1, hs.appends hrun.appends⟩, hfails⟩

/-- The computation gives what satisfies `φ`, and leads from a state that houses the names of one
environment to one that houses those of another. -/
def Sends (kinds : Symbol → SlotKind) (scope : Scope) (env env' : Environment) (m : Lowering α)
    (φ : α → Prop) : Prop :=
  Triple (State.Houses kinds env scope) m (fun a s => φ a ∧
    s.Houses kinds env' scope) LowerError.Expected

namespace Sends

variable {m : Lowering α} {f : α → Lowering β} {φ χ : α → Prop} {ψ : β → Prop}

theorem bind (hm : Sends kinds scope env env₁ m φ)
    (hf : ∀ a, φ a → Sends kinds scope env₁ env₂ (f a) ψ) :
    Sends kinds scope env env₂ (m >>= f) ψ :=
  Triple.bind hm fun a s hs => hf a hs.1 s hs.2

theorem after (hm : Yields kinds env scope m φ)
    (hf : ∀ a, φ a → Sends kinds scope env env' (f a) ψ) : Sends kinds scope env env' (m >>= f) ψ :=
  bind (show Sends kinds scope env env m φ from hm) hf

theorem followed (hm : Sends kinds scope env env' m φ)
    (hf : ∀ a, φ a → Yields kinds env' scope (f a) ψ) : Sends kinds scope env env' (m >>= f) ψ :=
  bind hm hf

theorem mono (hm : Sends kinds scope env env₁ m φ) (h : ∀ a, φ a → χ a) (hext : env₂.Extends env₁)
    (hnames : ∀ x, env₂.contains ⟨x, scope⟩ → env₁.contains ⟨x, scope⟩) :
    Sends kinds scope env env₂ m χ :=
  Triple.mono hm (fun _ hs => hs) (fun a _ hs => ⟨h a hs.1, hs.2.weaken hext hnames⟩) fun _ he => he

theorem get {f : State → Lowering β} {Q : β → State → Prop}
    (hf : ∀ t, t.Houses kinds env scope → Triple (· = t) (f t) Q LowerError.Expected) :
    Triple (State.Houses kinds env scope) (get >>= f) Q LowerError.Expected := by
  refine Triple.of_state fun t ht => ?_
  have hget : Triple (· = t) (MonadState.get : Lowering State) (fun a s => a = t ∧
    s = t) LowerError.Expected :=
    Triple.get fun _ hs => ⟨hs, hs⟩
  exact hget.bind fun a s hs => hs.1 ▸ hf t ht s hs.2

theorem at_state {t : State} (h : Sends kinds scope env env' m φ) (ht : t.Houses kinds env scope) :
    Triple (· = t) m (fun a s => φ a ∧ s.Houses kinds env' scope) LowerError.Expected :=
  Triple.mono h (fun _ hs => hs ▸ ht) (fun _ _ hs => hs) fun _ he => he

end Sends

end

section

variable {α : Type} {kinds : Symbol → SlotKind} {env env₁ env₂ : Environment} {scope : Scope}

/-! ### Blocks -/

namespace Yields

theorem of_steady {m : Lowering α}
    (h : Triple (State.Houses kinds env scope) m (fun _ => State.Houses kinds env scope)
    LowerError.Expected) : Yields kinds env scope m fun _ => True :=
  Triple.mono h (fun _ hs => hs) (fun _ _ hs => ⟨trivial, hs⟩) fun _ he => he

theorem reserve (name : String) (ty : Ir.Ty) :
    Yields kinds env scope (reserve name ty) fun v => v.ty = .ptr ty :=
  Triple.modifyGet fun _ hs => ⟨rfl, hs.of_eq rfl rfl rfl rfl⟩

theorem storeFirst {value ptr : Value} (h : ptr.ty = .ptr value.ty) :
    Yields kinds env scope (storeFirst value ptr) fun _ => True := by
  intro s hs
  refine ⟨fun u s' hrun => ?_,
    fun e he => absurd he (not_fails_of_runs (a := ()) (runs_storeFirst.2 ⟨h, rfl⟩))⟩
  obtain ⟨-, rfl⟩ := runs_storeFirst.1 hrun
  exact ⟨trivial, hs.of_eq rfl rfl rfl rfl⟩

theorem tell (event : Event) : Yields kinds env scope (tell event) fun _ => True :=
  Triple.modify fun _ hs => ⟨trivial, hs.of_eq rfl rfl rfl rfl⟩

end Yields

/-! ### Storing values -/

/-- The slot is of the kind that the name has. -/
def SlotServes (kind : SlotKind) (slot : Slot) : Prop :=
  slot.kind = kind ∧ ∃ ty, kindTy? kind = some ty ∧ slot.address.ty = .ptr ty

namespace State.Houses

variable {s : State}

/-- A name that has a slot may as well be bound. -/
theorem rebound (h : s.Houses kinds env scope) (hx : (⟨x, scope⟩ : Symbol) ∈ s.storage)
    (shape : Shape) : s.Houses kinds (env.bind ⟨x, scope⟩ shape) scope := by
  refine ⟨⟨h.frame.routines, h.frame.fits, h.frame.declared, h.frame.here⟩, h.slots.kinds,
    fun y hy => ?_⟩
  rw [Environment.contains_bind, Bool.or_eq_true, beq_iff_eq] at hy
  rcases hy with heq | hold
  · rwa [← heq]
  · exact h.slots.bound y hold

theorem withSlot (h : s.Houses kinds env scope) (hslot : SlotServes (kinds ⟨x, scope⟩) slot)
    (shape : Shape) :
    State.Houses kinds (env.bind ⟨x, scope⟩ shape) scope
    { s with storage := s.storage.insert ⟨x, scope⟩ slot } := by
  have hfresh :
    State.Houses kinds env scope { s with storage := s.storage.insert ⟨x, scope⟩ slot } := by
    refine ⟨h.frame.of_eq rfl rfl rfl, fun symbol found hfound => ?_, fun y hy => ?_⟩
    · have hinsert : (s.storage.insert (⟨x, scope⟩ : Symbol) slot)[symbol]? = some found := hfound
      rw [Std.TreeMap.getElem?_insert] at hinsert
      split at hinsert
      · next heq =>
          rw [Std.LawfulEqOrd.compare_eq_iff_eq] at heq
          rw [← heq, ← Option.some.inj hinsert]
          exact hslot
      · exact h.slots.kinds symbol found hinsert
    · exact Std.TreeMap.mem_insert.2 (.inr (h.slots.bound y hy))
  exact hfresh.rebound Std.TreeMap.mem_insert_self shape

end State.Houses

namespace Sends

theorem setSlot (hslot : SlotServes (kinds ⟨x, scope⟩) slot) (shape : Shape) :
    Sends kinds scope env (env.bind ⟨x, scope⟩ shape) (setSlot ⟨x, scope⟩ slot) fun _ => True :=
  Triple.modify fun _ hs => ⟨trivial, hs.withSlot hslot shape⟩

theorem reuse {t : State} {m : Lowering α} {φ : α → Prop} {shape : Shape}
    (ht : t.Houses kinds env scope) (hslot : t.storage[(⟨x, scope⟩ : Symbol)]? = some slot)
    (hm : Yields kinds (env.bind ⟨x, scope⟩ shape) scope m φ) :
    Triple (· = t) m (fun a s => φ a ∧ s.Houses kinds (env.bind ⟨x, scope⟩ shape) scope)
    LowerError.Expected := by
  have hmem : (⟨x, scope⟩ : Symbol) ∈ t.storage := by
    rw [Std.TreeMap.mem_iff_isSome_getElem?, hslot]
    rfl
  exact Triple.mono hm (fun _ hs => hs ▸ ht.rebound hmem shape) (fun _ _ hs => hs) fun _ he => he

theorem scalarSlot (hkind : kinds ⟨x, scope⟩ = .scalar ty) (hty : ty.isResolved) (shape : Shape) :
    Sends kinds scope env (env.bind ⟨x, scope⟩ shape) (scalarSlot ⟨x, scope⟩ ty)
      fun v => ∃ t, irTy? ty = some t ∧ v.ty = .ptr t := by
  have hfresh : Sends kinds scope env (env.bind ⟨x, scope⟩ shape) (scalarSlot.fresh ⟨x, scope⟩ ty)
      fun v => ∃ t, irTy? ty = some t ∧ v.ty = .ptr t := by
    refine after (.irTy hty) fun t ht => after (.reserve x t) fun address haddress => ?_
    refine followed (setSlot ?_ shape) fun _ _ => .pure ⟨t, ht, haddress⟩
    rw [hkind]
    exact ⟨rfl, t, ht, haddress⟩
  refine get fun t ht => ?_
  split
  · next slot hslot =>
      obtain ⟨-, t', ht', haddress⟩ := ht.slots.kinds _ slot hslot
      rw [hkind] at ht'
      split
      · exact reuse ht hslot (.pure ⟨t', ht', haddress⟩)
      · exact hfresh.at_state ht
  · exact hfresh.at_state ht

theorem stringBuffer (hkind : kinds ⟨x, scope⟩ = .scalar .string) (length : Nat) (shape : Shape) :
    Sends kinds scope env (env.bind ⟨x, scope⟩ shape) (stringBuffer ⟨x, scope⟩ length)
    fun v => v.ty = .bytes := by
  have hbytes : kindTy? (.scalar .string) = some .bytes := rfl
  have hfresh :
    Sends kinds scope env (env.bind ⟨x, scope⟩ shape) (stringBuffer.fresh ⟨x, scope⟩ length)
      fun v => v.ty = .bytes := by
    refine after (.reserve x .bytes) fun address haddress => after (.storeFirst haddress)
      fun _ _ => ?_
    refine after (.byteCount length) fun size _ => after (.malloc size) fun buffer hbuffer => ?_
    refine after (.store (by rw [haddress, hbuffer])) fun _ _ => followed (setSlot ?_ shape)
      fun _ _ => .pure hbuffer
    rw [hkind]
    exact ⟨rfl, .bytes, hbytes, haddress⟩
  refine get fun t ht => ?_
  split
  · next slot hslot =>
      obtain ⟨hslotKind, ty, hty, haddress⟩ := ht.slots.kinds _ slot hslot
      rw [hkind, hbytes, Option.some.injEq] at hty
      subst hty
      split
      · split
        · exact reuse ht hslot (.load haddress)
        · refine at_state (after (.load haddress) fun old _ => after (.byteCount length)
            fun size _ => ?_) ht
          refine after (.realloc old size) fun resized hresized => ?_
          refine after (.store (by rw [haddress, hresized])) fun _ _ => ?_
          have hserves : SlotServes (kinds ⟨x, scope⟩) { slot with length := some length } :=
            ⟨hslotKind, .bytes, by rw [hkind, hbytes], haddress⟩
          exact followed (setSlot hserves shape) fun _ _ => .pure hresized
      · exact hfresh.at_state ht
  · exact hfresh.at_state ht

theorem assign (henv : env.Fits kinds) {a : Assignment} (h : a.Agrees env scope)
    (hkinds : ∀ b ∈ a.bindings scope, kinds b.1 = b.2)
    (huses : ∀ u ∈ a.uses scope, (kinds u.1).isArray = u.2) :
    Sends kinds scope env (a.after env scope) (assign scope a) fun _ => True := by
  obtain ⟨hvalue, hplace⟩ := h
  obtain ⟨hvalueUses, hplaceUses⟩ := List.forall_mem_append.1 huses
  unfold Lower.assign Assignment.after
  unfold Assignment.bindings at hkinds
  cases htarget : a.target with
  | var name shape =>
    rw [htarget] at hplace hkinds
    obtain ⟨hty, rfl, -⟩ := hplace
    have hkind : kinds ⟨name, scope⟩ = .scalar a.value.ty := hkinds _ (List.mem_singleton_self _)
    dsimp only
    by_cases hstring : a.value.ty = .string
    · rw [if_pos (show a.value.shape.ty = .string from hstring)]
      rw [hstring] at hkind
      refine after (.valueOf henv hvalue (.inr ⟨hstring, rfl⟩) hvalueUses) fun source _ => ?_
      exact followed (stringBuffer hkind _ _) fun buffer _ =>
        (Yields.byteCount _).bind fun size _ => .memcpy buffer source size
    · rw [if_neg (show ¬ a.value.shape.ty = .string from hstring)]
      refine after (.valueOf henv hvalue (Serves.refl hty) hvalueUses) fun value hvalueTy => ?_
      refine followed (scalarSlot hkind hty _) fun address haddress => ?_
      obtain ⟨t, ht, haddress⟩ := haddress
      refine .store ?_
      rw [haddress, Option.some.inj (ht.symm.trans hvalueTy)]
  | element name index ty =>
    rw [htarget] at hplace hplaceUses
    obtain ⟨hbound, hindex, hindexTy, hvalueTy, rfl, -⟩ := hplace
    obtain ⟨hname, hindexUses⟩ := List.forall_mem_cons.1 hplaceUses
    have hkind := kinds_eq_array hname
    have hnumber := henv.arrays _ _ hbound hkind
    refine (Yields.elementTy hbound hkind).bind fun ty hty => ?_
    rw [hty]
    refine (Yields.valueOf henv hvalue (.inl ⟨hvalueTy, hnumber⟩) hvalueUses).bind
      fun value hvalueIr => ?_
    have hpart := Yields.operand henv index hindex (Ty.isResolved_of_isNumeric hindexTy) hindexUses
    refine (Yields.elementAddress hbound hkind hpart hindexTy).bind fun address haddress => ?_
    obtain ⟨t, haddress, ht⟩ := haddress
    refine .store ?_
    rw [haddress, Option.some.inj (ht.symm.trans hvalueIr)]

theorem declareArray (henv : env.Fits kinds) {size : Expr} (hsize : size.Agrees env scope)
    (hsizeTy : size.ty.isNumeric) (hty : ty.isNumeric) (hkind : kinds ⟨name, scope⟩ = .array ty)
    (huses : ∀ u ∈ size.uses scope, (kinds u.1).isArray = u.2) (shape : Shape) :
    Sends kinds scope env (env.bind ⟨name, scope⟩ shape) (declareArray scope ty name size)
    fun _ => True := by
  refine after (.valueOf henv hsize (.inl ⟨hsizeTy, rfl⟩) huses) fun count _ => after (.cast _ _ _)
    fun wide _ => ?_
  refine after (.malloc wide) fun memory _ => after (.irTy (Ty.isResolved_of_isNumeric hty))
    fun element helement => ?_
  refine after (.cast _ _ _) fun first hfirst => ?_
  have hpointer : kindTy? (.array ty) = some (.ptr element) := by simp [kindTy?, helement]
  have hfresh : ∀ f : Value → Lowering Unit, (∀ v, v.ty = .ptr (.ptr element) →
      Yields kinds (env.bind ⟨name, scope⟩ shape) scope (f v) fun _ => True) →
      Sends kinds scope env (env.bind ⟨name, scope⟩ shape) (do
        let address ← reserve name (.ptr element)
        Lower.setSlot ⟨name, scope⟩ { address, kind := .array ty }
        f address) fun _ => True := by
    intro f hf
    refine after (.reserve name _) fun address haddress => followed (setSlot ?_ shape)
      fun _ _ => hf address haddress
    rw [hkind]
    exact ⟨rfl, _, hpointer, haddress⟩
  have hstore : ∀ v : Value, v.ty = .ptr (.ptr element) →
      Yields kinds (env.bind ⟨name, scope⟩ shape) scope (store first v) fun _ => True :=
    fun v hv => .store (by rw [hv, hfirst])
  refine get fun t ht => ?_
  split
  · next slot hslot =>
      obtain ⟨-, found, hfound, haddress⟩ := ht.slots.kinds _ slot hslot
      rw [hkind, hpointer, Option.some.injEq] at hfound
      subst hfound
      split
      · exact reuse ht hslot (hstore _ haddress)
      · exact (hfresh _ hstore).at_state ht
  · exact (hfresh _ hstore).at_state ht

end Sends

/-! ### Printing and reading -/

namespace Yields

theorem output (henv : env.Fits kinds) (h : e.Agrees env scope) (hty : e.ty.isResolved)
    (huses : ∀ u ∈ e.uses scope, (kinds u.1).isArray = u.2) :
    Yields kinds env scope (output scope e) fun _ => True := by
  refine (valueOf henv h (Serves.refl hty) huses).bind fun value _ => (format hty).bind
    fun form _ => ?_
  refine (printf _).bind fun _ _ => get fun s hs => ?_
  rw [hs.frame.routines]
  exact (firstByte rfl).bind fun newline _ => printf _

theorem inputPlace (henv : env.Fits kinds) {target : Target} (h : target.Agrees env scope)
    (huses : ∀ u ∈ target.uses scope, (kinds u.1).isArray = u.2) :
    Yields kinds env scope (inputPlace scope target) fun place => place.2.isResolved := by
  cases target with
  | var name shape =>
    obtain ⟨hbound, rfl⟩ := h
    have hkind := kinds_eq_scalar (huses _ (List.mem_singleton_self _))
    rw [← henv.types _ hbound] at hkind
    have hty := Ty.isResolved_iff.2 (henv.proper.shapes _ hbound).determined
    generalize (env.shape ⟨name, scope⟩).ty = ty at hkind hty
    refine (slotOf hbound).bind fun slot hslot => ?_
    obtain ⟨hslotKind, t, -, haddress⟩ := hslot
    rw [hkind] at hslotKind
    cases ty with
    | string =>
      simp only [hslotKind]
      exact (load haddress).bind fun _ _ => pure rfl
    | undetermined => simp [Ty.isResolved] at hty
    | _ =>
      simp only [hslotKind]
      exact pure rfl
  | element name index ty =>
    obtain ⟨hbound, hindex, hindexTy, -⟩ := h
    obtain ⟨hname, hindexUses⟩ := List.forall_mem_cons.1 huses
    have hkind := kinds_eq_array hname
    have hnumber := henv.arrays _ _ hbound hkind
    have hpart := operand henv index hindex (Ty.isResolved_of_isNumeric hindexTy) hindexUses
    refine (elementTy hbound hkind).bind fun found hfound =>
      (elementAddress hbound hkind hpart hindexTy).bind fun address _ => pure ?_
    rw [hfound]
    exact Ty.isResolved_of_isNumeric hnumber

theorem input (henv : env.Fits kinds) {target : Target} (h : target.Agrees env scope)
    (huses : ∀ u ∈ target.uses scope, (kinds u.1).isArray = u.2) :
    Yields kinds env scope (input scope target) fun _ => True :=
  (inputPlace henv h huses).bind fun _ hplace => (format hplace).bind fun _ _ => scanf _

end Yields

/-! ### Conditionals and loops -/

theorem Houses.Slots.forget {storage : Storage} (h : Houses.Slots kinds env scope storage)
    (here : Scope) : Houses.Slots kinds env scope (storage.forgetLengths here) := by
  refine ⟨fun symbol slot hslot => ?_, fun x hx => mem_forgetLengths.2 (h.bound x hx)⟩
  rw [Storage.getElem?_forgetLengths] at hslot
  obtain ⟨old, hold, rfl⟩ := Option.map_eq_some_iff.1 hslot
  split
  · exact h.kinds symbol old hold
  · exact h.kinds symbol old hold

/-- Where two paths meet, the names have slots that have one on either path. -/
theorem Houses.Slots.join {ours theirs : Storage} (hours : Houses.Slots kinds env₁ scope ours)
    (htheirs : Houses.Slots kinds env₂ scope theirs)
    (hnames : ∀ x, env.contains ⟨x, scope⟩ → env₁.contains ⟨x, scope⟩ ∨ env₂.contains ⟨x, scope⟩) :
    Houses.Slots kinds env scope (ours.join theirs) := by
  refine ⟨fun symbol slot hslot => ?_, fun x hx => mem_join.2 ?_⟩
  · rw [Storage.getElem?_join] at hslot
    cases hfound : ours[symbol]? with
    | none =>
      rw [hfound] at hslot
      obtain ⟨old, hold, rfl⟩ := Option.map_eq_some_iff.1 hslot
      exact htheirs.kinds symbol old hold
    | some old =>
      rw [hfound] at hslot
      have hkept := hours.kinds symbol old hfound
      rw [← Option.some.inj hslot]
      unfold Slot.meet
      split
      · split
        · exact hkept
        · exact hkept
      · exact hkept
  · exact (hnames x hx).imp (hours.bound x) (htheirs.bound x)

namespace Sends

variable {body : Lowering Unit}

theorem forget_value {m : Lowering α} (h : Sends kinds scope env env₁ m fun _ => True) :
    Triple (State.Houses kinds env scope) m (fun _ => State.Houses kinds env₁ scope)
    LowerError.Expected :=
  Triple.mono h (fun _ hs => hs) (fun _ _ hs => hs.2) fun _ he => he

theorem of_triple {m : Lowering Unit} (h : Triple (State.Houses kinds env scope) m
    (fun _ => State.Houses kinds env₁ scope) LowerError.Expected) :
    Sends kinds scope env env₁ m fun _ => True :=
  Triple.mono h (fun _ hs => hs) (fun _ _ hs => ⟨trivial, hs⟩) fun _ he => he

/-- An arm of a conditional.  If something follows it, it binds no name that was not bound
before. -/
theorem arm {join? : Option Nat} {rest? : Option (Nat → Lowering Unit)}
    (hcondition : Yields kinds env scope (truthOf scope condition) fun _ => True)
    (hbody : Sends kinds scope env env₁ body fun _ => True)
    (hrest : ∀ rest, rest? = some rest → (∀ x, env₁.contains ⟨x, scope⟩ → env.contains ⟨x, scope⟩) ∧
      ∀ join, Sends kinds scope env₁ env₂ (rest join) fun _ => True) (hnone : rest? = none →
      env₂ = env₁) :
    Sends kinds scope env env₂ (arm scope condition join? body rest?) fun _ => True := by
  refine of_triple ?_
  cases rest? with
  | some rest =>
    obtain ⟨hback, hrest⟩ := hrest rest rfl
    refine Triple.arm (K := State.Houses kinds env₁ scope) (L := State.Houses kinds env₂ scope)
      (forget_value hcondition) hbody.forget_value (fun s t hs ht => ?_) (fun next hnext join => ?_)
      (fun hnone => nomatch hnone) fun s t hs ht => ?_
    · exact ⟨ht.frame.of_eq rfl rfl rfl, hs.slots.weaken hback⟩
    · exact Option.some.inj hnext ▸ (hrest join).forget_value
    · exact ⟨ht.frame.of_eq rfl rfl rfl, ht.slots.join hs.slots fun _ => .inl⟩
  | none =>
    obtain rfl := hnone rfl
    let K := fun s : State => Houses.Slots kinds env scope s.storage ∧ Houses.Frame env₂ scope s
    have hsteady : Steady K := ⟨fun hs hname => ⟨hs.1, hs.2.of_eq rfl rfl hname⟩⟩
    refine Triple.arm (K := K) (L := K) (forget_value hcondition) hbody.forget_value
      (fun s t hs ht => ?_) (fun next hnext => nomatch hnext) (fun _ _ hs => hs) fun s t hs ht => ?_
    · exact ⟨hs.slots, ht.frame.of_eq rfl rfl rfl⟩
    · exact ⟨ht.2.of_eq rfl rfl rfl, ht.1.join hs.slots fun _ => .inr⟩

/-- A loop.  Its condition is lowered behind its body and its step. -/
theorem loop {kind : String} {step : Lowering Unit}
    (hbody : Sends kinds scope env env₁ body fun _ => True)
    (hstep : Sends kinds scope env₁ env₁ step fun _ => True)
    (hcondition : Yields kinds env₁ scope (truthOf scope condition) fun _ => True) :
    Sends kinds scope env env₁ (loop scope kind body step condition) fun _ => True := by
  refine of_triple (Triple.loop (fun s hs => ?_) hbody.forget_value hstep.forget_value
    (forget_value hcondition))
  exact ⟨hs.frame.of_eq rfl rfl rfl, hs.slots.forget scope⟩

/-! ### Subroutines -/

theorem storeParams (h : ParamsFit params irParams) (hparams : ∀ p ∈ params, p.ty.isNumeric)
    (hkinds : ∀ b ∈ Param.bindings scope params, kinds b.1 = b.2) (env : Environment) :
    Sends kinds scope env (params.foldl (fun env p => env.bind ⟨p.name, scope⟩ ⟨p.ty, 0⟩) env)
      (storeParams scope (params.zip irParams)) fun _ => True := by
  induction h generalizing env with
  | nil => exact Triple.pure fun _ hs => ⟨trivial, hs⟩
  | @cons p q params irParams hpq _ ih =>
    obtain ⟨hp, hparams⟩ := List.forall_mem_cons.1 hparams
    obtain ⟨hkind, hkinds⟩ := List.forall_mem_cons.1 hkinds
    rw [Lower.storeParams, List.zip_cons_cons, List.forM_cons, List.foldl_cons]
    have hone : Sends kinds scope env (env.bind ⟨p.name, scope⟩ ⟨p.ty, 0⟩) (do
        store q.value (← Lower.scalarSlot ⟨p.name, scope⟩ p.ty)) fun _ => True := by
      refine followed (scalarSlot hkind (Ty.isResolved_of_isNumeric hp) _)
        fun address haddress => .store ?_
      obtain ⟨t, ht, haddress⟩ := haddress
      rw [haddress, Option.some.inj (ht.symm.trans hpq.2)]
      rfl
    exact hone.bind fun _ _ => ih hparams hkinds _

end Sends

/-- Where the body of a new subroutine begins, its scope has no names. -/
theorem State.Houses.within {s : State} (h : s.Houses kinds env .top) (henv : env.Fits kinds)
    (hnew : name ∉ s.subroutines) (hty : ty.isNumeric) (hfit : ParamsFit params irParams)
    (hparams : ∀ p ∈ params, p.ty.isNumeric) {ret : Ir.Ty} (hret : irTy? ty = some ret) :
    (s.within name irParams ret ⟨⟨ret, irParams.map Ir.Param.ty, false⟩, params.map Param.ty,
      ty⟩).Houses kinds (env.register name ty) (.subroutine name) := by
  refine ⟨⟨h.frame.routines, fun f sub hsub => ?_, fun f hf => ?_,
    fun f hf => Scope.subroutine.inj hf⟩, h.slots.kinds, fun x hx => ?_⟩
  · have hinsert : (s.subroutines.insert name _)[f]? = some sub := hsub
    rw [Std.TreeMap.getElem?_insert] at hinsert
    split at hinsert
    · rw [← Option.some.inj hinsert]
      exact ⟨⟨hret, hfit.types, rfl⟩, hty, List.forall_mem_map.2 hparams⟩
    · exact h.frame.fits f sub hinsert
  · show f ∈ s.subroutines.insert name _
    rw [Environment.returnTy?_register] at hf
    rw [Std.TreeMap.mem_insert, Std.LawfulEqOrd.compare_eq_iff_eq]
    split at hf
    · next heq => exact .inl heq
    · exact .inr (h.frame.declared f hf)
  · exact absurd (h.frame.declared name (henv.scopes _ hx name rfl)) hnew

namespace Sends

theorem subroutine (henv : env.Fits kinds) {body : List Stmt} (hty : ty.isNumeric)
    (hparams : ∀ p ∈ params, p.ty.isNumeric)
    (hkinds : ∀ b ∈ Param.bindings (.subroutine name) params, kinds b.1 = b.2)
    (hbody : Sends kinds (.subroutine name) (env.enter name params ty) env₁
      (block (.subroutine name) body)
      fun _ => True) (htop : ∀ x, env₁.contains ⟨x, .top⟩ → env.contains ⟨x, .top⟩) :
    Sends kinds .top env env₁ (subroutine name params ty (block (.subroutine name) body))
    fun _ => True := by
  intro s hs
  constructor
  · intro u s' hrun
    obtain ⟨hkeeps, -⟩ :=
      keeps_subroutine (.subroutine name) (block_keeps (.subroutine name) body) hrun
    obtain ⟨-, hnew, irParams, ret, s₁, s₂, f, hfit, hret, hstore, hrunBody, -, rfl⟩ :=
      runs_subroutine hrun
    have hs₁ := (storeParams hfit hparams hkinds _ _ (hs.within henv hnew hty hfit hparams hret)).1
      () s₁ hstore
    have hs₂ := ((hbody s₁ hs₁.2).1 () s₂ hrunBody).2
    refine ⟨trivial, ⟨hs₂.frame.routines, hs₂.frame.fits, hs₂.frame.declared, by simp⟩,
      hs₂.slots.kinds, fun x hx => ?_⟩
    have hold := hs.slots.bound x (htop x hx)
    rw [Std.TreeMap.mem_iff_isSome_getElem?] at hold ⊢
    rwa [hkeeps.others ⟨x, .top⟩ (by simp) trivial]
  · intro e he
    rcases fails_subroutine he with
      rfl | rfl | ⟨hnone, rfl⟩ | ⟨hnew, irParams, ret, t, hfit, hret, rfl, hfails⟩
    · trivial
    · trivial
    · -- Every type that stands in the head of the subroutine is a type of numbers.
      rcases hnone with hnone | ⟨p, hp, hnone⟩
      · cases ty <;> simp_all [irTy?, Ty.isNumeric]
      · have hnumber := hparams p hp
        cases hpty : p.ty <;> simp_all [irTy?, Ty.isNumeric]
    have hstore := storeParams hfit hparams hkinds _ _ (hs.within henv hnew hty hfit hparams hret)
    rcases hfails with hfails | ⟨s₁, hrunStore, hfails⟩
    · exact hstore.2 e hfails
    have hs₁ := (hstore.1 () s₁ hrunStore).2
    rcases hfails with hfails | ⟨s₂, -, hfails⟩
    · exact (hbody s₁ hs₁).2 e hfails
    · rw [(fails_defaultValue hfails).1] at hty
      contradiction

end Sends

theorem Yields.leaveWith (henv : env.Fits kinds) (hopens : env.Opens scope) (hscope : scope ≠ .top)
    (h : e.Agrees env scope) (hty : e.ty.isNumeric)
    (huses : ∀ u ∈ e.uses scope, (kinds u.1).isArray = u.2) :
    Yields kinds env scope (leaveWith scope e) fun _ => True := by
  refine get fun s hs => ?_
  have hsub : ∃ sub, s.subroutines[s.function.name]? = some sub := by
    cases hwhere : scope with
    | top => exact absurd hwhere hscope
    | subroutine f =>
      have hmem := hs.frame.declared f (hopens f hwhere)
      rw [Std.TreeMap.mem_iff_isSome_getElem?] at hmem
      rw [hs.frame.here f hwhere]
      exact Option.isSome_iff_exists.1 hmem
  obtain ⟨sub, hsub⟩ := hsub
  obtain ⟨-, hnumber, -⟩ := hs.frame.fits _ sub hsub
  simp only [hsub]
  exact (valueOf henv h (.inl ⟨hty, hnumber⟩) huses).bind fun value _ => of_steady
    (Triple.bind (.onFunction fun _ => rfl)
    fun _ => Triple.bind (.createBlock _) fun block => .switchTo block)

/-! ### Loops that count -/

/-- What a loop counts is a number, and is bound. -/
theorem counted {shape : Shape} (htarget : init.target = .var name shape)
    (h : init.Agrees env scope) (hkinds : ∀ b ∈ init.bindings scope, kinds b.1 = b.2) :
    kinds ⟨init.target.name, scope⟩ = .scalar init.ty ∧
    (init.after env scope).contains ⟨init.target.name, scope⟩ := by
  obtain ⟨-, hplace⟩ := h
  unfold Assignment.bindings at hkinds
  unfold Assignment.after
  rw [htarget] at hplace hkinds ⊢
  obtain ⟨-, rfl, hty⟩ := hplace
  rw [hty]
  exact ⟨hkinds _ (List.mem_singleton_self _), by simp [Target.name]⟩

/-- Adding one to a number that is counted is an assignment that agrees with every environment that
binds it. -/
theorem counterStep_agrees (henv : env.Fits kinds) (hty : init.ty.isNumeric)
    (hkind : kinds ⟨init.target.name, scope⟩ = .scalar init.ty)
    (hbound : env.contains ⟨init.target.name, scope⟩) : (counterStep init).Agrees env scope := by
  have hshape := henv.shape_number hbound hkind hty
  have hcombined : Shape.combined? .add ⟨init.ty, 0⟩ ⟨.int, 0⟩ = some ⟨init.ty, 0⟩ := by
    cases hinit : init.ty <;> simp_all [Shape.combined?, Ty.promote?, Ty.isNumeric]
  exact ⟨⟨hshape.symm, rfl, hcombined⟩, Ty.isResolved_of_isNumeric hty, rfl, rfl⟩

/-- Comparing a number that is counted with a limit agrees with every environment that binds it. -/
theorem counterTest_agrees (henv : env.Fits kinds) (hinit : init.ty.isNumeric)
    (hkind : kinds ⟨init.target.name, scope⟩ = .scalar init.ty)
    (hbound : env.contains ⟨init.target.name, scope⟩) (hlimit : limit.Agrees env scope)
    (hty : Ty.promote? init.ty limit.ty = some ty) :
    (Expr.binary .le (.var init.target.name ⟨init.ty, 0⟩) limit ⟨ty, 0⟩).Agrees env scope := by
  have hcombined : Shape.combined? .le ⟨init.ty, 0⟩ limit.shape = some ⟨ty, 0⟩ := by
    unfold Shape.combined?
    rw [if_neg fun hstrings => (Ty.isNumeric_of_promote? hty).1 hstrings.1]
    show (Ty.promote? init.ty limit.ty).map _ = _
    rw [hty]
    rfl
  exact ⟨(henv.shape_number hbound hkind hinit).symm, hlimit, hcombined⟩

theorem counterTest_runs (hinit : init.ty.isNumeric) (hlimit : limit.ty.isNumeric) :
    Yields kinds env scope (counterTest init limit) fun test =>
      ∃ ty, Ty.promote? init.ty limit.ty = some ty ∧
        test = .binary .le (.var init.target.name ⟨init.ty, 0⟩) limit ⟨ty, 0⟩ := by
  have hty : ∃ ty, Ty.promote? init.ty limit.ty = some ty := by
    cases hi : init.ty <;> cases hl : limit.ty <;> simp_all [Ty.promote?, Ty.isNumeric]
  obtain ⟨ty, hty⟩ := hty
  unfold counterTest
  simp only [hty]
  exact .pure ⟨ty, rfl, rfl⟩

end

/-! ### Statements -/

section

variable {kinds : Symbol → SlotKind}

theorem contains_of_armKnown {env : Environment} {scope : Scope} {body : List Stmt}
    {rest : ElsePart}
    (hbefore : ∀ symbol ∈ before, env.contains symbol) (h : armKnown scope before body rest = true)
    (hrest : rest.isNone = false) (x : String)
    (hx : (afterAll env scope body).contains ⟨x, scope⟩) : env.contains ⟨x, scope⟩ := by
  rw [armKnown, hrest, Bool.false_or, List.all_eq_true] at h
  rcases (contains_afterAll env scope body _).1 hx with hnew | hold
  · obtain ⟨b, hb, heq⟩ := List.mem_map.1 hnew
    have hknown := of_decide_eq_true (h b hb)
    rw [heq] at hknown
    exact hbefore _ (hknown.resolve_left fun hne => hne rfl)
  · exact hold

/-- What is bound before a piece of a program and what the piece binds is bound behind it. -/
theorem known_after {env env₁ : Environment} {bindings : List (Symbol × SlotKind)}
    (hbefore : ∀ symbol ∈ before, env.contains symbol)
    (hafter : ∀ symbol, env₁.contains symbol ↔ symbol ∈ bindings.map Prod.fst ∨
      env.contains symbol) :
    ∀ symbol ∈ bindings.map Prod.fst ++ before, env₁.contains symbol :=
  List.forall_mem_append.2
    ⟨fun symbol h => (hafter symbol).2 (.inl h),
      fun symbol h => (hafter symbol).2 (.inr (hbefore symbol h))⟩

theorem after_of_elsePart? {env : Environment} {scope : Scope} {part : ElsePart}
    (h : elsePart? scope part = none) : part.after env scope = env := by
  cases part with
  | none => rfl
  | body body => simp [elsePart?] at h
  | elseIf condition body rest => simp [elsePart?] at h

theorem isNone_of_elsePart? {scope : Scope} {part : ElsePart} {rest : Nat → Lowering Unit}
    (h : elsePart? scope part = some rest) : part.isNone = false := by
  cases part with
  | none => simp [elsePart?] at h
  | body body => rfl
  | elseIf condition body rest => rfl

namespace Sends

mutual

/-- **The code for a statement of a regular program fails only as it may**, and houses the names
that the statement binds. -/
theorem statement {env : Environment} {scope : Scope} {before : List Symbol} (henv : env.Fits kinds)
    (hopens : env.Opens scope) (hbefore : ∀ symbol ∈ before, env.contains symbol) (st : Stmt)
    (h : st.Agrees env scope)
    (hkinds : ∀ b ∈ st.bindings scope, kinds b.1 = b.2)
    (huses : ∀ u ∈ st.uses scope, (kinds u.1).isArray = u.2)
    (hknown : st.armsKnown scope before) (hreturns : st.returnsNumbers) :
    Sends kinds scope env (st.after env scope) (statement scope st) fun _ => True := by
  rw [statement.eq_def]
  refine after (.tell _) fun _ _ => ?_
  cases st with
  | expr e => exact (Yields.operand henv e h.1 h.2 huses).bind fun _ _ => .pure trivial
  | assign a => exact assign henv h hkinds huses
  | array ty name size =>
    exact declareArray henv h.1 h.2.1 h.2.2 (hkinds _ (List.mem_singleton_self _)) huses _
  | output e => exact Yields.output henv h.1 h.2 huses
  | input target ty => exact Yields.input henv h.1 huses
  | ifThen condition body rest =>
    obtain ⟨hcondition, hnumeric, hbody, hrest⟩ := h
    obtain ⟨hbodyKinds, hrestKinds⟩ := List.forall_mem_append.1 hkinds
    obtain ⟨hfirst, hrestUses⟩ := List.forall_mem_append.1 huses
    obtain ⟨hconditionUses, hbodyUses⟩ := List.forall_mem_append.1 hfirst
    simp only [Stmt.armsKnown, Stmt.returnsNumbers, Bool.and_eq_true] at hknown hreturns
    have hbody' := block henv hopens hbefore body hbody hbodyKinds hbodyUses hknown.1.2 hreturns.1
    have henv' := fits_afterAll henv hopens body hbody hbodyKinds
    have hopens' := hopens.mono (extends_afterAll env scope body)
    refine arm (.truthOf henv hcondition hnumeric hconditionUses) hbody' (fun next hnext => ?_)
      fun hnone => ?_
    · refine ⟨contains_of_armKnown hbefore hknown.1.1 (isNone_of_elsePart? hnext), fun join => ?_⟩
      exact elsePart henv' hopens' (known_after hbefore (contains_afterAll env scope body)) rest
        hrest hrestKinds hrestUses hknown.2 hreturns.2 next hnext join
    · exact after_of_elsePart? hnone
  | whileLoop condition body =>
    obtain ⟨hcondition, hnumeric, hbody⟩ := h
    obtain ⟨hconditionUses, hbodyUses⟩ := List.forall_mem_append.1 huses
    have htest := (Yields.truthOf henv hcondition hnumeric hconditionUses).weaken
      (extends_afterAll env scope body) fun x hx => (contains_afterAll env scope body _).2 (.inr hx)
    exact loop (block henv hopens hbefore body hbody hkinds hbodyUses hknown hreturns)
      (Yields.pure trivial) htest
  | forLoop init limit body =>
    obtain ⟨hinit, ⟨name, shape, htarget⟩, hinitTy, hlimit, hlimitTy, hbody⟩ := h
    obtain ⟨hinitKinds, hbodyKinds⟩ := List.forall_mem_append.1 hkinds
    obtain ⟨hfirst, hbodyUses⟩ := List.forall_mem_append.1 huses
    obtain ⟨hinitUses, hlimitUses⟩ := List.forall_mem_append.1 hfirst
    have henv₁ := init.fits_after henv hopens hinit hinitKinds
    have hopens₁ := hopens.mono (init.extends_after env scope)
    have henv₂ := fits_afterAll henv₁ hopens₁ body hbody hbodyKinds
    obtain ⟨hkind, hbound₁⟩ := counted htarget hinit hinitKinds
    have hbound₂ := (contains_afterAll (init.after env scope) scope body _).2 (.inr hbound₁)
    have hscalar : (kinds ⟨init.target.name, scope⟩).isArray = false := by
      rw [hkind]
      rfl
    have hstep : Sends kinds scope (afterAll (init.after env scope) scope body)
        (afterAll (init.after env scope) scope body) (Lower.assign scope (counterStep init))
        fun _ => True := by
      refine (assign henv₂ (counterStep_agrees henv₂ hinitTy hkind hbound₂) ?_ ?_).mono
        (fun _ _ => trivial) (Environment.Extends.refl _) fun x hx => ?_
      · exact List.forall_mem_singleton.2 hkind
      · exact List.forall_mem_singleton.2 hscalar
      · exact ((counterStep init).contains_after _ scope _).2 (.inr hx)
    refine (assign henv hinit hinitKinds hinitUses).bind fun _ _ =>
      after (counterTest_runs hinitTy hlimitTy) fun test htest => ?_
    obtain ⟨ty, hty, rfl⟩ := htest
    have hagrees := counterTest_agrees henv₁ hinitTy hkind hbound₁ hlimit hty
    have htestTy : ty.isNumeric := (Ty.isNumeric_of_promote? hty).2
    have htruth :=
      (Yields.truthOf henv₁ hagrees htestTy (List.forall_mem_cons.2 ⟨hscalar, hlimitUses⟩)).weaken
      (extends_afterAll _ scope body) fun x hx => (contains_afterAll _ scope body _).2 (.inr hx)
    exact loop (block henv₁ hopens₁ (known_after hbefore (init.contains_after env scope)) body hbody
      hbodyKinds hbodyUses hknown hreturns) hstep htruth
  | subroutine name params body ty =>
    obtain ⟨rfl, hty, hparams, hbody⟩ := h
    obtain ⟨hparamKinds, hbodyKinds⟩ := List.forall_mem_append.1 hkinds
    refine subroutine henv hty hparams hparamKinds (block (henv.enter hty hparams hparamKinds)
      (env.opens_enter name params ty) (known_after hbefore fun _ => Environment.contains_enter)
      body hbody hbodyKinds huses hknown hreturns) fun x hx => ?_
    rcases (contains_afterAll _ _ body _).1 hx with hnew | hold
    · obtain ⟨b, hb, heq⟩ := List.mem_map.1 hnew
      exact absurd (by rw [heq]) (bindingsAll_ne_top (by simp) body b hb)
    · refine (Environment.contains_enter.1 hold).resolve_left fun hparam => ?_
      simp [Param.bindings] at hparam
  | ret e =>
    have hnumber := Ty.isNumeric_of_isResolved h.2.2 (of_decide_eq_true hreturns)
    exact Yields.leaveWith henv hopens h.1 h.2.1 hnumber huses

theorem block {env : Environment} {scope : Scope} {before : List Symbol} (henv : env.Fits kinds)
    (hopens : env.Opens scope) (hbefore : ∀ symbol ∈ before, env.contains symbol) (body : List Stmt)
    (h : allAgree env scope body) (hkinds : ∀ b ∈ bindingsAll scope body, kinds b.1 = b.2)
    (huses : ∀ u ∈ usesAll scope body, (kinds u.1).isArray = u.2)
    (hknown : armsKnownAll scope before body) (hreturns : returnNumbers body) :
    Sends kinds scope env (afterAll env scope body) (block scope body) fun _ => True := by
  cases body with
  | nil =>
    rw [Lower.block]
    exact Yields.pure trivial
  | cons st rest =>
    obtain ⟨hstKinds, hrestKinds⟩ := List.forall_mem_append.1 hkinds
    obtain ⟨hstUses, hrestUses⟩ := List.forall_mem_append.1 huses
    simp only [armsKnownAll, returnNumbers, Bool.and_eq_true] at hknown hreturns
    rw [Lower.block]
    refine (statement henv hopens hbefore st h.1 hstKinds hstUses hknown.1 hreturns.1).bind
      fun _ _ => ?_
    exact block (st.fits_after henv hopens h.1 hstKinds) (hopens.mono (st.extends_after env scope))
      (known_after hbefore (st.contains_after env scope)) rest h.2 hrestKinds hrestUses hknown.2
      hreturns.2

theorem elsePart {env : Environment} {scope : Scope} {before : List Symbol} (henv : env.Fits kinds)
    (hopens : env.Opens scope) (hbefore : ∀ symbol ∈ before, env.contains symbol) (part : ElsePart)
    (h : part.Agrees env scope) (hkinds : ∀ b ∈ part.bindings scope, kinds b.1 = b.2)
    (huses : ∀ u ∈ part.uses scope, (kinds u.1).isArray = u.2)
    (hknown : part.armsKnown scope before)
    (hreturns : part.returnsNumbers) (rest : Nat → Lowering Unit)
    (hrest : elsePart? scope part = some rest) (join : Nat) :
    Sends kinds scope env (part.after env scope) (rest join) fun _ => True := by
  cases part with
  | none => simp [elsePart?] at hrest
  | body body =>
    rw [elsePart?, Option.some.injEq] at hrest
    subst hrest
    exact (block henv hopens hbefore body h hkinds huses hknown hreturns).followed
      fun _ _ => .of_steady (.fallThrough join)
  | elseIf condition body rest' =>
    rw [elsePart?, Option.some.injEq] at hrest
    subst hrest
    obtain ⟨hcondition, hnumeric, hbody, hrest⟩ := h
    obtain ⟨hbodyKinds, hrestKinds⟩ := List.forall_mem_append.1 hkinds
    obtain ⟨hfirst, hrestUses⟩ := List.forall_mem_append.1 huses
    obtain ⟨hconditionUses, hbodyUses⟩ := List.forall_mem_append.1 hfirst
    simp only [ElsePart.armsKnown, ElsePart.returnsNumbers, Bool.and_eq_true] at hknown hreturns
    have hbody' := block henv hopens hbefore body hbody hbodyKinds hbodyUses hknown.1.2 hreturns.1
    have henv' := fits_afterAll henv hopens body hbody hbodyKinds
    have hopens' := hopens.mono (extends_afterAll env scope body)
    refine arm (.truthOf henv hcondition hnumeric hconditionUses) hbody' (fun next hnext => ?_)
      fun hnone => ?_
    · refine ⟨contains_of_armKnown hbefore hknown.1.1 (isNone_of_elsePart? hnext), fun join => ?_⟩
      exact elsePart henv' hopens' (known_after hbefore (contains_afterAll env scope body)) rest'
        hrest hrestKinds hrestUses hknown.2 hreturns.2 next hnext join
    · exact after_of_elsePart? hnone

end

end Sends

end

end Lower

/-! ### Programs -/

theorem Program.kindOf_of_uniform {p : Program} (h : p.uniform = true) :
    (∀ b ∈ bindingsAll .top p, p.kindOf b.1 = b.2) ∧
    ∀ u ∈ usesAll .top p, (p.kindOf u.1).isArray = u.2 := by
  simpa only [uniform, Bool.and_eq_true, List.all_eq_true, decide_eq_true_eq] using h

theorem State.houses_start (kinds : Symbol → SlotKind) (name sourceName target : String) :
    (State.start name sourceName target).Houses kinds {} .top := by
  refine ⟨⟨State.start_routines _ _ _, fun f sub hsub => ?_, fun f hf => ?_, by simp⟩,
    fun symbol slot hslot => ?_, fun x hx => ?_⟩
  · simp [State.start] at hsub
  · simp [Environment.returnTy?] at hf
  · simp [State.start] at hslot
  · simp [Environment.contains] at hx

/-- **There is code for every regular program that has been read**, unless a subroutine has a name
that is reserved or has been given before, a call has another number of arguments than the
subroutine takes, or a string is too long. -/
theorem lowers_of_regular {source : String} {p : Program}
    (hparse : parse (scan source).tokens = .ok p)
    (hregular : p.regular = true) (name sourceName target : String) :
    (∃ m, (generate name sourceName target p).1 = .ok m) ∨
      ∃ e, (generate name sourceName target p).1 = .error e ∧ e.Expected := by
  simp only [Program.regular, Bool.and_eq_true] at hregular
  obtain ⟨⟨huniform, hknown⟩, hreturns⟩ := hregular
  obtain ⟨hkinds, huses⟩ := Program.kindOf_of_uniform huniform
  have hbefore : ∀ symbol ∈ ([] : List Symbol), ({} : Environment).contains symbol := by simp
  have hopens : ({} : Environment).Opens .top := by simp [Environment.Opens]
  have hblock :=
    Sends.block .empty hopens hbefore p (allAgree_of_parse hparse) hkinds huses hknown hreturns
  cases hresult : (generate name sourceName target p).1 with
  | ok m => exact .inl ⟨m, rfl⟩
  | error e =>
    exact .inr ⟨e, rfl, (hblock _ (State.houses_start _ name sourceName target)).2 e
      (fails_program hresult)⟩

/-- Names that are bound again in an arm of a conditional, an array, and a condition that is lowered
behind the body it stands in front of. -/
def boundAlike : String :=
  "INT a[2]\nx = 8\nWHILE x > 1 DO\nIF x > 4 THEN\nx = x / 2\nELSE\na[0] = x\ny = a[0]\n" ++
    "ENDIF\nENDWHILE\n"

theorem boundAlike_lowers : ∃ p m, parse (scan boundAlike).tokens = .ok p ∧ p.regular = true ∧
    (generate "alike" "alike.pc" "none" p).1 = .ok m := by
  have hok : (parse (scan boundAlike).tokens).toOption.map (fun p =>
      (p.regular, (generate "alike" "alike.pc" "none" p).1.toOption.isSome)) =
        some (true, true) := by
    decide +kernel
  obtain ⟨p, hp, hboth⟩ := Option.map_eq_some_iff.mp hok
  obtain ⟨hregular, hsome⟩ := Prod.mk.inj hboth
  have hparse := eq_ok_of_toOption hp
  rcases lowers_of_regular hparse hregular "alike" "alike.pc" "none" with ⟨m, hm⟩ | ⟨e, he, -⟩
  · exact ⟨p, m, hparse, hregular, hm⟩
  · rw [he] at hsome
    cases hsome

end Pseudocode
