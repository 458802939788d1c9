import Pseudocode.Proofs.Lower.Failure
import Pseudocode.Proofs.Regular.Kinds

/-!
Code for the expressions of a regular program.

`State.Houses kinds env scope s` is what holds between any two steps: every name that the
environment binds in the scope has a slot, all slots are of the kinds that their names have, and the
subroutines of the environment are declared. `Yields` says of a computation that it keeps this and
gives something that satisfies a condition, or fails as a regular program may
(`LowerError.Expected`).

An expression is lowered to a value of a type that its own type allows (`Operand.Carries`): a number
may be a truth value, an integer or a binary64 number.  Each of them can be converted to a number of
either type, so that fetching it never fails.
-/

namespace Pseudocode

/-- May the error happen to a regular program?  The size of a string may be too large for 32
bits. -/
def LowerError.Expected : LowerError → Prop
  | .reservedName _ => True
  | .duplicateSubroutine _ => True
  | .argumentCount _ expected found => found ≠ expected
  | .invalidOperand (.wideSize size) => 0x80000000 ≤ size
  | _ => False

namespace Lower

open Ir

/-! ### What the state holds -/

/-- Are the slots of the kinds that their names have, and do the names have slots that the
environment binds in the scope? -/
structure Houses.Slots (kinds : Symbol → SlotKind) (env : Environment) (scope : Scope)
    (storage : Storage) : Prop where
  kinds : ∀ (symbol : Symbol) (slot : Slot), storage[symbol]? = some slot →
    slot.kind = kinds symbol ∧ ∃ ty, kindTy? (kinds symbol) = some ty ∧ slot.address.ty = .ptr ty
  bound : ∀ x, env.contains ⟨x, scope⟩ → (⟨x, scope⟩ : Symbol) ∈ storage

/-- Are the subroutines of the environment declared, with numbers for parameters, and is the
function in the making that of the scope? -/
structure Houses.Frame (env : Environment) (scope : Scope) (s : State) : Prop where
  routines : s.routines = .standard
  fits : ∀ (name : String) (sub : Subroutine), s.subroutines[name]? = some sub →
    SubroutineFits sub ∧ sub.ty.isNumeric ∧ ∀ ty ∈ sub.params, ty.isNumeric
  declared : ∀ f, (env.returnTy? f).isSome → f ∈ s.subroutines
  here : ∀ f, scope = .subroutine f → s.function.name = f

/-- What holds while code for a regular program is generated. -/
structure State.Houses (kinds : Symbol → SlotKind) (env : Environment) (scope : Scope) (s : State) :
    Prop where
  frame : Houses.Frame env scope s
  slots : Houses.Slots kinds env scope s.storage

section

variable {kinds : Symbol → SlotKind} {env : Environment} {scope : Scope} {s s' : State}

theorem Houses.Frame.of_eq (h : Houses.Frame env scope s) (hroutines : s'.routines = s.routines)
    (hsubs : s'.subroutines = s.subroutines) (hname : s'.function.name = s.function.name) :
    Houses.Frame env scope s' := by
  refine ⟨hroutines.trans h.routines, ?_, ?_, ?_⟩
  · rw [hsubs]
    exact h.fits
  · rw [hsubs]
    exact h.declared
  · rw [hname]
    exact h.here

theorem State.Houses.of_eq (h : s.Houses kinds env scope) (hroutines : s'.routines = s.routines)
    (hsubs : s'.subroutines = s.subroutines) (hstorage : s'.storage = s.storage)
    (hname : s'.function.name = s.function.name) : s'.Houses kinds env scope := by
  refine ⟨h.frame.of_eq hroutines hsubs hname, ?_⟩
  rw [hstorage]
  exact h.slots

theorem State.Houses.appends (h : s.Houses kinds env scope) (ha : Appends s s') :
    s'.Houses kinds env scope := by
  obtain ⟨is, his⟩ := ha.function
  refine h.of_eq ha.routines ha.subroutines ha.storage ?_
  rw [his]
  rfl

instance : Steady (State.Houses kinds env scope) :=
  ⟨fun hs hname => hs.of_eq rfl rfl rfl hname⟩

end

/-! ### Computations that keep it -/

section

variable {α β : Type} {kinds : Symbol → SlotKind} {env : Environment} {scope : Scope}
  {m : Lowering α} {φ χ : α → Prop} {ψ : β → Prop}

/-- The computation gives what satisfies `φ` and keeps what the state holds, or fails as it may. -/
def Yields (kinds : Symbol → SlotKind) (env : Environment) (scope : Scope) (m : Lowering α)
    (φ : α → Prop) : Prop :=
  Triple (State.Houses kinds env scope) m (fun a s => φ a ∧
    s.Houses kinds env scope) LowerError.Expected

namespace Yields

theorem bind {f : α → Lowering β} (hm : Yields kinds env scope m φ)
    (hf : ∀ a, φ a → Yields kinds env scope (f a) ψ) : Yields kinds env scope (m >>= f) ψ :=
  Triple.bind hm fun a s hs => hf a hs.1 s hs.2

theorem mono (hm : Yields kinds env scope m φ) (h : ∀ a, φ a → χ a) : Yields kinds env scope m χ :=
  Triple.mono hm (fun _ hs => hs) (fun a _ hs => ⟨h a hs.1, hs.2⟩) fun _ he => he

theorem pure {a : α} (h : φ a) : Yields kinds env scope (pure a) φ :=
  Triple.pure fun _ hs => ⟨h, hs⟩

theorem throw {e : LowerError} (h : e.Expected) : Yields kinds env scope (throw e : Lowering α) φ :=
  Triple.throw h

theorem of_runs [OnlyAppends m] (h : ∀ s, s.Houses kinds env scope → ∃ a s', Runs m s a s' ∧ φ a) :
    Yields kinds env scope m φ := by
  intro s hs
  obtain ⟨a, s', hrun, ha⟩ := h s hs
  refine ⟨fun b t hother => ?_, fun e he => absurd he (not_fails_of_runs hrun)⟩
  obtain ⟨hb, rfl⟩ := Prod.mk.inj (hother.symm.trans hrun)
  rw [Except.ok.inj hb]
  exact ⟨ha, hs.appends hrun.appends⟩

theorem get {f : State → Lowering β} (hf : ∀ s, s.Houses kinds env scope →
    Yields kinds env scope (f s) ψ) : Yields kinds env scope (get >>= f) ψ := by
  have hget : Triple (State.Houses kinds env scope) (MonadState.get : Lowering State)
      (fun s t => s.Houses kinds env scope ∧ t.Houses kinds env scope) LowerError.Expected :=
    Triple.get fun _ hs => ⟨hs, hs⟩
  exact hget.bind fun s t ht => hf s ht.1 t ht.2

end Yields

end

section

variable {kinds : Symbol → SlotKind} {env : Environment} {scope : Scope}

namespace Yields

/-! ### Instructions -/

theorem load {ptr : Value} {ty : Ir.Ty} (h : ptr.ty = .ptr ty) :
    Yields kinds env scope (load ptr) fun v => v.ty = ty :=
  of_runs fun _ _ => ⟨_, _, runs_load.2 ⟨ty, h, rfl, rfl⟩, rfl⟩

theorem store {value ptr : Value} (h : ptr.ty = .ptr value.ty) :
    Yields kinds env scope (store value ptr) fun _ => True :=
  of_runs fun _ _ => ⟨(), _, runs_store.2 ⟨h, rfl⟩, trivial⟩

theorem arith (op : ArithOp) (lhs rhs : Value) :
    Yields kinds env scope (arith op lhs rhs) fun v => v.ty = lhs.ty :=
  of_runs fun _ _ => ⟨_, _, runs_arith.2 ⟨rfl, rfl⟩, rfl⟩

theorem icmp (pred : IntPred) (lhs rhs : Value) :
    Yields kinds env scope (icmp pred lhs rhs) fun v => v.ty = .i1 :=
  of_runs fun _ _ => ⟨_, _, runs_icmp.2 ⟨rfl, rfl⟩, rfl⟩

theorem fcmp (pred : FloatPred) (lhs rhs : Value) :
    Yields kinds env scope (fcmp pred lhs rhs) fun v => v.ty = .i1 :=
  of_runs fun _ _ => ⟨_, _, runs_fcmp.2 ⟨rfl, rfl⟩, rfl⟩

theorem cast (op : CastOp) (value : Value) (target : Ir.Ty) :
    Yields kinds env scope (cast op value target) fun v => v.ty = target :=
  of_runs fun _ _ => ⟨_, _, runs_cast.2 ⟨rfl, rfl⟩, rfl⟩

theorem offset {base : Value} {ty : Ir.Ty} (h : base.ty = .ptr ty) (index : Value) :
    Yields kinds env scope (offset base index) fun v => v.ty = .ptr ty :=
  of_runs fun _ _ => ⟨_, _, runs_offset.2 ⟨ty, h, rfl, rfl⟩, rfl⟩

theorem firstByte {global : Value} {size : Nat} (h : global.ty = .ptr (.array size .i8)) :
    Yields kinds env scope (firstByte global) fun v => v.ty = .bytes :=
  of_runs fun _ _ => ⟨_, _, (runs_firstByte h).2 ⟨rfl, rfl⟩, rfl⟩

theorem format {ty : Ty} (h : ty.isResolved) :
    Yields kinds env scope (format ty) fun v => v.ty = .bytes := by
  refine of_runs fun s hs => ?_
  have hformat :
    ∃ name size, s.routines.format? ty = some (.global name (.ptr (.array size .i8))) := by
    rw [hs.frame.routines]
    cases ty with
    | undetermined => simp [Ty.isResolved] at h
    | _ => exact ⟨_, _, rfl⟩
  obtain ⟨name, size, hglobal⟩ := hformat
  exact ⟨_, _, runs_format.2 ⟨_, hglobal, (runs_firstByte rfl).2 ⟨rfl, rfl⟩⟩, rfl⟩

/-! ### Calls -/

theorem call (callee : String) {signature : Signature} (h : signature.ret ≠ .void)
    (args : List Value) :
    Yields kinds env scope (call callee signature args) fun v => v.ty = signature.ret :=
  of_runs fun _ _ => ⟨_, _, runs_call.2 ⟨h, rfl, rfl⟩, rfl⟩

theorem run (callee : String) {signature : Signature} (h : signature.ret ≠ .void)
    (args : List Value) : Yields kinds env scope (run callee signature args) fun _ => True :=
  of_runs fun _ _ => ⟨(), _, (runs_run h).2 rfl, trivial⟩

theorem word (size : Nat) : Yields kinds env scope (word size) fun v => v.ty = .i32 := by
  unfold Lower.word
  by_cases hsize : size < 0x80000000
  · rw [if_pos hsize]
    exact pure rfl
  · rw [if_neg hsize]
    refine throw ?_
    show 0x80000000 ≤ size
    omega

theorem byteCount (size : Nat) : Yields kinds env scope (byteCount size) fun v => v.ty = .i64 :=
  (word size).bind fun _ _ => cast _ _ _

theorem malloc (size : Value) : Yields kinds env scope (malloc size) fun v => v.ty = .bytes := by
  refine get fun s hs => ?_
  rw [hs.frame.routines]
  exact call _ (by simp [Routines.standard, Ir.Ty.bytes]) _

theorem realloc (old size : Value) :
    Yields kinds env scope (realloc old size) fun v => v.ty = .bytes := by
  refine get fun s hs => ?_
  rw [hs.frame.routines]
  exact call _ (by simp [Routines.standard, Ir.Ty.bytes]) _

theorem memcpy (dest source size : Value) :
    Yields kinds env scope (memcpy dest source size) fun _ => True := by
  refine get fun s hs => ?_
  rw [hs.frame.routines]
  exact (call _ (by simp [Routines.standard, Ir.Ty.bytes]) _).bind fun _ _ => pure trivial

theorem printf (args : List Value) : Yields kinds env scope (printf args) fun _ => True := by
  refine get fun s hs => ?_
  rw [hs.frame.routines]
  exact run _ (by simp [Routines.standard]) _

theorem scanf (args : List Value) : Yields kinds env scope (scanf args) fun _ => True := by
  refine get fun s hs => ?_
  rw [hs.frame.routines]
  exact run _ (by simp [Routines.standard]) _

end Yields

/-! ### Types of values -/

/-- May a value of this type in generated code stand for a value of the type? -/
def Carries : Ty → Ir.Ty → Prop
  | .string, t => t = .bytes
  | .undetermined, _ => False
  | _, t => t = .i1 ∨ t = .i32 ∨ t = .double

/-- Does the operand stand for a value of the type? -/
def Operand.Carries (ty : Ty) : Operand → Prop
  | value v => Lower.Carries ty v.ty
  | address ptr => ∃ t, ptr.ty = .ptr t ∧ Lower.Carries ty t

/-- Can values of the first type be used as values of the second? -/
def Serves (ty want : Ty) : Prop :=
  ty.isNumeric ∧ want.isNumeric ∨ ty = .string ∧ want = .string

theorem Serves.refl {ty : Ty} (h : ty.isResolved) : Serves ty ty := by
  cases ty with
  | undetermined => simp [Ty.isResolved] at h
  | string => exact .inr ⟨rfl, rfl⟩
  | _ => exact .inl ⟨rfl, rfl⟩

theorem carries_of_irTy? {ty : Ty} {t : Ir.Ty} (h : irTy? ty = some t) : Carries ty t := by
  cases ty <;> simp [irTy?] at h <;> simp [Carries, ← h]

/-- What stands for a number is a number of some type. -/
theorem carries_number {ty other : Ty} {t : Ir.Ty} (h : Carries other t) (hother : other.isNumeric)
    (hty : ty.isNumeric) : Carries ty t := by
  cases ty <;> cases other <;> simp_all [Ty.isNumeric, Carries]

theorem isSome_irTy? {ty : Ty} (h : ty.isResolved) : ∃ t, irTy? ty = some t := by
  cases ty <;> simp_all [Ty.isResolved, irTy?]

namespace Yields

theorem irTy {ty : Ty} (h : ty.isResolved) :
    Yields kinds env scope (irTy ty) fun t => irTy? ty = some t := by
  obtain ⟨t, ht⟩ := isSome_irTy? h
  exact of_runs fun s _ => ⟨t, s, runs_irTy.2 ⟨ht, rfl⟩, ht⟩

/-- A number can be converted to a number of either type. -/
theorem convert {value : Value} {ty want : Ty} (hvalue : Carries ty value.ty) (h : Serves ty want) :
    Yields kinds env scope (convert value want) fun v => irTy? want = some v.ty := by
  have hwant : want.isResolved := by
    rcases h with ⟨-, hwant⟩ | ⟨-, rfl⟩
    · exact Ty.isResolved_of_isNumeric hwant
    · rfl
  refine (irTy hwant).bind fun target htarget => ?_
  by_cases heq : value.ty = target
  · rw [if_pos heq]
    exact pure (by rw [heq, htarget])
  · rw [if_neg heq]
    have hop : ∃ op, castOp? value.ty target = some op := by
      rcases h with ⟨hty, hnumber⟩ | ⟨rfl, rfl⟩
      · cases ty <;> simp [Ty.isNumeric] at hty <;> rcases hvalue with hv | hv | hv <;>
          cases want <;> simp [Ty.isNumeric] at hnumber <;> simp [irTy?] at htarget <;>
            subst htarget <;>
            rw [hv] at heq ⊢ <;> simp_all [castOp?]
      · rw [irTy?, Option.some.injEq] at htarget
        exact absurd (hvalue.trans htarget) heq
    obtain ⟨op, hop⟩ := hop
    simp only [hop]
    refine (cast op value target).mono fun v hv => ?_
    rw [hv, htarget]

variable {part lhs rhs : Lowering Operand}

theorem fetch {ty want : Ty} (hpart : Yields kinds env scope part (Operand.Carries ty))
    (h : Serves ty want) :
    Yields kinds env scope (fetch part want) fun v => irTy? want = some v.ty := by
  refine hpart.bind fun operand hoperand => ?_
  cases operand with
  | value v => exact convert hoperand h
  | address ptr =>
    obtain ⟨t, hptr, ht⟩ := hoperand
    refine (load hptr).bind fun v hv => convert ?_ h
    rwa [hv]

/-! ### Operators -/

theorem compare {left right ty : Ty} {op : BinaryOp}
    (hl : Yields kinds env scope lhs (Operand.Carries left))
    (hr : Yields kinds env scope rhs (Operand.Carries right)) (hleft : left.isNumeric)
    (hright : right.isNumeric) (hty : ty.isNumeric) (hop : op.isComparison) :
    Yields kinds env scope (compare op ty lhs rhs) fun v => v.ty = .i1 := by
  refine (hl.fetch (.inl ⟨hleft, hty⟩)).bind fun l _ => (hr.fetch (.inl ⟨hright, hty⟩)).bind
    fun r _ => ?_
  cases ty with
  | int =>
    have hpred : ∃ pred, intPred? op = some pred := by
      cases op <;> simp_all [BinaryOp.isComparison, intPred?]
    obtain ⟨pred, hpred⟩ := hpred
    simp only [hpred]
    exact icmp pred l r
  | double =>
    have hpred : ∃ pred, floatPred? op = some pred := by
      cases op <;> simp_all [BinaryOp.isComparison, floatPred?]
    obtain ⟨pred, hpred⟩ := hpred
    simp only [hpred]
    exact fcmp pred l r
  | string => simp [Ty.isNumeric] at hty
  | undetermined => simp [Ty.isNumeric] at hty

theorem calculate {left right ty : Ty} {op : BinaryOp}
    (hl : Yields kinds env scope lhs (Operand.Carries left))
    (hr : Yields kinds env scope rhs (Operand.Carries right)) (hleft : left.isNumeric)
    (hright : right.isNumeric) (hty : ty.isNumeric) (hop : op.isComparison = false) :
    Yields kinds env scope (calculate op ty lhs rhs) fun v => irTy? ty = some v.ty := by
  refine (hl.fetch (.inl ⟨hleft, hty⟩)).bind fun l hlty => (hr.fetch (.inl ⟨hright, hty⟩)).bind
    fun r _ => ?_
  have harith : ∃ arith, arithOp? ty op = some arith := by
    cases ty <;> simp [Ty.isNumeric] at hty <;> cases op <;>
      simp_all [BinaryOp.isComparison, arithOp?]
  obtain ⟨op', harith⟩ := harith
  simp only [harith]
  exact (arith op' l r).mono fun v hv => by rw [hv, hlty]

theorem negate {ty want : Ty} (hpart : Yields kinds env scope part (Operand.Carries ty))
    (hty : ty.isNumeric)
    (hwant : want.isNumeric) :
    Yields kinds env scope (negate want part) fun v => irTy? want = some v.ty := by
  refine (hpart.fetch (.inl ⟨hty, hwant⟩)).bind fun v _ => ?_
  cases want with
  | int => exact (arith _ _ v).mono fun _ hr => by rw [hr]; rfl
  | double => exact (arith _ _ v).mono fun _ hr => by rw [hr]; rfl
  | string => simp [Ty.isNumeric] at hwant
  | undetermined => simp [Ty.isNumeric] at hwant

theorem concat (hl : Yields kinds env scope lhs (Operand.Carries .string))
    (hr : Yields kinds env scope rhs (Operand.Carries .string))
    (length leftLength rightLength : Nat) :
    Yields kinds env scope (concat length leftLength rightLength lhs rhs) fun v => v.ty = .bytes :=
  (hl.fetch (.inr ⟨rfl, rfl⟩)).bind fun _ _ => (hr.fetch (.inr ⟨rfl, rfl⟩)).bind fun _ _ =>
    (byteCount _).bind fun _ _ => (malloc _).bind fun _ hbuffer => (byteCount _).bind fun _ _ =>
      (memcpy _ _ _).bind fun _ _ => (word _).bind fun _ _ => (offset hbuffer _).bind fun _ _ =>
        (byteCount _).bind fun _ _ => (memcpy _ _ _).bind fun _ _ => pure hbuffer

/-! ### Names -/

/-- A name that is bound has a slot, of the kind of the name. -/
theorem slotOf {x : String} (h : env.contains ⟨x, scope⟩) :
    Yields kinds env scope (slotOf ⟨x, scope⟩) fun slot =>
    slot.kind = kinds ⟨x, scope⟩ ∧ ∃ ty, kindTy? (kinds ⟨x, scope⟩) = some ty ∧
    slot.address.ty = .ptr ty := by
  refine of_runs fun s hs => ?_
  have hmem := hs.slots.bound x h
  rw [Std.TreeMap.mem_iff_isSome_getElem?] at hmem
  obtain ⟨slot, hslot⟩ := Option.isSome_iff_exists.1 hmem
  exact ⟨slot, s, runs_slotOf.2 ⟨hslot, rfl⟩, hs.slots.kinds _ slot hslot⟩

theorem variableAddress {x : String} {ty : Ty} (h : env.contains ⟨x, scope⟩)
    (hkind : kinds ⟨x, scope⟩ = .scalar ty) :
    Yields kinds env scope (variableAddress ⟨x, scope⟩) fun ptr => ∃ t, ptr.ty = .ptr t ∧
    Carries ty t := by
  refine (slotOf h).bind fun slot hslot => ?_
  obtain ⟨hslotKind, t, ht, hptr⟩ := hslot
  rw [hkind] at hslotKind ht
  simp only [hslotKind]
  exact pure ⟨t, hptr, carries_of_irTy? ht⟩

theorem elementTy {x : String} {ty : Ty} (h : env.contains ⟨x, scope⟩)
    (hkind : kinds ⟨x, scope⟩ = .array ty) :
    Yields kinds env scope (elementTy ⟨x, scope⟩) fun found => found = ty := by
  refine (slotOf h).bind fun slot hslot => ?_
  obtain ⟨hslotKind, -⟩ := hslot
  rw [hkind] at hslotKind
  simp only [hslotKind]
  exact pure rfl

theorem elementAddress {x : String} {ty : Ty} {indexTy : Ty} (h : env.contains ⟨x, scope⟩)
    (hkind : kinds ⟨x, scope⟩ = .array ty)
    (hpart : Yields kinds env scope part (Operand.Carries indexTy)) (hindex : indexTy.isNumeric) :
    Yields kinds env scope (elementAddress ⟨x, scope⟩ part) fun ptr => ∃ t, ptr.ty = .ptr t ∧
    irTy? ty = some t := by
  refine (slotOf h).bind fun slot hslot => ?_
  obtain ⟨hslotKind, t, ht, hptr⟩ := hslot
  rw [hkind] at hslotKind ht
  obtain ⟨element, helement, rfl⟩ := Option.map_eq_some_iff.1 ht
  simp only [hslotKind]
  refine (load hptr).bind fun first hfirst => (hpart.fetch (.inl ⟨hindex, rfl⟩)).bind
    fun index _ => ?_
  exact (offset hfirst index).mono fun v hv => ⟨element, hv, helement⟩

/-- A subroutine of the environment is found, if it is given as many arguments as it takes. -/
theorem subroutineOf {name : String} (h : (env.returnTy? name).isSome) (found : Nat) :
    Yields kinds env scope (subroutineOf scope name found) fun sub =>
      SubroutineFits sub ∧ sub.ty.isNumeric ∧ ∀ ty ∈ sub.params, ty.isNumeric := by
  refine get fun s hs => ?_
  cases hsub : s.subroutines[name]? with
  | none =>
    have hmem := hs.frame.declared name h
    rw [Std.TreeMap.mem_iff_isSome_getElem?, hsub] at hmem
    simp at hmem
  | some sub =>
    dsimp only
    split
    · exact pure (hs.frame.fits name sub hsub)
    · next hcount => exact throw hcount

end Yields

/-! ### Expressions -/

theorem kinds_eq_scalar {kind : SlotKind} (h : kind.isArray = false) : kind = .scalar kind.ty := by
  cases kind with
  | scalar ty => rfl
  | array ty => simp [SlotKind.isArray] at h

theorem kinds_eq_array {kind : SlotKind} (h : kind.isArray = true) : kind = .array kind.ty := by
  cases kind with
  | scalar ty => simp [SlotKind.isArray] at h
  | array ty => rfl

namespace Yields

theorem intern (text : String) : Yields kinds env scope (modifyGet fun s : State =>
    ((s.module.intern none text).1, { s with module := (s.module.intern none text).2 }) :
    Lowering Value)
      fun v => ∃ size, v.ty = .ptr (.array size .i8) := by
  refine Triple.modifyGet fun s hs => ⟨?_, hs.of_eq rfl rfl rfl rfl⟩
  obtain ⟨name, size, hname⟩ := intern_address s.module none text
  exact ⟨size, by rw [hname]; rfl⟩

mutual

/-- **The code for an expression of a regular program fails only as it may**, and gives what stands
for a value of its type. -/
theorem operand (henv : env.Fits kinds) (e : Expr) (h : e.Agrees env scope) (hty : e.ty.isResolved)
    (huses : ∀ u ∈ e.uses scope, (kinds u.1).isArray = u.2) :
    Yields kinds env scope (operand scope e) (Operand.Carries e.ty) := by
  cases e with
  | constant value shape =>
    cases value with
    | int value =>
      rw [Expr.Agrees] at h
      rw [Lower.operand, h]
      exact pure (.inr (.inl rfl))
    | double value =>
      rw [Expr.Agrees] at h
      rw [Lower.operand, h]
      exact pure (.inr (.inr rfl))
    | string text =>
      rw [Expr.Agrees] at h
      rw [Lower.operand, h]
      refine (intern text).bind fun global hglobal => ?_
      obtain ⟨size, hsize⟩ := hglobal
      exact (firstByte hsize).bind fun v hv => pure hv
  | var name shape =>
    rw [Expr.Agrees] at h
    subst h
    have hbound : env.contains ⟨name, scope⟩ := Environment.contains_of_isResolved hty
    have hkind := kinds_eq_scalar (huses _ (List.mem_singleton_self _))
    rw [← henv.types _ hbound] at hkind
    rw [Lower.operand]
    exact (variableAddress hbound hkind).bind fun ptr hptr => pure hptr
  | element name index shape =>
    obtain ⟨hindex, hnumeric, rfl⟩ := h
    obtain ⟨hname, hindexUses⟩ := List.forall_mem_cons.1 huses
    have hbound : env.contains ⟨name, scope⟩ := Environment.contains_of_isResolved hty
    have hkind := kinds_eq_array hname
    rw [← henv.types _ hbound] at hkind
    have hpart := operand henv index hindex (Ty.isResolved_of_isNumeric hnumeric) hindexUses
    rw [Lower.operand]
    refine (elementAddress hbound hkind hpart hnumeric).bind fun ptr hptr => ?_
    obtain ⟨t, hptr, ht⟩ := hptr
    exact pure ⟨t, hptr, carries_of_irTy? ht⟩
  | binary op lhs rhs shape =>
    obtain ⟨hleft, hright, hshape⟩ := h
    obtain ⟨hleftUses, hrightUses⟩ := List.forall_mem_append.1 huses
    obtain ⟨hleftTy, hrightTy, -⟩ := Shape.resolved_of_combined? hshape
    have hl := operand henv lhs hleft hleftTy hleftUses
    have hr := operand henv rhs hright hrightTy hrightUses
    rw [Lower.operand]
    rcases Shape.combined?_cases hshape with ⟨hln, hrn, hn, -⟩ | ⟨rfl, hls, hrs, rfl⟩
    · by_cases hop : op.isComparison = true
      · rw [if_pos hop]
        refine (compare hl hr hln hrn hn hop).bind fun v hv => pure ?_
        have htruth : Carries .int v.ty := .inl hv
        exact carries_number htruth rfl hn
      · rw [if_neg hop, if_neg (Ty.ne_string_of_isNumeric hn)]
        exact (calculate hl hr hln hrn hn (by simpa using hop)).bind
          fun v hv => pure (carries_of_irTy? hv)
    · rw [if_neg (by simp [BinaryOp.isComparison]), if_pos rfl]
      rw [show lhs.ty = .string from hls] at hl
      rw [show rhs.ty = .string from hrs] at hr
      exact (concat hl hr _ _ _).bind fun v hv => pure hv
  | negate operand' shape =>
    obtain ⟨hoperand, hnumeric, rfl⟩ := h
    have hpart := operand henv operand' hoperand (Ty.isResolved_of_isNumeric hnumeric) huses
    rw [Lower.operand]
    exact (negate hpart hnumeric hnumeric).bind fun v hv => pure (carries_of_irTy? hv)
  | call name args ty =>
    obtain ⟨hreturn, hargs⟩ := h
    rw [Lower.operand]
    refine (subroutineOf (by rw [hreturn]; rfl) _).bind fun sub hsub => ?_
    obtain ⟨hfits, hnumber, hparams⟩ := hsub
    refine (arguments henv args hargs huses sub.params hparams).bind fun values _ => ?_
    have hret :=
      carries_number (carries_of_irTy? hfits.ret) hnumber (henv.proper.returns name ty hreturn)
    have hvoid : sub.signature.ret ≠ .void := by
      intro heq
      have hty := hfits.ret
      rw [heq] at hty
      cases hsubTy : sub.ty <;> simp [hsubTy, irTy?, Ir.Ty.bytes] at hty
    refine (Yields.call name hvoid values).bind fun v hv => pure ?_
    show Carries ty v.ty
    rwa [hv]

theorem arguments (henv : env.Fits kinds) (args : List Expr) (h : argumentsAgree env scope args)
    (huses : ∀ u ∈ usesOfArguments scope args, (kinds u.1).isArray = u.2) (tys : List Ty)
    (htys : ∀ ty ∈ tys, ty.isNumeric) :
    Yields kinds env scope (arguments scope args tys) fun _ => True := by
  cases args with
  | nil => exact pure trivial
  | cons arg args =>
    cases tys with
    | nil => exact pure trivial
    | cons ty tys =>
      obtain ⟨harg, hnumeric, hrest⟩ := h
      obtain ⟨hargUses, hrestUses⟩ := List.forall_mem_append.1 huses
      obtain ⟨hty, htys⟩ := List.forall_mem_cons.1 htys
      have hpart := operand henv arg harg (Ty.isResolved_of_isNumeric hnumeric) hargUses
      rw [Lower.arguments]
      exact (hpart.fetch (.inl ⟨hnumeric, hty⟩)).bind fun v _ =>
        (arguments henv args hrest hrestUses tys htys).bind fun _ _ => pure trivial

end

theorem valueOf (henv : env.Fits kinds) {e : Expr} (h : e.Agrees env scope) {want : Ty}
    (hserves : Serves e.ty want) (huses : ∀ u ∈ e.uses scope, (kinds u.1).isArray = u.2) :
    Yields kinds env scope (valueOf scope e want) fun v => irTy? want = some v.ty := by
  have hty : e.ty.isResolved := by
    rcases hserves with ⟨hty, -⟩ | ⟨hty, -⟩
    · exact Ty.isResolved_of_isNumeric hty
    · rw [hty]
      rfl
  exact (operand henv e h hty huses).fetch hserves

theorem truthOf (henv : env.Fits kinds) {e : Expr} (h : e.Agrees env scope) (hty : e.ty.isNumeric)
    (huses : ∀ u ∈ e.uses scope, (kinds u.1).isArray = u.2) :
    Yields kinds env scope (truthOf scope e) fun _ => True := by
  have hnonzero : Yields kinds env scope (truthOf.nonzero scope e) fun _ => True := by
    refine (valueOf henv h (.inl ⟨hty, hty⟩) huses).bind fun v _ => ?_
    cases htype : e.ty with
    | int => exact (icmp _ _ _).mono fun _ _ => trivial
    | double => exact (fcmp _ _ _).mono fun _ _ => trivial
    | string => simp [htype, Ty.isNumeric] at hty
    | undetermined => simp [htype, Ty.isNumeric] at hty
  cases e with
  | binary op lhs rhs shape =>
    rw [Lower.truthOf]
    by_cases hop : op.isComparison = true
    · rw [if_pos hop]
      obtain ⟨hleft, hright, hshape⟩ := h
      obtain ⟨hleftUses, hrightUses⟩ := List.forall_mem_append.1 huses
      obtain ⟨hleftTy, hrightTy, -⟩ := Shape.resolved_of_combined? hshape
      have hl := operand henv lhs hleft hleftTy hleftUses
      have hr := operand henv rhs hright hrightTy hrightUses
      rcases Shape.combined?_cases hshape with ⟨hln, hrn, hn, -⟩ | ⟨rfl, -, -, -⟩
      · exact (compare hl hr hln hrn hn hop).mono fun _ _ => trivial
      · simp [BinaryOp.isComparison] at hop
    · rw [if_neg hop]
      exact hnonzero
  | _ => exact hnonzero

end Yields

end

end Lower

end Pseudocode
