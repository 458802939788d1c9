import Pseudocode.Proofs.Ir.LastWrite
import Pseudocode.Proofs.Slots.Trail

/-!
What the code of an expression loads.

Code for an expression stores nothing.  What it loads are elements of arrays, whose addresses are in
counted registers, and the variables that `Expr.reads` names, from the slots that stand for them
(`Fetches`).  A variable alone is not loaded before its value is asked for: up to then it is the
address of its slot (`Expr.addressReads`).
-/

namespace Pseudocode

variable {storage : Storage}

theorem Expr.addressReads_subset (e : Expr) : e.addressReads ⊆ e.reads := by
  cases e <;> simp [Expr.addressReads, Expr.reads]

namespace Lower

open Ir

/-- Is the address one in an array, or that of the slot of one of these variables? -/
def Source (scope : Scope) (storage : Storage) (names : List String) (ptr : Value) : Prop :=
  ∀ name ty, ptr = .register name ty → (∃ k, name = Draft.tempName k) ∨
    ∃ y ∈ names, ∃ slot, storage[(⟨y, scope⟩ : Symbol)]? = some slot ∧ slot.address = ptr

/-- An instruction that stores nothing, and loads no variable but these. -/
structure Fetches (scope : Scope) (storage : Storage) (names : List String) (i : Instr) : Prop where
  stores : i.storesTo? = none
  loads : ∀ dest ty ptr, i = .load dest ty ptr → Source scope storage names ptr

/-- Nothing but such instructions has been added. -/
structure Fetching (scope : Scope) (names : List String) (s s' : State) : Prop where
  code : ∃ is, s'.function = s.function.extend is ∧ ∀ i ∈ is, Fetches scope s.storage names i
  storage : s'.storage = s.storage

variable {α β : Type} {scope : Scope} {names more : List String} {s s₁ s' : State} {v : Value}
  {u : Unit}

theorem Source.mono {ptr : Value} (h : Source scope storage names ptr) (hsub : names ⊆ more) :
    Source scope storage more ptr := by
  intro name ty hptr
  refine (h name ty hptr).imp_right ?_
  rintro ⟨y, hy, hslot⟩
  exact ⟨y, hsub hy, hslot⟩

theorem source_slot {y : String} {slot : Slot} (hslot : storage[(⟨y, scope⟩ : Symbol)]? = some slot)
    (hy : y ∈ names) : Source scope storage names slot.address :=
  fun _ _ _ => Or.inr ⟨y, hy, slot, hslot, rfl⟩

theorem source_next (s : State) (ty : Ir.Ty) :
    Source scope storage names (.register s.next ty) := by
  intro name ty' heq
  exact Or.inl ⟨s.function.nextTemp, (Value.register.inj heq).1.symm⟩

namespace Fetching

theorem refl (s : State) : Fetching scope names s s :=
  ⟨⟨[], (FunctionDraft.extend_nil _).symm, by simp⟩, rfl⟩

theorem trans (h : Fetching scope names s s₁) (h' : Fetching scope names s₁ s') :
    Fetching scope names s s' := by
  obtain ⟨is, his, hall⟩ := h.code
  obtain ⟨js, hjs, hall'⟩ := h'.code
  rw [h.storage] at hall'
  refine ⟨⟨is ++ js, by rw [hjs, his, FunctionDraft.extend_extend], ?_⟩, h'.storage.trans h.storage⟩
  intro i hi
  exact (List.mem_append.mp hi).elim (hall i) (hall' i)

theorem mono (h : Fetching scope names s s') (hsub : names ⊆ more) : Fetching scope more s s' := by
  obtain ⟨is, his, hall⟩ := h.code
  exact ⟨⟨is, his,
    fun i hi => ⟨(hall i hi).stores,
      fun dest ty ptr heq => ((hall i hi).loads dest ty ptr heq).mono hsub⟩⟩,
    h.storage⟩

theorem emit {i : Instr} (hstores : i.storesTo? = none)
    (hloads : ∀ dest ty ptr, i ≠ .load dest ty ptr) : Fetching scope names s (s.emit [i]) := by
  refine ⟨⟨[i], rfl, ?_⟩, rfl⟩
  intro j hj
  rw [List.mem_singleton.mp hj]
  exact ⟨hstores, fun dest ty ptr heq => absurd heq (hloads dest ty ptr)⟩

theorem load {ptr : Value} (hptr : Source scope s.storage names ptr) (h : Runs (load ptr) s v s') :
    Fetching scope names s s' := by
  obtain ⟨ty, -, -, rfl⟩ := runs_load.1 h
  refine ⟨⟨_, rfl, ?_⟩, rfl⟩
  intro i hi
  rw [List.mem_singleton.mp hi]
  refine ⟨rfl, fun dest ty' ptr' heq => ?_⟩
  rw [← (Instr.load.inj heq).2.2]
  exact hptr

end Fetching

/-- Does the computation add nothing but such instructions? -/
def OnlyFetches (scope : Scope) (names : List String) (m : Lowering α) : Prop :=
  ∀ s a s', Runs m s a s' → Fetching scope names s s'

/-- Does the lowering of a part of an expression add nothing but such instructions?  If it gives an
address, it is one of what may be loaded next. -/
def FetchesPart (scope : Scope) (names next : List String) (part : Lowering Operand) : Prop :=
  ∀ s o s', Runs part s o s' → Fetching scope names s s' ∧ ∀ ptr, o = .address ptr →
    Source scope s.storage next ptr

namespace OnlyFetches

theorem pure (a : α) : OnlyFetches scope names (pure a : Lowering α) := by
  intro s b s' h
  rw [(runs_pure.1 h).2]
  exact .refl s

theorem get : OnlyFetches scope names (get : Lowering State) := by
  intro s t s' h
  rw [(runs_get.1 h).2]
  exact .refl s

theorem invalid (fault : OperandFault) : OnlyFetches scope names (invalid fault : Lowering α) :=
  fun _ _ _ h => absurd h not_runs_invalid

theorem bind {m : Lowering α} {f : α → Lowering β} (hm : OnlyFetches scope names m)
    (hf : ∀ a, OnlyFetches scope names (f a)) : OnlyFetches scope names (m >>= f) := by
  intro s b s' h
  obtain ⟨a, s₁, hfirst, hnext⟩ := runs_bind.1 h
  exact (hm s a s₁ hfirst).trans (hf a s₁ b s' hnext)

theorem mono {m : Lowering α} (h : OnlyFetches scope names m) (hsub : names ⊆ more) :
    OnlyFetches scope more m :=
  fun s a s' hrun => (h s a s' hrun).mono hsub

/-! ### Steps -/

theorem arith (op : ArithOp) (lhs rhs : Value) : OnlyFetches scope names (arith op lhs rhs) := by
  intro s v s' h
  rw [(runs_arith.1 h).2]
  exact .emit rfl (by simp)

theorem icmp (pred : IntPred) (lhs rhs : Value) : OnlyFetches scope names (icmp pred lhs rhs) := by
  intro s v s' h
  rw [(runs_icmp.1 h).2]
  exact .emit rfl (by simp)

theorem fcmp (pred : FloatPred) (lhs rhs : Value) :
    OnlyFetches scope names (fcmp pred lhs rhs) := by
  intro s v s' h
  rw [(runs_fcmp.1 h).2]
  exact .emit rfl (by simp)

theorem cast (op : CastOp) (value : Value) (target : Ir.Ty) :
    OnlyFetches scope names (cast op value target) := by
  intro s v s' h
  rw [(runs_cast.1 h).2]
  exact .emit rfl (by simp)

theorem offset (base index : Value) : OnlyFetches scope names (offset base index) := by
  intro s v s' h
  obtain ⟨ty, -, -, rfl⟩ := runs_offset.1 h
  exact .emit rfl (by simp)

theorem firstByte (global : Value) : OnlyFetches scope names (firstByte global) := by
  intro s v s' h
  obtain ⟨f, hgep, rfl⟩ := runs_tryInstr.1 h
  obtain ⟨_, _, _, _, _, rfl⟩ := gep_eq_ok.1 hgep
  exact .emit rfl (by simp)

theorem format (ty : Ty) : OnlyFetches scope names (format ty) := by
  intro s v s' h
  obtain ⟨global, -, hbyte⟩ := runs_format.1 h
  exact firstByte global s v s' hbyte

theorem call (callee : String) (signature : Signature) (args : List Value) :
    OnlyFetches scope names (call callee signature args) := by
  intro s v s' h
  obtain ⟨-, -, rfl⟩ := runs_call.1 h
  exact .emit rfl (by simp)

theorem run (callee : String) (signature : Signature) (args : List Value) :
    OnlyFetches scope names (run callee signature args) := by
  intro s u s' h
  obtain ⟨_, hcall, -⟩ := runs_bind_pure.1 h
  obtain ⟨-, rfl⟩ := runs_onFunction.1 hcall
  by_cases hvoid : signature.ret = .void
  · rw [FunctionDraft.call, if_pos hvoid]
    exact .emit rfl (by simp)
  · rw [call_eq hvoid]
    exact .emit rfl (by simp)

theorem accrues (scope : Scope) : Accrues fun names => OnlyFetches scope names where
  pure := pure
  invalid _ := invalid
  bind hm hf :=
  bind (hm.mono (List.subset_append_left _ _)) fun a => (hf a).mono (List.subset_append_right _ _)
  look _ hf := bind get hf
  arith := arith
  icmp := icmp
  fcmp := fcmp
  cast := cast
  offset := offset
  firstByte := firstByte
  call := call
  run := run
  format := format

theorem of_nil {m : Lowering α} (h : OnlyFetches scope [] m) : OnlyFetches scope names m :=
  h.mono (List.nil_subset names)

theorem byteCount (size : Nat) : OnlyFetches scope names (byteCount size) :=
  of_nil ((accrues scope).byteCount size)

theorem malloc (size : Value) : OnlyFetches scope names (malloc size) :=
  of_nil ((accrues scope).malloc size)

theorem realloc (old size : Value) : OnlyFetches scope names (realloc old size) :=
  of_nil ((accrues scope).realloc old size)

theorem memcpy (dest source size : Value) : OnlyFetches scope names (memcpy dest source size) :=
  of_nil ((accrues scope).memcpy dest source size)

theorem convert (value : Value) (want : Ty) : OnlyFetches scope names (convert value want) :=
  of_nil ((accrues scope).convert value want)

/-! ### Expressions -/

variable {next leftNames rightNames : List String} {lhs rhs part : Lowering Operand}

/-- To get at a value its operand is loaded, if it is an address. -/
theorem fetch (h : FetchesPart scope names next part) (hnames : names ⊆ next) (want : Ty) :
    OnlyFetches scope next (fetch part want) := by
  intro s v s' hrun
  obtain ⟨o, s₁, hpart, hnext⟩ := runs_bind.1 hrun
  obtain ⟨hfirst, hsource⟩ := h s o s₁ hpart
  refine (hfirst.mono hnames).trans ?_
  cases o with
  | value value => exact convert value want s₁ v s' hnext
  | address ptr =>
    obtain ⟨loaded, s₂, hload, hconvert⟩ := runs_bind.1 hnext
    refine (Fetching.load ?_ hload).trans (convert loaded want s₂ v s' hconvert)
    rw [hfirst.storage]
    exact hsource ptr rfl

/-- For an element, the variable of the array is loaded, and its index is found.  Its address is a
new one. -/
theorem elementAddress {name : String} (h : ∀ want, OnlyFetches scope names (Lower.fetch part want))
    (hname : name ∈ names) (hrun : Runs (elementAddress ⟨name, scope⟩ part) s v s') :
    Fetching scope names s s' ∧ ∃ t : State, ∃ ty, v = .register t.next ty := by
  obtain ⟨slot, ty, first, index, s₁, s₂, hslot, -, hload, hindex, hoffset⟩ :=
    runs_elementAddress hrun
  refine ⟨(Fetching.load (source_slot hslot hname) hload).trans
    ((h .int s₁ index s₂ hindex).trans (offset _ _ s₂ v s' hoffset)), s₂, ?_⟩
  obtain ⟨t, -, hv, -⟩ := runs_offset.1 hoffset
  exact ⟨_, hv⟩

theorem fetch_of_part {e : Expr} (h : FetchesPart scope e.addressReads e.reads (operand scope e))
    (hsub : e.reads ⊆ names) (want : Ty) :
    OnlyFetches scope names (Lower.fetch (operand scope e) want) :=
  (fetch h (Expr.addressReads_subset e) want).mono hsub

theorem part_of_value {m : Lowering Value} (hm : OnlyFetches scope names m) {next : List String}
    {o : Operand} (h : Runs (do return .value (← m)) s o s') :
    Fetching scope names s s' ∧ ∀ ptr, o = .address ptr → Source scope s.storage next ptr := by
  obtain ⟨v, hvalue, rfl⟩ := runs_bind_pure.1 h
  exact ⟨hm s v _ hvalue, by simp⟩

mutual

/-- **What an expression loads.** -/
theorem operand_part (scope : Scope) (e : Expr) :
    FetchesPart scope e.addressReads e.reads (operand scope e) := by
  intro s o s' h
  cases e with
  | constant value shape =>
    cases value with
    | int value =>
      rw [operand] at h
      obtain ⟨rfl, rfl⟩ := runs_pure.1 h
      exact ⟨.refl _, by simp⟩
    | double value =>
      rw [operand] at h
      obtain ⟨rfl, rfl⟩ := runs_pure.1 h
      exact ⟨.refl _, by simp⟩
    | string text =>
      rw [operand] at h
      obtain ⟨global, s₁, hintern, hnext⟩ := runs_bind.1 h
      obtain ⟨hbytes, hsource⟩ := part_of_value (firstByte global) hnext
      have hsame : s₁.function = s.function ∧ s₁.storage = s.storage := by
        obtain ⟨-, rfl⟩ := runs_modifyGet.1 hintern
        exact ⟨rfl, rfl⟩
      obtain ⟨is, his, hall⟩ := hbytes.code
      rw [hsame.1] at his
      rw [hsame.2] at hall hsource
      exact ⟨⟨⟨is, his, hall⟩, hbytes.storage.trans hsame.2⟩, hsource⟩
  | var name shape =>
    rw [operand] at h
    obtain ⟨address, haddress, rfl⟩ := runs_bind_pure.1 h
    obtain ⟨slot, _, hslot, -, rfl, rfl⟩ := runs_variableAddress haddress
    refine ⟨.refl _, fun ptr heq => ?_⟩
    rw [← Operand.address.inj heq]
    exact source_slot hslot List.mem_cons_self
  | element name index shape =>
    rw [operand] at h
    obtain ⟨address, haddress, rfl⟩ := runs_bind_pure.1 h
    have hindex :
      ∀ want, OnlyFetches scope (name :: index.reads) (Lower.fetch (operand scope index) want) :=
      fetch_of_part (operand_part scope index) (List.subset_cons_self _ _)
    obtain ⟨hfetching, t, ty, hv⟩ := elementAddress hindex List.mem_cons_self haddress
    refine ⟨hfetching, fun ptr heq => ?_⟩
    rw [← Operand.address.inj heq, hv]
    exact source_next t ty
  | binary op lhs rhs shape =>
    have hlhs := fetch_of_part (operand_part scope lhs) (List.Subset.refl _)
    have hrhs := fetch_of_part (operand_part scope rhs) (List.Subset.refl _)
    rw [operand] at h
    split at h
    · exact part_of_value ((accrues scope).compare (hlhs _) (hrhs _) op) h
    · split at h
      · exact part_of_value ((accrues scope).concat (hlhs _) (hrhs _) _ _ _) h
      · exact part_of_value ((accrues scope).calculate (hlhs _) (hrhs _) op) h
  | negate e shape =>
    rw [operand] at h
    exact part_of_value
      ((accrues scope).negate (fetch_of_part (operand_part scope e) (List.Subset.refl _) _)) h
  | call name args ty =>
    rw [operand] at h
    obtain ⟨sub, s₁, hsub, hnext⟩ := runs_bind.1 h
    obtain ⟨-, -, rfl⟩ := runs_subroutineOf hsub
    obtain ⟨values, s₂, hargs, hcall⟩ := runs_bind.1 hnext
    obtain ⟨hfetching, hsource⟩ := part_of_value (call name sub.signature values) hcall
    have hvalues := arguments scope args sub.params _ _ _ hargs
    rw [hvalues.storage] at hsource
    exact ⟨hvalues.trans hfetching, hsource⟩

theorem arguments (scope : Scope) (es : List Expr) (tys : List Ty) :
    OnlyFetches scope (readsAll es) (Lower.arguments scope es tys) := by
  cases es with
  | nil => exact pure _
  | cons e es =>
    cases tys with
    | nil => exact pure _
    | cons ty tys =>
      rw [Lower.arguments]
      refine bind (fetch_of_part (operand_part scope e) (List.subset_append_left _ _) ty)
        fun value => ?_
      exact bind ((arguments scope es tys).mono (List.subset_append_right _ _)) fun _ => pure _

end

theorem valueOf (scope : Scope) (e : Expr) (want : Ty) :
    OnlyFetches scope e.reads (Lower.valueOf scope e want) :=
  fetch_of_part (operand_part scope e) (List.Subset.refl _) want

theorem truthOf (scope : Scope) (e : Expr) : OnlyFetches scope e.reads (Lower.truthOf scope e) :=
  (accrues scope).truthOf (valueOf scope e _) fun _ lhs rhs _ _ => ⟨valueOf scope lhs _,
    valueOf scope rhs _⟩

/-! ### Printing and reading -/

theorem output (scope : Scope) (e : Expr) : OnlyFetches scope e.reads (Lower.output scope e) :=
  (accrues scope).output (valueOf scope e _)

/-- To read into an element its array is loaded, and to read into a string its buffer is. -/
theorem input {target : Target}
    (hvar : ∀ name shape slot, target = .var name shape →
      s.storage[(⟨name, scope⟩ : Symbol)]? = some slot → slot.kind = .scalar .string → name ∈ names)
    (helement : ∀ name index ty, target = .element name index ty → name :: index.reads ⊆ names)
    (h : Runs (Lower.input scope target) s u s') : Fetching scope names s s' := by
  obtain ⟨⟨ptr, ty⟩, s₁, hplace, hnext⟩ := runs_bind.1 h
  refine Fetching.trans ?_
    (bind (format _) (fun _ => of_nil ((accrues scope).scanf _)) s₁ u s' hnext)
  cases runs_inputPlace hplace with
  | buffer hslot hkind hload =>
    exact Fetching.load (source_slot hslot (hvar _ _ _ rfl hslot hkind)) hload
  | slot _ _ _ _ hs =>
    rw [hs]
    exact .refl s
  | element haddress =>
    have hsub := helement _ _ _ rfl
    have hindex :=
      fetch_of_part (operand_part scope _) (List.Subset.trans (List.subset_cons_self _ _) hsub)
    exact (elementAddress hindex (hsub List.mem_cons_self) haddress).1

end OnlyFetches

end Lower

end Pseudocode
