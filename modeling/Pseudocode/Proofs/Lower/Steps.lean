import Pseudocode.Lower.Program
import Pseudocode.Proofs.Ir.Draft
import Pseudocode.Proofs.Run

/-!
What each step of code generation does.

Lowering is built from few steps, and each of them is described here once: when it succeeds, what it
gives, and which state it leaves behind.  Most of them add one instruction, whose result goes into
the register that comes next (`State.emit`).  Later proofs take a run apart by these laws and never
look at how a step is made.
-/

namespace Pseudocode.Lower

open Ir

variable {ptr v value lhs rhs base : Value} {f g : FunctionDraft} {u : Unit} {size block : Nat}
  {callee : String} {signature : Signature} {args : List Value} {symbol : Symbol}

/-- The state after instructions have been added to the current block. -/
def State.emit (s : State) (is : List Instr) : State :=
  { s with function := s.function.extend is }

/-- The register that comes next. -/
def State.next (s : State) : String :=
  s.function.nextRegister

namespace State

@[simp] theorem emit_module (s : State) (is : List Instr) : (s.emit is).module = s.module := rfl

@[simp] theorem emit_routines (s : State) (is : List Instr) : (s.emit is).routines = s.routines :=
  rfl

@[simp] theorem emit_storage (s : State) (is : List Instr) : (s.emit is).storage = s.storage := rfl

@[simp] theorem emit_subroutines (s : State) (is : List Instr) :
    (s.emit is).subroutines = s.subroutines := rfl

@[simp] theorem emit_function (s : State) (is : List Instr) :
    (s.emit is).function = s.function.extend is := rfl

theorem emit_nil (s : State) : s.emit [] = s := by
  rw [emit, FunctionDraft.extend_nil]

theorem emit_emit (s : State) (is js : List Instr) : (s.emit is).emit js = s.emit (is ++ js) := by
  show { s with function := (s.function.extend is).extend js } = _
  rw [FunctionDraft.extend_extend]
  rfl

end State

variable {s s' : State} {α β : Type} {a : α}

/-! ### Changes of the function -/

theorem not_runs_invalid {fault : OperandFault} : ¬ Runs (invalid fault) s a s' :=
  not_runs_throw

theorem runs_onFunction {change : FunctionDraft → α × FunctionDraft} :
    Runs (onFunction change) s a s' ↔
      a = (change s.function).1 ∧ s' = { s with function := (change s.function).2 } := by
  rw [onFunction, runs_modifyGet, Prod.mk.injEq, eq_comm, @eq_comm _ s']

theorem runs_onFunction_bind {change : FunctionDraft → β × FunctionDraft} {k : β → Lowering α} :
    Runs (onFunction change >>= k) s a s' ↔
      Runs (k (change s.function).1) { s with function := (change s.function).2 } a s' :=
  Iff.rfl

theorem runs_tryFunction {change : FunctionDraft → Except OperandFault (α × FunctionDraft)} :
    Runs (tryFunction change) s a s' ↔
      ∃ f, change s.function = .ok (a, f) ∧ s' = { s with function := f } := by
  rw [tryFunction, runs_get_bind]
  rcases change s.function with fault | ⟨b, f⟩
  · simp [not_runs_invalid]
  · simp only [runs_modify_bind, runs_pure, Except.ok.injEq, Prod.mk.injEq]
    simp [eq_comm]

/-- A step that may be refused runs where the draft accepts it. -/
theorem runs_tryInstr {change : FunctionDraft → Except Fault (α × FunctionDraft)} :
    Runs (tryInstr change) s a s' ↔ ∃ f, change s.function = .ok (a, f) ∧
    s' = { s with function := f } := by
  simp only [tryInstr, runs_tryFunction, mapError_eq_ok]

/-! ### Instructions -/

theorem pointee?_eq_some {ty t : Ir.Ty} : ty.pointee? = some t ↔ ty = .ptr t := by
  cases ty <;> simp [Ir.Ty.pointee?]

theorem load_eq_ok :
    f.load ptr = .ok (v, g) ↔
      ∃ ty, ptr.ty = .ptr ty ∧ v = .register f.nextRegister ty ∧
      g = f.extend [.load f.nextRegister ty ptr] := by
  simp only [← pointee?_eq_some]
  rw [FunctionDraft.load]
  cases ptr.ty.pointee? with
  | none => simp
  | some ty =>
    have hnext : f.compute ty (fun dest => .load dest ty ptr) = _ := f.compute_eq rfl
    simp [hnext, eq_comm]

/-- A load takes a pointer, and its result has the type pointed to. -/
theorem runs_load :
    Runs (load ptr) s v s' ↔
      ∃ ty, ptr.ty = .ptr ty ∧ v = .register s.next ty ∧ s' = s.emit [.load s.next ty ptr] := by
  simp only [load, runs_tryInstr, load_eq_ok]
  constructor
  · rintro ⟨f, ⟨ty, hty, hv, rfl⟩, hs⟩
    exact ⟨ty, hty, hv, hs⟩
  · rintro ⟨ty, hty, hv, hs⟩
    exact ⟨_, ⟨ty, hty, hv, rfl⟩, hs⟩

theorem checkStore_eq_ok : FunctionDraft.checkStore value ptr = .ok u ↔ ptr.ty = .ptr value.ty := by
  simp [FunctionDraft.checkStore]

theorem store_eq_ok : f.store value ptr = .ok g ↔ ptr.ty = .ptr value.ty ∧
    g = f.extend [.store value ptr] := by
  simp only [FunctionDraft.store, bind_eq_ok, checkStore_eq_ok, pure_eq_ok, exists_const]
  exact Iff.rfl

/-- A store takes a pointer to the type of the value. -/
theorem runs_store :
    Runs (store value ptr) s u s' ↔ ptr.ty = .ptr value.ty ∧ s' = s.emit [.store value ptr] := by
  simp [store, runs_tryInstr, map_eq_ok, store_eq_ok, State.emit]

theorem runs_storeFirst :
    Runs (storeFirst value ptr) s u s' ↔
      ptr.ty = .ptr value.ty ∧
        s' = { s with function := { s.function with
          prologue := s.function.prologue.push (.store value ptr) } } := by
  simp only [storeFirst, runs_tryInstr, map_eq_ok, FunctionDraft.storeFirst, bind_eq_ok,
    checkStore_eq_ok, pure_eq_ok]
  simp

theorem runs_arith {op : ArithOp} :
    Runs (arith op lhs rhs) s v s' ↔
      v = .register s.next lhs.ty ∧ s' = s.emit [.arith s.next op lhs rhs] := by
  rw [arith, runs_onFunction, FunctionDraft.arith, FunctionDraft.compute_eq _ rfl]
  rfl

theorem runs_icmp {pred : IntPred} :
    Runs (icmp pred lhs rhs) s v s' ↔
      v = .register s.next .i1 ∧ s' = s.emit [.icmp s.next pred lhs rhs] := by
  rw [icmp, runs_onFunction, FunctionDraft.icmp, FunctionDraft.compute_eq _ rfl]
  rfl

theorem runs_fcmp {pred : FloatPred} :
    Runs (fcmp pred lhs rhs) s v s' ↔
      v = .register s.next .i1 ∧ s' = s.emit [.fcmp s.next pred lhs rhs] := by
  rw [fcmp, runs_onFunction, FunctionDraft.fcmp, FunctionDraft.compute_eq _ rfl]
  rfl

theorem runs_cast {op : CastOp} {target : Ir.Ty} :
    Runs (cast op value target) s v s' ↔
      v = .register s.next target ∧ s' = s.emit [.cast s.next op value target] := by
  rw [cast, runs_onFunction, FunctionDraft.cast, FunctionDraft.compute_eq _ rfl]
  rfl

theorem gep_eq_ok {indices : List Value} {inbounds : Bool} :
    f.gep base indices inbounds = .ok (v, g) ↔
      ∃ ty t, base.ty = .ptr ty ∧ FunctionDraft.stepInto ty (indices.length - 1) = .ok t ∧
        v = .register f.nextRegister (.ptr t) ∧
        g = f.extend [.gep f.nextRegister (.ptr t) base indices inbounds] := by
  simp only [← pointee?_eq_some]
  rw [FunctionDraft.gep]
  cases base.ty.pointee? with
  | none => simp
  | some ty =>
    simp only [bind_eq_ok, pure_eq_ok, Option.some.injEq, exists_and_left, exists_eq_left']
    refine exists_congr fun t => and_congr_right fun _ => ?_
    rw [FunctionDraft.compute_eq f rfl, Prod.mk.injEq]

theorem runs_offset {index : Value} :
    Runs (offset base index) s v s' ↔
      ∃ ty, base.ty = .ptr ty ∧ v = .register s.next (.ptr ty) ∧
        s' = s.emit [.gep s.next (.ptr ty) base [index] false] := by
  simp [offset, runs_tryInstr, gep_eq_ok, FunctionDraft.stepInto, State.emit, State.next, and_assoc]

/-- The instruction that gives the address of the first byte of a constant string. -/
def firstByteInstr (dest : String) (global : Value) : Instr :=
  .gep dest .bytes global [.i32 0, .i32 0] true

theorem runs_firstByte {global : Value} (hglobal : global.ty = .ptr (.array size .i8)) :
    Runs (firstByte global) s v s' ↔
      v = .register s.next .bytes ∧ s' = s.emit [firstByteInstr s.next global] := by
  simp only [firstByte, runs_tryInstr, Routines.firstByte, gep_eq_ok, hglobal]
  simp [FunctionDraft.stepInto, Ir.Ty.element?]
  exact Iff.rfl

theorem format_eq_ok {routines : Routines} {ty : Ty} :
    routines.format ty f = .ok (v, g) ↔
      ∃ global, routines.format? ty = some global ∧ Routines.firstByte global f = .ok (v, g) := by
  rw [Routines.format]
  cases routines.format? ty <;> simp [mapError_eq_ok]

theorem runs_format {ty : Ty} :
    Runs (format ty) s v s' ↔ ∃ global, s.routines.format? ty = some global ∧
    Runs (firstByte global) s v s' := by
  simp only [format, runs_get_bind, runs_tryFunction, format_eq_ok, firstByte, runs_tryInstr]
  exact ⟨fun ⟨f, ⟨global, hglobal, hf⟩, hs⟩ => ⟨global, hglobal, f, hf, hs⟩,
    fun ⟨global, hglobal, f, hf, hs⟩ => ⟨f, ⟨global, hglobal, hf⟩, hs⟩⟩

/-! ### Calls -/

theorem call_eq (h : signature.ret ≠ .void) :
    f.call callee signature args = (some (.register f.nextRegister signature.ret),
      f.extend [.call (some f.nextRegister) callee signature args]) := by
  rw [FunctionDraft.call, if_neg h, FunctionDraft.compute_eq _ rfl]

theorem runs_run (h : signature.ret ≠ .void) :
    Runs (run callee signature args) s u s' ↔
      s' = s.emit [.call (some s.next) callee signature args] := by
  rw [run, runs_onFunction_bind, runs_pure, call_eq h]
  exact and_iff_right rfl

/-- A call for a value adds one instruction, and the callee must not be void. -/
theorem runs_call :
    Runs (call callee signature args) s v s' ↔
      signature.ret ≠ .void ∧ v = .register s.next signature.ret ∧
        s' = s.emit [.call (some s.next) callee signature args] := by
  rw [call, runs_onFunction_bind]
  by_cases hvoid : signature.ret = .void
  · simp [FunctionDraft.call, hvoid, not_runs_invalid]
  · simp only [call_eq hvoid, runs_pure, ne_eq, hvoid, not_false_eq_true, true_and]
    exact Iff.rfl

theorem runs_word : Runs (word size) s v s' ↔ size < 0x80000000 ∧ v = .i32 size ∧ s' = s := by
  rw [word]
  split <;> simp [runs_pure, not_runs_invalid, *]

theorem runs_byteCount :
    Runs (byteCount size) s v s' ↔
      size < 0x80000000 ∧ v = .register s.next .i64 ∧
      s' = s.emit [.cast s.next .sext (.i32 size) .i64] := by
  simp [byteCount, runs_bind, runs_word, runs_cast, and_assoc]

/-! ### Blocks -/

theorem runs_createBlock {hint : String} {n : Nat} :
    Runs (createBlock hint) s n s' ↔
      n = s.function.blocks.size ∧ s' = { s with function := (s.function.createBlock hint).2 } :=
  runs_onFunction

theorem runs_switchTo :
    Runs (switchTo block) s u s' ↔ s' = { s with function := s.function.switchTo block } := by
  simp [switchTo, runs_onFunction]

theorem runs_branch : Runs (branch block) s u s' ↔
    s' = { s with function := s.function.branch block } := by
  simp [branch, runs_onFunction]

theorem runs_condBranch {condition : Value} {ifTrue ifFalse : Nat} :
    Runs (condBranch condition ifTrue ifFalse) s u s' ↔
      s' = { s with function := s.function.condBranch condition ifTrue ifFalse } := by
  simp [condBranch, runs_onFunction]

theorem runs_leave : Runs (leave value) s u s' ↔
    s' = { s with function := s.function.leave (some value) } := by
  simp [leave, runs_onFunction]

/-- A block that is still open is left for the next one. -/
theorem runs_fallThrough :
    Runs (fallThrough block) s u s' ↔
      s' = if s.function.isTerminated then s
        else { s with function := s.function.branch block } := by
  rw [fallThrough, runs_get_bind]
  cases s.function.isTerminated <;> simp [runs_branch, runs_pure]

/-! ### Slots and types -/

theorem runs_reserve {name : String} {ty : Ir.Ty} :
    Runs (reserve name ty) s v s' ↔
      v = .register (Draft.freshName s.function.taken (name ++ ".slot")) (.ptr ty) ∧
        s' = { s with function := (s.function.reserve (name ++ ".slot") ty).2 } :=
  runs_onFunction

/-- The slot of a symbol is the one that storage holds for it. -/
theorem runs_slotOf {slot : Slot} :
    Runs (slotOf symbol) s slot s' ↔ s.storage[symbol]? = some slot ∧ s' = s := by
  rw [slotOf, runs_get_bind]
  cases s.storage[symbol]? with
  | none => simp [not_runs_throw]
  | some found => simp [runs_pure, eq_comm]

theorem runs_slotOf_bind {k : Slot → Lowering α} :
    Runs (slotOf symbol >>= k) s a s' ↔ ∃ slot, s.storage[symbol]? = some slot ∧
    Runs (k slot) s a s' := by
  simp [runs_bind, runs_slotOf, and_assoc]

theorem runs_elementTy {ty : Ty} (h : Runs (elementTy symbol) s ty s') :
    ∃ slot, s.storage[symbol]? = some slot ∧ slot.kind = .array ty ∧ s' = s := by
  obtain ⟨slot, hslot, hrun⟩ := runs_slotOf_bind.1 h
  cases hkind : slot.kind <;> simp only [hkind] at hrun
  · exact absurd hrun not_runs_invalid
  · obtain ⟨rfl, rfl⟩ := runs_pure.1 hrun
    exact ⟨slot, hslot, hkind, rfl⟩

theorem runs_variableAddress (h : Runs (variableAddress symbol) s v s') :
    ∃ slot ty, s.storage[symbol]? = some slot ∧ slot.kind = .scalar ty ∧ v = slot.address ∧
    s' = s := by
  obtain ⟨slot, hslot, hrun⟩ := runs_slotOf_bind.1 h
  cases hkind : slot.kind <;> simp only [hkind] at hrun
  · exact ⟨slot, _, hslot, hkind, runs_pure.1 hrun⟩
  · exact absurd hrun not_runs_invalid

/-- The address of an element is its index past the address that the slot holds. -/
theorem runs_elementAddress {part : Lowering Operand}
    (h : Runs (elementAddress symbol part) s v s') :
    ∃ slot ty first index s₁ s₂, s.storage[symbol]? = some slot ∧ slot.kind = .array ty ∧
      Runs (load slot.address) s first s₁ ∧ Runs (fetch part .int) s₁ index s₂ ∧
      Runs (offset first index) s₂ v s' := by
  obtain ⟨slot, hslot, hrun⟩ := runs_slotOf_bind.1 h
  cases hkind : slot.kind <;> simp only [hkind] at hrun
  · exact absurd hrun not_runs_invalid
  · simp only [runs_bind] at hrun
    obtain ⟨first, s₁, hload, index, s₂, hindex, hoffset⟩ := hrun
    exact ⟨slot, _, first, index, s₁, s₂, hslot, hkind, hload, hindex, hoffset⟩

/-- A subroutine that is called has been declared, and takes as many arguments as it is given. -/
theorem runs_subroutineOf {scope : Scope} {name : String} {found : Nat} {sub : Subroutine}
    (h : Runs (subroutineOf scope name found) s sub s') :
    s.subroutines[name]? = some sub ∧ found = sub.params.length ∧ s' = s := by
  rw [subroutineOf, runs_get_bind] at h
  cases hsub : s.subroutines[name]? with
  | none =>
    simp only [hsub] at h
    exact absurd h not_runs_throw
  | some declared =>
    simp only [hsub] at h
    by_cases hlen : found = declared.params.length
    · rw [if_pos hlen] at h
      obtain ⟨rfl, rfl⟩ := runs_pure.1 h
      exact ⟨rfl, hlen, rfl⟩
    · rw [if_neg hlen] at h
      exact absurd h not_runs_throw

theorem runs_setSlot {slot : Slot} :
    Runs (setSlot symbol slot) s u s' ↔ s' = { s with storage := s.storage.insert symbol slot } :=
  runs_modify

/-- The type that values of a type have in generated code, if there are such values. -/
def irTy? : Ty → Option Ir.Ty
  | .int => some .i32
  | .double => some .double
  | .string => some .bytes
  | .undetermined => none

theorem runs_irTy {ty : Ty} {t : Ir.Ty} : Runs (irTy ty) s t s' ↔ irTy? ty = some t ∧ s' = s := by
  cases ty with
  | undetermined => exact ⟨fun h => absurd h not_runs_invalid, fun h => by simp [irTy?] at h⟩
  | _ =>
    rw [irTy, irTy?, runs_pure, Option.some.injEq]
    simp [eq_comm]

/-- A value is converted by at most one cast, to the type that is wanted. -/
theorem runs_convert {want : Ty} (h : Runs (convert value want) s v s') :
    ∃ target, irTy? want = some target ∧ (value.ty = target ∧ v = value ∧ s' = s ∨
      ∃ op, castOp? value.ty target = some op ∧ Runs (cast op value target) s v s') := by
  obtain ⟨target, s₁, hty, hrun⟩ := runs_bind.1 h
  obtain ⟨htarget, rfl⟩ := runs_irTy.1 hty
  refine ⟨target, htarget, ?_⟩
  by_cases heq : value.ty = target
  · rw [if_pos heq] at hrun
    exact Or.inl ⟨heq, runs_pure.1 hrun⟩
  · rw [if_neg heq] at hrun
    split at hrun
    · next op hop => exact Or.inr ⟨op, hop, hrun⟩
    · exact absurd hrun not_runs_invalid

end Pseudocode.Lower
