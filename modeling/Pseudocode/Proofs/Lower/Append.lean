import Pseudocode.Proofs.Lower.Accrual
import Pseudocode.Proofs.Lower.Steps

/-!
Lowering an expression only appends.

Whatever becomes of it, the lowering of an expression adds instructions to the current block and may
intern strings.  The slots, the subroutines, the other blocks and the log are as they were.  That
holds of a run that fails as well, since the state outlives an error, and so it is stated of every
outcome.
-/

namespace Pseudocode

open Lower Ir

namespace Lower

/-- `s'` is `s` with instructions added to the current block and strings interned. -/
structure Appends (s s' : State) : Prop where
  function : ∃ is, s'.function = s.function.extend is
  globals : s.module.globals.toList <+: s'.module.globals.toList
  module : s'.module = { s.module with
    globals := s'.module.globals
    index := s'.module.index
    nextString := s'.module.nextString
    inStep := s'.module.inStep }
  routines : s'.routines = s.routines
  storage : s'.storage = s.storage
  subroutines : s'.subroutines = s.subroutines
  log : s'.log = s.log

namespace Appends

theorem refl (s : State) : Appends s s :=
  ⟨⟨[], (FunctionDraft.extend_nil _).symm⟩, List.prefix_refl _, rfl, rfl, rfl, rfl, rfl⟩

theorem trans {s s₁ s₂ : State} (h₁ : Appends s s₁) (h₂ : Appends s₁ s₂) : Appends s s₂ := by
  obtain ⟨is, his⟩ := h₁.function
  obtain ⟨js, hjs⟩ := h₂.function
  refine ⟨⟨is ++ js, ?_⟩, h₁.globals.trans h₂.globals, ?_, h₂.routines.trans h₁.routines,
    h₂.storage.trans h₁.storage, h₂.subroutines.trans h₁.subroutines, h₂.log.trans h₁.log⟩
  · rw [hjs, his, FunctionDraft.extend_extend]
  · have hm := h₂.module
    rw [h₁.module] at hm
    exact hm

theorem emit (s : State) (is : List Instr) : Appends s (s.emit is) :=
  ⟨⟨is, rfl⟩, List.prefix_refl _, rfl, rfl, rfl, rfl, rfl⟩

theorem functions {s s' : State} (h : Appends s s') : s'.module.functions = s.module.functions := by
  rw [h.module]

theorem intern (s : State) (name? : Option String) (text : String) :
    Appends s { s with module := (s.module.intern name? text).2 } := by
  have hpush : ∀ g : Global, s.module.globals.toList <+: (s.module.addString g).globals.toList := by
    intro g
    rw [ModuleDraft.toList_addString]
    exact List.prefix_append _ _
  rw [ModuleDraft.intern.eq_def]
  dsimp only
  split
  · exact refl s
  · split
    · exact ⟨⟨[], (FunctionDraft.extend_nil _).symm⟩, hpush _, rfl, rfl, rfl, rfl, rfl⟩
    · exact ⟨⟨[], (FunctionDraft.extend_nil _).symm⟩, hpush _, rfl, rfl, rfl, rfl, rfl⟩

end Appends

/-- Does the computation only append, whether it succeeds or fails? -/
class OnlyAppends {α : Type} (m : Lowering α) : Prop where
  appends (s : State) : Appends s (outcome m s).2

end Lower

theorem Runs.appends {α : Type} {m : Lowering α} [OnlyAppends m] {s s' : State} {a : α}
    (h : Runs m s a s') : Appends s s' := by
  have happends := OnlyAppends.appends (m := m) s
  rwa [h] at happends

namespace Lower

namespace OnlyAppends

variable {α β : Type}

/-! ### Steps -/

theorem pure (a : α) : OnlyAppends (pure a : Lowering α) :=
  ⟨fun s => Appends.refl s⟩

theorem throw (e : LowerError) : OnlyAppends (throw e : Lowering α) :=
  ⟨fun s => Appends.refl s⟩

theorem get : OnlyAppends (get : Lowering State) :=
  ⟨fun s => Appends.refl s⟩

theorem bind {m : Lowering α} {f : α → Lowering β} (hm : OnlyAppends m)
    (hf : ∀ a, OnlyAppends (f a)) : OnlyAppends (m >>= f) := by
  refine ⟨fun s => ?_⟩
  rw [outcome_bind]
  rcases hout : outcome m s with ⟨r, s₁⟩
  have hs : Appends s s₁ := by
    have := hm.appends s
    rwa [hout] at this
  cases r with
  | error e => exact hs
  | ok a => exact hs.trans ((hf a).appends s₁)

theorem tryFunction {change : FunctionDraft → Except OperandFault (α × FunctionDraft)}
    (h : ∀ f a g, change f = .ok (a, g) → ∃ is, g = f.extend is) :
    OnlyAppends (tryFunction change) := by
  refine ⟨fun s => ?_⟩
  have hget : outcome (MonadState.get : Lowering State) s = (.ok s, s) := rfl
  cases hchange : change s.function with
  | error fault =>
    have hrun : (outcome (Lower.tryFunction change) s).2 = s := by
      simp only [Lower.tryFunction, outcome_bind, hget, hchange]
      rfl
    rw [hrun]
    exact Appends.refl s
  | ok r =>
    have hrun : (outcome (Lower.tryFunction change) s).2 = { s with function := r.2 } := by
      simp only [Lower.tryFunction, outcome_bind, hget, hchange]
      rfl
    obtain ⟨is, his⟩ := h s.function r.1 r.2 hchange
    rw [hrun]
    exact ⟨⟨is, his⟩, List.prefix_refl _, rfl, rfl, rfl, rfl, rfl⟩

theorem tryInstr {change : FunctionDraft → Except Fault (α × FunctionDraft)}
    (h : ∀ f a g, change f = .ok (a, g) → ∃ is, g = f.extend is) : OnlyAppends (tryInstr change) :=
  tryFunction fun f a g hchange => h f a g (mapError_eq_ok.1 hchange)

theorem onFunction {change : FunctionDraft → α × FunctionDraft}
    (h : ∀ f, ∃ is, (change f).2 = f.extend is) : OnlyAppends (onFunction change) :=
  ⟨fun s => ⟨h s.function, List.prefix_refl _, rfl, rfl, rfl, rfl, rfl⟩⟩

theorem invalid (fault : OperandFault) : OnlyAppends (invalid fault : Lowering α) :=
  throw _

/-! ### Instructions and calls -/

instance load (ptr : Value) : OnlyAppends (load ptr) := by
  refine tryInstr fun f v g hload => ?_
  obtain ⟨_, _, _, hg⟩ := load_eq_ok.1 hload
  exact ⟨_, hg⟩

instance store (value ptr : Value) : OnlyAppends (store value ptr) := by
  refine tryInstr fun f u g hmap => ?_
  obtain ⟨_, hstore, heq⟩ := map_eq_ok.1 hmap
  obtain ⟨-, rfl⟩ := Prod.mk.inj heq
  exact ⟨_, (store_eq_ok.1 hstore).2⟩

instance arith (op : ArithOp) (lhs rhs : Value) : OnlyAppends (arith op lhs rhs) :=
  onFunction fun f => ⟨[_], congrArg Prod.snd (f.compute_eq rfl)⟩

instance icmp (pred : IntPred) (lhs rhs : Value) : OnlyAppends (icmp pred lhs rhs) :=
  onFunction fun f => ⟨[_], congrArg Prod.snd (f.compute_eq rfl)⟩

instance fcmp (pred : FloatPred) (lhs rhs : Value) : OnlyAppends (fcmp pred lhs rhs) :=
  onFunction fun f => ⟨[_], congrArg Prod.snd (f.compute_eq rfl)⟩

instance cast (op : CastOp) (value : Value) (target : Ir.Ty) : OnlyAppends (cast op value target) :=
  onFunction fun f => ⟨[_], congrArg Prod.snd (f.compute_eq rfl)⟩

instance offset (base index : Value) : OnlyAppends (offset base index) := by
  refine tryInstr fun f v g hgep => ?_
  obtain ⟨_, _, _, _, _, hg⟩ := gep_eq_ok.1 hgep
  exact ⟨_, hg⟩

instance firstByte (global : Value) : OnlyAppends (firstByte global) := by
  refine tryInstr fun f v g hgep => ?_
  obtain ⟨_, _, _, _, _, hg⟩ := gep_eq_ok.1 hgep
  exact ⟨_, hg⟩

instance format (ty : Ty) : OnlyAppends (format ty) := by
  refine bind get fun s => tryFunction fun f v g hformat => ?_
  obtain ⟨_, _, hbyte⟩ := format_eq_ok.1 hformat
  obtain ⟨_, _, _, _, _, hg⟩ := gep_eq_ok.1 hbyte
  exact ⟨_, hg⟩

theorem call_extend (f : FunctionDraft) (callee : String) (signature : Signature)
    (args : List Value) : ∃ is, (f.call callee signature args).2 = f.extend is := by
  by_cases hvoid : signature.ret = .void
  · rw [FunctionDraft.call, if_pos hvoid]
    exact ⟨[.call none callee signature args], rfl⟩
  · rw [call_eq hvoid]
    exact ⟨_, rfl⟩

instance call (callee : String) (signature : Signature) (args : List Value) :
    OnlyAppends (call callee signature args) := by
  refine bind (onFunction fun f => call_extend f callee signature args) fun value? => ?_
  cases value? with
  | none => exact invalid _
  | some value => exact pure value

instance run (callee : String) (signature : Signature) (args : List Value) :
    OnlyAppends (run callee signature args) :=
  bind (onFunction fun f => call_extend f callee signature args) fun _ => pure _

theorem accrues : Accrues fun _ => OnlyAppends where
  pure := pure
  invalid _ := invalid
  bind := bind
  look _ hf := bind get hf
  arith := arith
  icmp := icmp
  fcmp := fcmp
  cast := cast
  offset := offset
  firstByte := firstByte
  call := call
  run := run
  format := format

instance byteCount (size : Nat) : OnlyAppends (byteCount size) :=
  accrues.byteCount size

instance malloc (size : Value) : OnlyAppends (malloc size) :=
  accrues.malloc size

instance realloc (old size : Value) : OnlyAppends (realloc old size) :=
  accrues.realloc old size

instance memcpy (dest source size : Value) : OnlyAppends (memcpy dest source size) :=
  accrues.memcpy dest source size

instance convert (value : Value) (want : Ty) : OnlyAppends (convert value want) :=
  accrues.convert value want

instance printf (args : List Value) : OnlyAppends (printf args) :=
  accrues.printf args

instance scanf (args : List Value) : OnlyAppends (scanf args) :=
  accrues.scanf args

instance irTy (ty : Ty) : OnlyAppends (irTy ty) :=
  accrues.irTy ty

instance slotOf (symbol : Symbol) : OnlyAppends (slotOf symbol) := by
  refine bind get fun s => ?_
  split
  · exact pure _
  · exact throw _

theorem subroutineOf (scope : Scope) (name : String) (found : Nat) :
    OnlyAppends (subroutineOf scope name found) := by
  refine bind get fun s => ?_
  split
  · exact throw _
  · split
    · exact pure _
    · exact throw _

/-! ### Expressions -/

theorem reads (scope : Scope) : Reads (fun _ => OnlyAppends) scope fun _ => True where
  toAccrues := accrues
  load := load
  slotOf _ := slotOf _
  subroutineOf _ _ hf _ := bind (subroutineOf scope _ _) hf

instance fetch {part : Lowering Operand} [h : OnlyAppends part] (want : Ty) :
    OnlyAppends (fetch part want) :=
  (reads .top).fetch [] h want

instance elementAddress {part : Lowering Operand} [h : OnlyAppends part] (symbol : Symbol) :
    OnlyAppends (elementAddress symbol part) :=
  (reads symbol.scope).elementAddress [] h symbol.name

theorem internText (text : String) : OnlyAppends (internText text) :=
  ⟨fun s => Appends.intern s none text⟩

/-- **Lowering an expression only appends.** -/
instance operand (scope : Scope) (e : Expr) : OnlyAppends (operand scope e) :=
  (reads scope).operand e (fun _ _ => trivial) fun text _ => internText text

instance arguments (scope : Scope) (es : List Expr) (tys : List Ty) :
    OnlyAppends (arguments scope es tys) :=
  (reads scope).arguments es tys (fun _ _ => trivial) fun text _ => internText text

instance valueOf (scope : Scope) (e : Expr) (want : Ty) : OnlyAppends (valueOf scope e want) :=
  fetch want

instance truthOf (scope : Scope) (e : Expr) : OnlyAppends (truthOf scope e) :=
  (reads scope).truthOf (fun _ _ => trivial) fun text _ => internText text

instance output (scope : Scope) (e : Expr) : OnlyAppends (output scope e) :=
  accrues.output (valueOf scope e _)

instance inputPlace (scope : Scope) (target : Target) : OnlyAppends (inputPlace scope target) :=
  (reads scope).inputPlace (fun _ _ => trivial) fun text _ => internText text

instance input (scope : Scope) (target : Target) : OnlyAppends (input scope target) :=
  (reads scope).input (fun _ _ => trivial) fun text _ => internText text

end OnlyAppends

/-! ### What only appending comes to -/

/-- `s'` is `s` with these instructions at the end of the current block, as many registers counted
as they define, and perhaps more strings. -/
structure AddsCode (s s' : State) (is : List Instr) : Prop where
  /-- The slots, the subroutines, the routines and the log are as they were, and of the module all
  but the strings. -/
  state : s' = { s with
    function := s'.function
    module := { s.module with
      globals := s'.module.globals
      index := s'.module.index
      nextString := s'.module.nextString
      inStep := s'.module.inStep } }
  globals : s.module.globals.toList <+: s'.module.globals.toList
  /-- The prologue and the names of the function are as they were, and it is in the same block. -/
  function : s'.function = { s.function with
    blocks := s'.function.blocks
    nextTemp := s.function.nextTemp + (results is).length }
  size : s'.function.blocks.size = s.function.blocks.size
  others : ∀ i ≠ s.function.current, s'.function.blocks[i]? = s.function.blocks[i]?
  /-- The current block has its label and its terminator still. -/
  current : ∀ b, s.function.blocks[s.function.current]? = some b →
    s'.function.blocks[s.function.current]? = some { b with instrs := b.instrs ++ is }

theorem Appends.addsCode {s s' : State} (h : Appends s s') : ∃ is, AddsCode s s' is := by
  obtain ⟨is, his⟩ := h.function
  refine ⟨is, ?_, h.globals, ?_, ?_, ?_, ?_⟩
  · rw [← h.module, ← h.storage, ← h.subroutines, ← h.routines, ← h.log]
  · rw [his]
    rfl
  · rw [his, FunctionDraft.extend_size]
  · intro i hi
    rw [his, FunctionDraft.getElem?_extend, if_neg hi.symm]
  · intro b hb
    rw [his, FunctionDraft.getElem?_extend, if_pos rfl, hb]
    rfl

/-- **An expression only adds code to the current block**, in every state and whether it is lowered
or fails, and so do its value, its truth and the address of an element at it. -/
theorem expression_addsCode (scope : Scope) (e : Expr) (want : Ty) (name : String) (s : State) :
    (∃ is, AddsCode s (outcome (operand scope e) s).2 is) ∧
      (∃ is, AddsCode s (outcome (valueOf scope e want) s).2 is) ∧
      (∃ is, AddsCode s (outcome (truthOf scope e) s).2 is) ∧
      ∃ is, AddsCode s (outcome (elementAddress ⟨name, scope⟩ (operand scope e)) s).2 is :=
  ⟨(OnlyAppends.appends s).addsCode, (OnlyAppends.appends s).addsCode,
    (OnlyAppends.appends s).addsCode, (OnlyAppends.appends s).addsCode⟩

end Lower

end Pseudocode
