import Pseudocode.Proofs.Ir.Soundness
import Pseudocode.Proofs.Lower.Append

/-!
What each part of a statement does.

The functions that lower statements are taken apart here once, into runs of the steps of which they
are made.  For those that only follow one step after another that is all there is to say.  A
conditional and a loop do more: they create blocks and move between them while their bodies are
lowered.  Their runs are described by the states in which the bodies begin and by the state that is
left at the end (`runs_arm`, `runs_loop`), and everything between is a change of the function that
is written down.
-/

namespace Pseudocode.Lower

open Ir

variable {s s' : State} {v : Value} {u : Unit} {ty : Ty} {scope : Scope} {name kind : String}
  {body step : Lowering Unit} {join? : Option Nat} {condition : Expr}
  {rest? : Option (Nat → Lowering Unit)} {params : List Param} {irParams : List Ir.Param}

/-! ### Slots -/

/-- The name of the next slot for a symbol. -/
def State.slotName (s : State) (symbol : Symbol) : String :=
  Draft.freshName s.function.taken (symbol.name ++ ".slot")

/-- The state in which memory of a type has been reserved for a symbol. -/
def State.reserved (s : State) (symbol : Symbol) (ty : Ir.Ty) : State :=
  { s with function := (s.function.reserve (symbol.name ++ ".slot") ty).2 }

/-- The state in which a symbol has a slot. -/
def State.withSlot (s : State) (symbol : Symbol) (slot : Slot) : State :=
  { s with storage := s.storage.insert symbol slot }

/-- Has the symbol no slot of the kind? -/
def State.Lacks (s : State) (symbol : Symbol) (kind : SlotKind) : Prop :=
  ∀ slot, s.storage[symbol]? = some slot → slot.kind ≠ kind

/-- What is done with the slot of a symbol if it is of the kind, or else without one. -/
theorem runs_found {α : Type} {a : α} {symbol : Symbol} {kind : SlotKind}
    {found : Slot → Lowering α} {fresh : Lowering α} (h : Runs (match s.storage[symbol]? with
      | some slot => if slot.kind = kind then found slot else fresh
      | none => fresh) s a s') :
    (∃ slot, s.storage[symbol]? = some slot ∧ slot.kind = kind ∧ Runs (found slot) s a s') ∨
      s.Lacks symbol kind ∧ Runs fresh s a s' := by
  cases hslot : s.storage[symbol]? with
  | none =>
    rw [hslot] at h
    exact Or.inr ⟨by simp [State.Lacks, hslot], h⟩
  | some slot =>
    simp only [hslot] at h
    by_cases hkind : slot.kind = kind
    · rw [if_pos hkind] at h
      exact Or.inl ⟨slot, rfl, hkind, h⟩
    · rw [if_neg hkind] at h
      exact Or.inr ⟨by simpa [State.Lacks, hslot] using hkind, h⟩

theorem runs_scalarSlot {symbol : Symbol} (h : Runs (scalarSlot symbol ty) s v s') :
    (∃ slot, s.storage[symbol]? = some slot ∧ slot.kind = .scalar ty ∧ v = slot.address ∧ s' = s) ∨
      s.Lacks symbol (.scalar ty) ∧ ∃ t, irTy? ty = some t ∧
      v = .register (s.slotName symbol) (.ptr t) ∧
        s' = (s.reserved symbol t).withSlot symbol { address := v, kind := .scalar ty } := by
  rcases runs_found (runs_get_bind.1 h) with ⟨slot, hslot, hkind, hrun⟩ | ⟨hlacks, hrun⟩
  · exact Or.inl ⟨slot, hslot, hkind, runs_pure.1 hrun⟩
  · simp only [scalarSlot.fresh, runs_bind, runs_irTy, runs_reserve, runs_setSlot,
      runs_pure] at hrun
    obtain ⟨t, _, ⟨ht, rfl⟩, _, _, ⟨rfl, rfl⟩, _, _, rfl, rfl, rfl⟩ := hrun
    exact Or.inr ⟨hlacks, t, ht, rfl, rfl⟩

/-- A buffer is there and has the right size, is there and is resized, or is not there and is
made. -/
theorem runs_stringBuffer {symbol : Symbol} {length : Nat}
    (h : Runs (stringBuffer symbol length) s v s') :
    (∃ slot, s.storage[symbol]? = some slot ∧ slot.kind = .scalar .string ∧
      slot.length = some length ∧
        Runs (load slot.address) s v s') ∨
      (∃ slot old size s₁ s₂ s₃ s₄, s.storage[symbol]? = some slot ∧ slot.kind = .scalar .string ∧
        Runs (load slot.address) s old s₁ ∧ Runs (byteCount length) s₁ size s₂ ∧
        Runs (realloc old size) s₂ v s₃ ∧
        Runs (store v slot.address) s₃ () s₄ ∧
        s' = s₄.withSlot symbol { slot with length := some length }) ∨
      s.Lacks symbol (.scalar .string) ∧ ∃ size s₁ s₂ s₃ s₄,
        Runs (storeFirst (.null .bytes) (.register (s.slotName symbol) (.ptr .bytes)))
        (s.reserved symbol .bytes)
          () s₁ ∧
        Runs (byteCount length) s₁ size s₂ ∧ Runs (malloc size) s₂ v s₃ ∧
        Runs (store v (.register (s.slotName symbol) (.ptr .bytes))) s₃ () s₄ ∧
        s' = s₄.withSlot symbol
          { address := .register (s.slotName symbol) (.ptr .bytes), kind := .scalar .string,
            length := some length } := by
  rcases runs_found (runs_get_bind.1 h) with ⟨slot, hslot, hkind, hrun⟩ | ⟨hlacks, hrun⟩
  · by_cases hlength : slot.length = some length
    · rw [if_pos hlength] at hrun
      exact Or.inl ⟨slot, hslot, hkind, hlength, hrun⟩
    · simp only [if_neg hlength, runs_bind, runs_setSlot, runs_pure] at hrun
      obtain ⟨old, s₁, hload, size, s₂, hsize, _, s₃, hrealloc, _, s₄, hstore, _, _, rfl, rfl,
        rfl⟩ := hrun
      exact Or.inr (Or.inl ⟨slot, old, size, s₁, s₂, s₃, s₄, hslot, hkind, hload, hsize, hrealloc,
        hstore, rfl⟩)
  · simp only [stringBuffer.fresh, runs_bind, runs_reserve, runs_setSlot, runs_pure] at hrun
    obtain ⟨_, _, ⟨rfl, rfl⟩, _, s₁, hfirst, size, s₂, hsize, _, s₃, hmalloc, _, s₄, hstore, _, _,
      rfl, rfl, rfl⟩ := hrun
    exact Or.inr (Or.inr ⟨hlacks, size, s₁, s₂, s₃, s₄, hfirst, hsize, hmalloc, hstore, rfl⟩)

/-- The slot for the address of an array is there or is made. -/
theorem runs_declareArray {size : Expr} (h : Runs (declareArray scope ty name size) s u s') :
    ∃ count wide memory first address t s₁ s₂ s₃ s₄ s₅,
      Runs (valueOf scope size .int) s count s₁ ∧ Runs (cast .sext count .i64) s₁ wide s₂ ∧
      Runs (malloc wide) s₂ memory s₃ ∧ irTy? ty = some t ∧
      Runs (cast .bitcast memory (.ptr t)) s₃ first s₄ ∧
      ((∃ slot, s₄.storage[(⟨name, scope⟩ : Symbol)]? = some slot ∧ slot.kind = .array ty ∧
        address = slot.address ∧
          s₅ = s₄) ∨
        s₄.Lacks ⟨name, scope⟩ (.array ty) ∧
        address = .register (s₄.slotName ⟨name, scope⟩) (.ptr (.ptr t)) ∧
          s₅ = (s₄.reserved ⟨name, scope⟩ (.ptr t)).withSlot ⟨name, scope⟩
          { address, kind := .array ty }) ∧
      Runs (store first address) s₅ () s' := by
  obtain ⟨count, s₁, hcount, hrun₁⟩ := runs_bind.1 h
  obtain ⟨wide, s₂, hwide, hrun₂⟩ := runs_bind.1 hrun₁
  obtain ⟨memory, s₃, hmalloc, hrun₃⟩ := runs_bind.1 hrun₂
  obtain ⟨t, s₃', hty, hrun₄⟩ := runs_bind.1 hrun₃
  obtain ⟨ht, rfl⟩ := runs_irTy.1 hty
  obtain ⟨first, s₄, hcast, hrun₅⟩ := runs_bind.1 hrun₄
  suffices haddress : ∃ address s₅, _ ∧ Runs (store first address) s₅ () s' by
    obtain ⟨address, s₅, hslot, hstore⟩ := haddress
    exact ⟨count, wide, memory, first, address, t, s₁, s₂, s₃', s₄, s₅, hcount, hwide, hmalloc, ht,
      hcast, hslot, hstore⟩
  rcases runs_found (runs_get_bind.1 hrun₅) with ⟨slot, hslot, hkind, hrun⟩ | ⟨hlacks, hrun⟩
  · obtain ⟨_, _, haddress, hstore⟩ := runs_bind.1 hrun
    exact ⟨_, _, Or.inl ⟨slot, hslot, hkind, runs_pure.1 haddress⟩, hstore⟩
  · simp only [runs_bind, runs_reserve, runs_setSlot, runs_pure] at hrun
    obtain ⟨_, _, ⟨_, _, ⟨rfl, rfl⟩, _, _, rfl, rfl, rfl⟩, hstore⟩ := hrun
    exact ⟨_, _, Or.inr ⟨hlacks, rfl, rfl⟩, hstore⟩

/-- An assignment fills the buffer of a string, stores to the slot of a number, or stores to an
element. -/
inductive AssignRun (scope : Scope) (a : Assignment) (s s' : State) : Prop
  | string (x : String) (shape : Shape) (htarget : a.target = .var x shape)
  (hty : shape.ty = .string)
      {source buffer size : Value} {s₁ s₂ s₃ : State}
      (hsource : Runs (valueOf scope a.value .string) s source s₁)
      (hbuffer : Runs (stringBuffer ⟨x, scope⟩ shape.length) s₁ buffer s₂)
      (hsize : Runs (byteCount shape.length) s₂ size s₃)
      (hcopy : Runs (memcpy buffer source size) s₃ () s')
  | scalar (x : String) (shape : Shape) (htarget : a.target = .var x shape)
    (hty : shape.ty ≠ .string)
      {value address : Value} {s₁ s₂ : State}
      (hvalue : Runs (valueOf scope a.value shape.ty) s value s₁)
      (hslot : Runs (scalarSlot ⟨x, scope⟩ shape.ty) s₁ address s₂)
      (hstore : Runs (store value address) s₂ () s')
  | element (x : String) (index : Expr) (ty : Ty)
    (htarget : a.target = .element x index ty) {t : Ty}
      {value address : Value} {s₁ s₂ : State} (hty : Runs (elementTy ⟨x, scope⟩) s t s)
      (hvalue : Runs (valueOf scope a.value t) s value s₁)
      (haddress : Runs (elementAddress ⟨x, scope⟩ (operand scope index)) s₁ address s₂)
      (hstore : Runs (store value address) s₂ () s')

theorem runs_assign {a : Assignment} (h : Runs (assign scope a) s u s') :
    AssignRun scope a s s' := by
  rw [assign] at h
  cases htarget : a.target with
  | var x shape =>
    simp only [htarget] at h
    by_cases hstring : shape.ty = .string
    · rw [if_pos hstring] at h
      obtain ⟨source, s₁, hsource, hrun₁⟩ := runs_bind.1 h
      obtain ⟨buffer, s₂, hbuffer, hrun₂⟩ := runs_bind.1 hrun₁
      obtain ⟨size, s₃, hsize, hcopy⟩ := runs_bind.1 hrun₂
      exact .string x shape htarget hstring hsource hbuffer hsize hcopy
    · rw [if_neg hstring] at h
      obtain ⟨value, s₁, hvalue, hrun₁⟩ := runs_bind.1 h
      obtain ⟨address, s₂, hslot, hstore⟩ := runs_bind.1 hrun₁
      exact .scalar x shape htarget hstring hvalue hslot hstore
  | element x index ty =>
    simp only [htarget] at h
    obtain ⟨t, s₁, hty, hrun₁⟩ := runs_bind.1 h
    obtain ⟨value, s₂, hvalue, hrun₂⟩ := runs_bind.1 hrun₁
    obtain ⟨address, s₃, haddress, hstore⟩ := runs_bind.1 hrun₂
    obtain ⟨-, -, -, rfl⟩ := runs_elementTy hty
    exact .element x index ty htarget hty hvalue haddress hstore

/-- What is read goes into the buffer of a string, into the slot of a number, or to an element. -/
inductive InputRun (scope : Scope) (s : State) (ptr : Value) (ty : Ty) (s' : State) : Target → Prop
  | buffer {x : String} {shape : Shape} {slot : Slot}
  (hslot : s.storage[(⟨x, scope⟩ : Symbol)]? = some slot)
      (hkind : slot.kind = .scalar .string) (hload : Runs (load slot.address) s ptr s') :
      InputRun scope s ptr ty s' (.var x shape)
  | slot {x : String} {shape : Shape} {slot : Slot}
    (hslot : s.storage[(⟨x, scope⟩ : Symbol)]? = some slot)
      (hkind : slot.kind = .scalar ty) (hty : ty ≠ .string) (hptr : ptr = slot.address)
      (hs : s' = s) : InputRun scope s ptr ty s' (.var x shape)
  | element {x : String} {index : Expr} {ty' : Ty}
      (haddress : Runs (elementAddress ⟨x, scope⟩ (operand scope index)) s ptr s') :
      InputRun scope s ptr ty s' (.element x index ty')

theorem runs_inputPlace {target : Target} {ptr : Value}
    (h : Runs (inputPlace scope target) s (ptr, ty) s') : InputRun scope s ptr ty s' target := by
  cases target with
  | var x shape =>
    obtain ⟨slot, hslot, hrun⟩ := runs_slotOf_bind.1 h
    split at hrun
    · next hkind =>
        obtain ⟨buffer, hload, heq⟩ := runs_bind_pure.1 hrun
        exact .buffer hslot hkind ((Prod.mk.inj heq).1 ▸ hload)
    · next hty hkind =>
        obtain ⟨heq, hs⟩ := runs_pure.1 hrun
        obtain ⟨hptr, rfl⟩ := Prod.mk.inj heq
        exact .slot hslot hkind hty hptr hs
    · exact absurd hrun not_runs_invalid
  | element x index ty' =>
    obtain ⟨t, _, hty, hrun⟩ := runs_bind.1 h
    obtain ⟨-, -, -, rfl⟩ := runs_elementTy hty
    obtain ⟨address, haddress, heq⟩ := runs_bind_pure.1 hrun
    exact .element ((Prod.mk.inj heq).1 ▸ haddress)

/-! ### Conditionals and loops -/

/-- The state with another function in the making and other slots. -/
def State.moved (s : State) (f : FunctionDraft) (storage : Storage) : State :=
  { s with function := f, storage }

@[simp] theorem State.moved_function (s : State) (f : FunctionDraft) (storage : Storage) :
    (s.moved f storage).function = f := rfl

@[simp] theorem State.moved_storage (s : State) (f : FunctionDraft) (storage : Storage) :
    (s.moved f storage).storage = storage := rfl

@[simp] theorem State.moved_module (s : State) (f : FunctionDraft) (storage : Storage) :
    (s.moved f storage).module = s.module := rfl

@[simp] theorem State.moved_routines (s : State) (f : FunctionDraft) (storage : Storage) :
    (s.moved f storage).routines = s.routines := rfl

@[simp] theorem State.moved_subroutines (s : State) (f : FunctionDraft) (storage : Storage) :
    (s.moved f storage).subroutines = s.subroutines := rfl

theorem runs_fallTo {block : Nat} :
    Runs (fallThrough block) s u s' ↔ s' = { s with function := s.function.fallTo block } := by
  rw [runs_fallThrough, FunctionDraft.fallTo]
  cases s.function.isTerminated <;> rfl

/-- The body of an arm, after which the storage is what it was before it. -/
theorem runs_thenArm {thenBlock join : Nat} {storage : Storage} :
    Runs (arm.thenArm body thenBlock join) s storage s' ↔
      ∃ s₁, Runs body (s.moved (s.function.switchTo thenBlock) s.storage) () s₁ ∧
      storage = s₁.storage ∧
        s' = s₁.moved (s₁.function.fallTo join) s.storage := by
  simp only [arm.thenArm, swapStorage, runs_bind, runs_get, runs_switchTo, runs_fallTo,
    runs_modifyGet, and_assoc,
    exists_and_left, exists_eq_left, exists_const, Prod.mk.injEq, @eq_comm _ _ storage,
    @eq_comm _ _ s']
  exact ⟨fun ⟨_, h⟩ => h, fun h => ⟨(), h⟩⟩

theorem runs_finish {join : Nat} {storage : Storage} :
    Runs (arm.finish join? join storage) s u s' ↔
      s' = s.moved (if join?.isNone then s.function.switchTo join else s.function)
      (s.storage.join storage) := by
  cases join? <;> simp [arm.finish, runs_bind, runs_modify, runs_switchTo, State.moved]

/-- The state in which what follows the body of an arm begins: with the storage from before the
body. -/
def State.otherwise (s₁ s₂ : State) (k : FunctionDraft.Fork) : State :=
  s₂.moved ((s₂.function.fallTo k.join).switchTo k.otherwise) s₁.storage

/-- An arm of a conditional.  The body and what follows it are lowered from the same storage. -/
theorem runs_arm :
    Runs (arm scope condition join? body rest?) s u s' ↔
    ∃ truth s₁ s₂ s₃, ∃ k : FunctionDraft.Fork, k = s₁.function.fork truth join? rest?.isSome ∧
      Runs (truthOf scope condition) s truth s₁ ∧
      Runs body (s₁.moved (k.function.switchTo k.body) s₁.storage) () s₂ ∧
      (∀ rest, rest? = some rest → Runs (rest k.join) (s₁.otherwise s₂ k) () s₃) ∧
      (rest? = none → s₃ = s₂.moved (s₂.function.fallTo k.join) s₁.storage) ∧
      s' = s₃.moved (if join?.isNone then s₃.function.switchTo k.join else s₃.function)
        (s₃.storage.join s₂.storage) := by
  simp only [arm, runs_bind, runs_createBlock, and_assoc, exists_and_left, exists_eq_left]
  refine exists_congr fun truth => exists_congr fun s₁ => and_congr_right fun _ => ?_
  rcases rest? with _ | rest <;> rcases join? with _ | join <;>
    simp only [arm.joinBlock, runs_bind, runs_createBlock, runs_pure, runs_condBranch, runs_thenArm,
      runs_switchTo,
      runs_finish, and_assoc, exists_and_left, exists_eq_left, exists_const,
      FunctionDraft.createBlock_size]
  case none.none | none.some =>
    exact ⟨fun ⟨_, _, ⟨s₂, hbody, hstorage, hs₃⟩, h⟩ => ⟨s₂, hbody, _, nofun, fun _ => hs₃,
      hstorage ▸ h⟩,
      fun ⟨s₂, hbody, s₃, _, hs₃, h⟩ => ⟨_, s₃, ⟨s₂, hbody, rfl, hs₃ trivial⟩, h⟩⟩
  case some.none | some.some =>
    constructor
    · rintro ⟨_, _, ⟨s₂, hbody, rfl, rfl⟩, _, s₃, hrest, h⟩
      exact ⟨s₂, hbody, s₃, fun _ heq => Option.some.inj heq ▸ hrest, nofun, h⟩
    · rintro ⟨s₂, hbody, s₃, hrest, -, h⟩
      exact ⟨_, _, ⟨s₂, hbody, rfl, rfl⟩, (), s₃, hrest rest rfl, h⟩

/-- A loop.  Its body is the block that is created first, and its exit the second. -/
theorem runs_loop :
    Runs (loop scope kind body step condition) s u s' ↔ ∃ truth s₁ s₂ s₃,
      Runs body (s.moved (s.function.enter kind) (s.storage.forgetLengths scope)) () s₁ ∧
      Runs step s₁ () s₂ ∧ Runs (truthOf scope condition) s₂ truth s₃ ∧
      s' = s₃.moved
      ((s₃.function.condBranch truth s.function.blocks.size (s.function.blocks.size + 1)).switchTo
        (s.function.blocks.size + 1)) s₃.storage := by
  simp only [loop, runs_bind, runs_createBlock, runs_branch, runs_switchTo, runs_modify,
    runs_condBranch, and_assoc,
    exists_and_left, exists_eq_left, exists_const, FunctionDraft.createBlock_size]
  exact ⟨fun ⟨_, s₁, hbody, _, s₂, hstep, truth, s₃, hrest⟩ => ⟨truth, s₁, hbody, s₂, hstep,
    s₃, hrest⟩,
    fun ⟨truth, s₁, hbody, s₂, hstep, s₃, hrest⟩ => ⟨(), s₁, hbody, (), s₂, hstep, truth,
      s₃, hrest⟩⟩

theorem runs_counterTest {init : Assignment} {bound test : Expr}
    (h : Runs (counterTest init bound) s test s') : (∃ ty, Ty.promote? init.ty bound.ty = some ty ∧
      test = .binary .le (.var init.target.name ⟨init.ty, 0⟩) bound ⟨ty, 0⟩) ∧ s' = s := by
  rw [counterTest] at h
  split at h
  · next ty hty =>
    obtain ⟨rfl, rfl⟩ := runs_pure.1 h
    exact ⟨⟨ty, hty, rfl⟩, rfl⟩
  · exact absurd h not_runs_invalid

/-! ### Subroutines -/

/-- The parameters of a subroutine, each with the parameter of its function. -/
def ParamsFit (params : List Param) (irParams : List Ir.Param) : Prop :=
  List.Forall₂ (fun p q => q.name = p.name ++ ".arg" ∧ irTy? p.ty = some q.ty) params irParams

theorem ParamsFit.dotted (h : ParamsFit params irParams) : ∀ q ∈ irParams, '.' ∈ q.name.toList := by
  induction h with
  | nil => simp
  | cons hpq _ ih =>
    intro q hq
    rcases List.mem_cons.mp hq with rfl | hq
    · rw [hpq.1]
      simp
    · exact ih q hq

theorem ParamsFit.types (h : ParamsFit params irParams) :
    (params.map Param.ty).map irTy? = (irParams.map Ir.Param.ty).map some := by
  induction h with
  | nil => rfl
  | cons hpq _ ih => simp only [List.map_cons, hpq.2, ih]

/-- Storing what is passed for parameters in their slots. -/
def storeParams (scope : Scope) (pairs : List (Param × Ir.Param)) : Lowering Unit :=
  forM pairs fun (p, passed) => do
    store passed.value (← scalarSlot ⟨p.name, scope⟩ p.ty)

theorem runs_irParams
    (h : Runs (params.mapM fun p => do return (⟨p.name ++ ".arg", ← irTy p.ty⟩ : Ir.Param)) s
      irParams s') :
    ParamsFit params irParams ∧ s' = s := by
  induction params generalizing s irParams with
  | nil =>
    obtain ⟨rfl, rfl⟩ := runs_mapM_nil.1 h
    exact ⟨List.Forall₂.nil, rfl⟩
  | cons p params ih =>
    obtain ⟨q, s₁, rest, hq, hrest, rfl⟩ := runs_mapM_cons.1 h
    obtain ⟨ty, s₂, hty, hpure⟩ := runs_bind.1 hq
    obtain ⟨hsome, rfl⟩ := runs_irTy.1 hty
    obtain ⟨rfl, rfl⟩ := runs_pure.1 hpure
    obtain ⟨hfit, rfl⟩ := ih hrest
    exact ⟨List.Forall₂.cons ⟨rfl, hsome⟩ hfit, rfl⟩

theorem runs_defaultValue (h : Runs (defaultValue ty) s v s') : irTy? ty = some v.ty ∧ v.Constant ∧
    s' = s := by
  cases ty with
  | int =>
    obtain ⟨rfl, rfl⟩ := runs_pure.1 h
    exact ⟨rfl, trivial, rfl⟩
  | double =>
    obtain ⟨rfl, rfl⟩ := runs_pure.1 h
    exact ⟨rfl, trivial, rfl⟩
  | _ => exact absurd h not_runs_invalid

/-- The state in which the body of a subroutine is lowered, before its parameters are stored. -/
def State.within (s : State) (name : String) (irParams : List Ir.Param) (ret : Ir.Ty)
    (sub : Subroutine) : State :=
  { s with subroutines := s.subroutines.insert name sub, function := .start name irParams ret }

/-- A subroutine.  Its function is added to the module, and the one that was there is gone on
with. -/
theorem runs_subroutine (h : Runs (subroutine name params ty body) s u s') :
    name ∉ Routines.reserved ∧ name ∉ s.subroutines ∧ ∃ irParams ret s₁ s₂ f,
      ParamsFit params irParams ∧ irTy? ty = some ret ∧
      Runs (storeParams (.subroutine name) (params.zip irParams))
        (s.within name irParams ret ⟨⟨ret, irParams.map Ir.Param.ty, false⟩, params.map Param.ty,
          ty⟩) () s₁ ∧
      Runs body s₁ () s₂ ∧
      (s₂.function.isTerminated = true ∧ f = s₂.function ∨ s₂.function.isTerminated = false ∧
        ∃ value : Value, irTy? ty = some value.ty ∧
        value.Constant ∧ f = s₂.function.leave (some value)) ∧
      s' = { s₂ with module := s₂.module.addFunction f.build, function := s.function } := by
  obtain ⟨hreserved, hchecked⟩ := runs_check.1 h
  rw [runs_get_bind] at hchecked
  obtain ⟨hnew, hrun⟩ := runs_check.1 hchecked
  obtain ⟨irParams, s₁, hparams, hrun₁⟩ := runs_bind.1 hrun
  obtain ⟨hfit, rfl⟩ := runs_irParams hparams
  obtain ⟨ret, s₂, hty, hrun₂⟩ := runs_bind.1 hrun₁
  obtain ⟨hret, rfl⟩ := runs_irTy.1 hty
  simp only [inFunction, runs_bind, runs_modify, runs_get] at hrun₂
  obtain ⟨_, _, rfl, _, _, ⟨rfl, rfl⟩, _, _, rfl, _, s₃,
    ⟨_, s₄, hstore, _, _, hbody, _, s₅, ⟨rfl, rfl⟩, hleave⟩, rfl⟩ :=
    hrun₂
  refine ⟨hreserved, by simpa using hnew, irParams, ret, s₄, s₅, s₃.function, hfit, hret, hstore,
    hbody, ?_⟩
  cases hterm : s₅.function.isTerminated with
  | true =>
    simp only [hterm, if_true] at hleave
    obtain ⟨-, rfl⟩ := runs_pure.1 hleave
    exact ⟨Or.inl ⟨rfl, rfl⟩, rfl⟩
  | false =>
    simp only [hterm] at hleave
    obtain ⟨value, _, hvalue, hreturn⟩ := runs_bind.1 hleave
    obtain ⟨hty, hconstant, rfl⟩ := runs_defaultValue hvalue
    obtain rfl := runs_leave.1 hreturn
    exact ⟨Or.inr ⟨rfl, value, hty, hconstant, rfl⟩, rfl⟩

theorem runs_leaveWith {e : Expr} (h : Runs (leaveWith scope e) s u s') :
    ∃ sub value s₁, s.subroutines[s.function.name]? = some sub ∧
    Runs (valueOf scope e sub.ty) s value s₁ ∧
      s' = s₁.moved (((s₁.function.leave (some value)).createBlock "after.return").2.switchTo
        s₁.function.blocks.size) s₁.storage := by
  rw [leaveWith, runs_get_bind] at h
  cases hsub : s.subroutines[s.function.name]? with
  | none =>
    simp only [hsub] at h
    exact absurd h not_runs_invalid
  | some sub =>
    simp only [hsub, runs_bind, runs_leave, runs_createBlock, runs_switchTo] at h
    obtain ⟨value, s₁, hvalue, _, _, rfl, _, _, ⟨rfl, rfl⟩, rfl⟩ := h
    have hsize : (s₁.function.leave (some value)).blocks.size = s₁.function.blocks.size :=
      Array.size_modify
    simp only [hsize]
    exact ⟨sub, value, s₁, rfl, hvalue, rfl⟩

end Pseudocode.Lower
