import Pseudocode.Proofs.Lower.Control
import Pseudocode.Proofs.Lower.Start
import Pseudocode.Proofs.Semantics.Layout
import Pseudocode.Proofs.Semantics.Source

/-!
Code for a value.

Code that computes a value adds instructions, puts their results into registers that have not been
used, and leaves everything else as it was: other registers, all cells, and what has been printed
(`KeepsBelow`).  So a value that has been computed is still there when the next one has been
(`Settled`), and the cells of variables still hold what the store says (`Represents`).

`CodeFor` puts this together for one piece of code generation: it succeeds, and on every frame that
represents a store its instructions compute the value that is wanted, or get stuck where there is
none.  It says this of all stores at once, because code is generated once and may be run many times.
-/

namespace Pseudocode.Ir

/-! ### What is left alone -/

/-- One frame is another but for registers from the `k`-th on. -/
structure Frame.KeepsBelow (k : Nat) (φ φ' : Frame) : Prop where
  registers : ∀ name, (∀ i, k ≤ i → name ≠ Draft.tempName i) → φ'.registers name = φ.registers name
  cells : φ'.cells = φ.cells
  output : φ'.output = φ.output

namespace Frame.KeepsBelow

variable {k k' : Nat} {φ φ₁ φ₂ : Frame}

theorem refl (k : Nat) (φ : Frame) : KeepsBelow k φ φ :=
  ⟨fun _ _ => rfl, rfl, rfl⟩

theorem trans (h₁ : KeepsBelow k φ φ₁) (h₂ : KeepsBelow k' φ₁ φ₂) (hk : k ≤ k') :
    KeepsBelow k φ φ₂ := by
  refine ⟨?_, h₂.cells.trans h₁.cells, h₂.output.trans h₁.output⟩
  intro name hname
  rw [h₂.registers name fun i hi => hname i (Nat.le_trans hk hi), h₁.registers name hname]

theorem put (k : Nat) (φ : Frame) (d : Datum) : KeepsBelow k φ (φ.put (Draft.tempName k) d) := by
  refine ⟨?_, rfl, rfl⟩
  intro name hname
  exact if_neg (hname k (Nat.le_refl k))

end Frame.KeepsBelow

namespace Value.Settled

variable {k : Nat} {v : Value}

theorem value_eq {φ φ' : Frame} (h : v.Settled k) (hφ : φ.KeepsBelow k φ') (m : Module) :
    φ'.value m v = φ.value m v := by
  cases v with
  | register name t => exact hφ.registers name (h name t rfl)
  | global name t => rfl
  | int n t => cases t <;> rfl
  | double d => rfl
  | null t => rfl

end Value.Settled

/-! ### Computing a value -/

/-- The instructions compute the value, of which `holds` says where it is, or get stuck if there is
none. -/
def Computes (m : Module) (is : List Instr) (k : Nat) (φ : Frame) (value? : Option Int32)
    (holds : Frame → Int32 → Prop) : Prop :=
  match value? with
  | some w => ∃ φ', execCode m is φ = .ok φ' ∧ φ.KeepsBelow k φ' ∧ holds φ' w
  | none => execCode m is φ = .error φ.output

namespace Computes

variable {m : Module} {is js : List Instr} {k k' : Nat} {φ : Frame} {value? : Option Int32}
  {holds holds' : Frame → Int32 → Prop}

theorem nothing {w : Int32} (h : holds φ w) : Computes m [] k φ (some w) holds :=
  ⟨φ, rfl, Frame.KeepsBelow.refl k φ, h⟩

theorem result {i : Instr} {d : Datum} {w : Int32}
    (hexec : i.exec m φ = some (φ.put (Draft.tempName k) d))
    (h : holds (φ.put (Draft.tempName k) d) w) : Computes m [i] k φ (some w) holds := by
  refine ⟨_, ?_, Frame.KeepsBelow.put k φ d, h⟩
  rw [execCode, hexec]
  rfl

theorem noResult {i : Instr} (hexec : i.exec m φ = none) : Computes m [i] k φ none holds := by
  show execCode m [i] φ = _
  rw [execCode, hexec]

theorem bind {next : Int32 → Option Int32} (h : Computes m is k φ value? holds) (hk : k ≤ k')
    (hnext : ∀ φ' w, value? = some w → φ.KeepsBelow k φ' → holds φ' w →
      Computes m js k' φ' (next w) holds') :
    Computes m (is ++ js) k φ (value?.bind next) holds' := by
  cases value? with
  | none =>
    show execCode m (is ++ js) φ = _
    rw [execCode_append, show execCode m is φ = .error φ.output from h]
    rfl
  | some w =>
    obtain ⟨φ₁, hexec, hkeeps, hholds⟩ := h
    have hjs := hnext φ₁ w rfl hkeeps hholds
    have happend : execCode m (is ++ js) φ = execCode m js φ₁ := by
      rw [execCode_append, hexec]
      rfl
    rw [Option.bind_some]
    cases hvalue : next w with
    | none =>
      rw [hvalue] at hjs
      show execCode m (is ++ js) φ = _
      rw [happend, ← hkeeps.output]
      exact hjs
    | some w' =>
      rw [hvalue] at hjs
      obtain ⟨φ₂, hexec₂, hkeeps₂, hholds₂⟩ := hjs
      exact ⟨φ₂, happend.trans hexec₂, hkeeps.trans hkeeps₂ hk, hholds₂⟩

theorem imp (h : Computes m is k φ value? holds) (himp : ∀ φ' w, holds φ' w → holds' φ' w) :
    Computes m is k φ value? holds' := by
  cases value? with
  | none => exact h
  | some w =>
    obtain ⟨φ', hexec, hkeeps, hholds⟩ := h
    exact ⟨φ', hexec, hkeeps, himp φ' w hholds⟩

end Computes

/-- The prologue reserves slots for integers, and nothing else. -/
def FunctionDraft.OnlySlots (f : FunctionDraft) : Prop :=
  ∀ i ∈ f.prologue.toList, ∃ x name, Draft.SlotOf x name ∧ i = .alloca name .i32

end Pseudocode.Ir

namespace Pseudocode.Lower

open Ir

/-! ### Stores -/

/-- The slot of an integer. -/
def intSlot (name : String) : Slot :=
  { address := .register name (.ptr .i32), kind := .scalar .int }

/-- The variables that are bound are the ones that have slots, each one of an integer. -/
structure State.Integral (s : State) (bound : String → Prop) : Prop where
  slot : ∀ x, bound x → ∃ name, s.storage[(⟨x, .top⟩ : Symbol)]? = some (intSlot name)
  known : ∀ x slot, s.storage[(⟨x, .top⟩ : Symbol)]? = some slot → bound x ∧
    ∃ name, slot = intSlot name ∧
    Draft.SlotOf x name ∧ .alloca name .i32 ∈ s.function.prologue.toList
  reserved : s.function.OnlySlots
  routines : s.routines = .standard

/-- In the frame, the slots of variables hold what the store says. -/
structure Represents (F : FunctionDraft) (storage : Storage) (φ : Frame) (σ : Store) : Prop where
  placed : φ.Placed F.prologue.toList
  values : ∀ x name, storage[(⟨x, .top⟩ : Symbol)]? = some (intSlot name) →
    ∃ (w : Int32) (j : Nat), σ x = some w ∧ F.prologue.toList[j]? = some (.alloca name .i32) ∧
      φ.cells[j]? = some (some (.word w))

theorem Represents.keepsBelow {F : FunctionDraft} {storage : Storage} {φ φ' : Frame} {σ : Store}
    {k : Nat} (h : Represents F storage φ σ) (hF : F.OnlySlots) (hφ : φ.KeepsBelow k φ') :
    Represents F storage φ' σ := by
  refine ⟨?_, ?_⟩
  · intro j name t hj
    obtain ⟨hreg, hlt⟩ := h.placed j name t hj
    obtain ⟨x, name', hslot, heq⟩ := hF _ (List.mem_of_getElem? hj)
    rw [Instr.alloca.injEq] at heq
    have hdot : '.' ∈ name.toList := by rw [heq.1]; exact hslot.dotted
    rw [hφ.registers name fun i _ htemp => Draft.not_isTemp_of_dot hdot ⟨i, htemp⟩, hφ.cells]
    exact ⟨hreg, hlt⟩
  · intro x name hslot
    rw [hφ.cells]
    exact h.values x name hslot

/-! ### Pieces of code generation -/

/-- A piece of code generation succeeds, and gives something that is ready and for every store holds
the value that is wanted. -/
def CodeFor {α : Type} (code : Lowering α) (s : State) (value : Store → Option Int32)
    (ready : Nat → α → Prop) (holds : Module → Frame → α → Int32 → Prop) : Prop :=
  ∃ a is, Runs code s a (s.emit is) ∧ ready (s.emit is).function.nextTemp a ∧
    ∀ (m : Module) (F : FunctionDraft) (σ : Store) (φ : Frame), F.OnlySlots →
    Represents F s.storage φ σ →
      Computes m is s.function.nextTemp φ (value σ) fun φ' => holds m φ' a

section

variable {α β : Type} {s : State} {code : Lowering α} {value : Store → Option Int32}
  {ready : Nat → α → Prop} {ready' : Nat → β → Prop} {holds : Module → Frame → α → Int32 → Prop}
  {holds' : Module → Frame → β → Int32 → Prop}

theorem State.Integral.emit {bound : String → Prop} (h : s.Integral bound) (is : List Instr) :
    (s.emit is).Integral bound :=
  ⟨h.slot, h.known, h.reserved, h.routines⟩

theorem State.nextTemp_le (s : State) (is : List Instr) :
    s.function.nextTemp ≤ (s.emit is).function.nextTemp :=
  Nat.le_add_right _ _

theorem CodeFor.bind (h : CodeFor code s value ready holds) {more : α → Lowering β}
    {next : Store → Int32 → Option Int32}
    (hmore : ∀ (a : α) (is : List Instr), ready (s.emit is).function.nextTemp a →
      ∃ b js, Runs (more a) (s.emit is) b ((s.emit is).emit js) ∧
        ready' ((s.emit is).emit js).function.nextTemp b ∧
        ∀ (m : Module) (F : FunctionDraft) (σ : Store) (φ : Frame) (w : Int32), F.OnlySlots →
          Represents F s.storage φ σ → holds m φ a w →
          Computes m js (s.emit is).function.nextTemp φ (next σ w) fun φ' => holds' m φ' b) :
    CodeFor (code >>= more) s (fun σ => (value σ).bind (next σ)) ready' holds' := by
  obtain ⟨a, is, hrun, hready, hcode⟩ := h
  obtain ⟨b, js, hrun', hready', hcode'⟩ := hmore a is hready
  rw [State.emit_emit] at hrun' hready'
  refine ⟨b, is ++ js, runs_bind.2 ⟨a, _, hrun, hrun'⟩, hready', ?_⟩
  intro m F σ φ hF hφ
  refine (hcode m F σ φ hF hφ).bind (s.nextTemp_le is) ?_
  intro φ' w _ hkeeps hholds
  exact hcode' m F σ φ' w hF (hφ.keepsBelow hF hkeeps) hholds

theorem CodeFor.map (h : CodeFor code s value ready holds) {f : α → β}
    (hready : ∀ k a, ready k a → ready' k (f a))
    (hholds : ∀ k m φ a w, ready k a → holds m φ a w → holds' m φ (f a) w) :
    CodeFor (do return f (← code)) s value ready' holds' := by
  obtain ⟨a, is, hrun, hisReady, hcode⟩ := h
  refine ⟨f a, is, runs_bind.2 ⟨a, _, hrun, runs_pure.2 ⟨rfl, rfl⟩⟩, hready _ a hisReady, ?_⟩
  intro m F σ φ hF hφ
  exact (hcode m F σ φ hF hφ).imp fun φ' w => hholds _ m φ' a w hisReady

end

end Pseudocode.Lower
