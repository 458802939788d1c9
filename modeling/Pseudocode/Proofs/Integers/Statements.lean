import Pseudocode.Proofs.Integers.Simulation
import Pseudocode.Proofs.Lower.Frame

/-!
Code for integer statements without bodies.

`Implements` is what is to be shown of every piece of code generation for a statement.  Begun where
exactly the bound variables have slots, it succeeds, it leaves slots for what the statement binds
besides, and in every function that is finished from there the machine does at this place as the
statement does.

An assignment stores to the slot of its variable, which is made if there is none.  Other variables
keep their values because slots of different variables have different names, and so are different
cells.
-/

namespace Pseudocode.Lower

open Ir

variable {s : State} {F : FunctionDraft} {m : Module} {φ : Frame} {σ : Store} {storage : Storage}

/-- A function that code generation is done with, in its module. -/
structure Completed (m : Module) (F : FunctionDraft) : Prop where
  named : F.Named
  slots : F.OnlySlots
  formats : m.globals = Routines.formats.toList

/-- Variables keep their slots, and nothing is added to the module. -/
structure State.KeepsSlots (s s' : State) : Prop where
  storage : ∀ x slot, s.storage[(⟨x, .top⟩ : Symbol)]? = some slot →
    s'.storage[(⟨x, .top⟩ : Symbol)]? = some slot
  module : s'.module = s.module

theorem State.KeepsSlots.refl (s : State) : s.KeepsSlots s :=
  ⟨fun _ _ h => h, rfl⟩

theorem State.KeepsSlots.trans {s₁ s' : State} (h : s.KeepsSlots s₁) (h' : s₁.KeepsSlots s') :
    s.KeepsSlots s' :=
  ⟨fun x slot hslot => h'.storage x slot (h.storage x slot hslot), h'.module.trans h.module⟩

/-- Code for a part of a program, which binds more variables: it is generated, and it does as the
program does. -/
def Implements (code : Lowering Unit) (bound bound' : String → Prop)
    (run : Nat → Store → Output → Progress) : Prop :=
  ∀ s : State, s.Integral bound → s.function.Open →
    ∃ s', Runs code s () s' ∧ s'.Integral bound' ∧ s.KeepsSlots s' ∧
      ∀ (m : Module) (F : FunctionDraft) (n : Nat), Completed m F → s'.function.Extends F →
        Simulates m F n (F.place s.function) (F.place s'.function) s.storage s'.storage (run n)

section

variable {bound bound₁ bound' : String → Prop} {code code' : Lowering Unit}
  {run run' : Nat → Store → Output → Progress}

theorem reaches_emit (hopen : s.function.Open) {is : List Instr}
    (hext : (s.emit is).function.Extends F) {φ' : Frame} (hexec : execCode m is φ = .ok φ') :
    Reaches m F.build (F.place s.function φ) (F.place (s.emit is).function φ') := by
  obtain ⟨rest, t, hplace⟩ := FunctionDraft.place_extend hopen hext
  rw [(hplace φ).1, show F.place (s.emit is).function φ' = _ from (hplace φ').2]
  exact reaches_code hexec rest t

theorem implements_pure : Implements (pure ()) bound bound fun _ => .done := by
  intro s hs _
  refine ⟨s, runs_pure.2 ⟨rfl, rfl⟩, hs, State.KeepsSlots.refl s, ?_⟩
  intro m F n _ _
  exact Simulates.done fun _ => Reaches.refl _

theorem Implements.tell (h : Implements code bound bound' run) (e : Event) :
    Implements (do tell e; code) bound bound' run := by
  intro s hs hopen
  obtain ⟨s', hrun, hs', hkeeps, hsim⟩ := h { s with log := s.log.push e }
    ⟨hs.slot, hs.known, hs.reserved, hs.routines⟩ hopen
  exact ⟨s', runs_bind.2 ⟨(), _, runs_modify.2 rfl, hrun⟩, hs',
    ⟨hkeeps.storage, hkeeps.module⟩, hsim⟩

theorem Implements.andThen (h : Implements code bound bound₁ run) (hopens : KeepsOpen .top code)
    (h' : Implements code' bound₁ bound' run') (hopens' : KeepsOpen .top code') :
    Implements (do code; code') bound bound' fun n σ out => (run n σ out).andThen (run' n) := by
  intro s hs hopen
  obtain ⟨s₁, hrun, hs₁, hkeeps, hsim⟩ := h s hs hopen
  obtain ⟨-, hopen₁⟩ := hopens s s₁ hopen hrun
  obtain ⟨s', hrun', hs', hkeeps', hsim'⟩ := h' s₁ hs₁ hopen₁
  obtain ⟨hgrows, -⟩ := hopens' s₁ s' hopen₁ hrun'
  refine ⟨s', runs_bind.2 ⟨(), s₁, hrun, hrun'⟩, hs', hkeeps.trans hkeeps', ?_⟩
  intro m F n hF hext
  exact (hsim m F n hF (hgrows.grows.toExtends.trans hext)).andThen (hsim' m F n hF hext)

/-! ### Expressions -/

theorem implements_expr {e : Expr} (he : e.Integral bound) :
    Implements (do let _ ← operand .top e) bound bound fun _ σ out =>
      .withValue (e.eval σ) out fun _ => .done σ out := by
  intro s hs hopen
  obtain ⟨o, is, hrun, -, hcode⟩ := operand_code e he s hs
  refine ⟨s.emit is, runs_bind.2 ⟨o, _, hrun, runs_pure.2 ⟨rfl, rfl⟩⟩, hs.emit is,
    ⟨fun _ _ h => h, rfl⟩, ?_⟩
  intro m F n hF hext
  obtain ⟨rest, t, hplace⟩ := FunctionDraft.place_extend hopen hext
  refine Simulates.value hF.slots hplace (fun σ φ hφ => hcode m F σ φ hF.slots hφ) ?_
  intro σ φ w hφ _
  exact ⟨φ, Reaches.refl _, hφ, rfl⟩

/-! ### Assignments -/

theorem intSlot_inj {name name' : String} (h : intSlot name = intSlot name') : name = name' := by
  rw [intSlot, intSlot, Slot.mk.injEq, Value.register.injEq] at h
  exact h.1.1

theorem scalarSlot_runs (hs : s.Integral bound) (x : String) :
    ∃ name s', Runs (scalarSlot ⟨x, .top⟩ .int) s (.register name (.ptr .i32)) s' ∧
      s'.Integral (also [x] bound) ∧ s.KeepsSlots s' ∧
      s'.storage[(⟨x, .top⟩ : Symbol)]? = some (intSlot name) ∧
      (∀ y, y ≠ x → s'.storage[(⟨y, .top⟩ : Symbol)]? = s.storage[(⟨y, .top⟩ : Symbol)]?) ∧
      s'.function.blocks = s.function.blocks ∧ s'.function.current = s.function.current := by
  cases hslot : s.storage[(⟨x, .top⟩ : Symbol)]? with
  | some slot =>
    obtain ⟨hbound, name, rfl, -⟩ := hs.known x slot hslot
    refine ⟨name, s, ?_, ?_, State.KeepsSlots.refl s, hslot, fun _ _ => rfl, rfl, rfl⟩
    · refine runs_bind.2 ⟨s, s, runs_get.2 ⟨rfl, rfl⟩, ?_⟩
      simp only [hslot]
      exact runs_pure.2 ⟨rfl, rfl⟩
    · rw [also_eq (by simpa using hbound)]
      exact hs
  | none =>
    have hfree : ¬ bound x := by
      intro hx
      obtain ⟨name, hname⟩ := hs.slot x hx
      rw [hslot] at hname
      simp at hname
    have hother : ∀ y, y ≠ x → ∀ slot,
        (s.storage.insert (⟨x, .top⟩ : Symbol) slot)[(⟨y, .top⟩ : Symbol)]? =
        s.storage[(⟨y, .top⟩ : Symbol)]? := by
      intro y hy slot
      rw [Std.TreeMap.getElem?_insert, if_neg]
      intro heq
      rw [Std.LawfulEqOrd.compare_eq_iff_eq, Symbol.mk.injEq] at heq
      exact hy heq.1.symm
    have hself : ∀ slot, (s.storage.insert (⟨x, .top⟩ : Symbol) slot)[(⟨x, .top⟩ : Symbol)]? =
      some slot :=
      fun slot => Std.TreeMap.getElem?_insert_self
    refine ⟨s.slotName ⟨x, .top⟩,
      (s.reserved ⟨x, .top⟩ .i32).withSlot ⟨x, .top⟩ (intSlot (s.slotName ⟨x, .top⟩)),
      ?_, ⟨?_, ?_, ?_, hs.routines⟩, ⟨?_, rfl⟩, hself _, fun y hy => hother y hy _, rfl, rfl⟩
    · refine runs_bind.2 ⟨s, s, runs_get.2 ⟨rfl, rfl⟩, ?_⟩
      simp only [hslot]
      refine runs_bind.2 ⟨.i32, s, runs_irTy.2 ⟨rfl, rfl⟩, ?_⟩
      refine runs_bind.2 ⟨_, _, runs_reserve.2 ⟨rfl, rfl⟩, ?_⟩
      exact runs_bind.2 ⟨(), _, runs_setSlot.2 rfl, runs_pure.2 ⟨rfl, rfl⟩⟩
    · intro y hy
      by_cases hyx : y = x
      · rw [hyx]
        exact ⟨_, hself _⟩
      · have hbound : bound y := hy.resolve_left (by simpa using hyx)
        obtain ⟨name, hname⟩ := hs.slot y hbound
        exact ⟨name, (hother y hyx _).trans hname⟩
    · intro y slot hy
      have hprologue : (s.function.prologue.push (.alloca (s.slotName ⟨x, .top⟩) .i32)).toList =
          s.function.prologue.toList ++ [.alloca (s.slotName ⟨x, .top⟩) .i32] := Array.toList_push
      show also [x] bound y ∧ ∃ name, slot = intSlot name ∧ Draft.SlotOf y name ∧
        .alloca name .i32 ∈ (s.function.prologue.push (.alloca (s.slotName ⟨x, .top⟩) .i32)).toList
      rw [hprologue]
      by_cases hyx : y = x
      · rw [hyx] at hy ⊢
        have heq := Option.some.inj (hy.symm.trans (hself _))
        exact ⟨Or.inl (by simp), _, heq, Draft.slotOf_freshName _ x, by simp⟩
      · obtain ⟨hbound, name, heq, hof, hmem⟩ := hs.known y slot ((hother y hyx _).symm.trans hy)
        exact ⟨Or.inr hbound, name, heq, hof, by simp [hmem]⟩
    · intro i hi
      have hprologue :
        i ∈ (s.function.prologue.push (.alloca (s.slotName ⟨x, .top⟩) .i32)).toList := hi
      rw [Array.toList_push, List.mem_append, List.mem_singleton] at hprologue
      rcases hprologue with hold | hnew
      · exact hs.reserved i hold
      · exact ⟨x, _, Draft.slotOf_freshName _ x, hnew⟩
    · intro y slot hy
      have hyx : y ≠ x := by
        rintro rfl
        rw [hslot] at hy
        simp at hy
      exact (hother y hyx _).trans hy

/-- Storing to the slot of a variable sets the variable and no other. -/
theorem Represents.store {before after : Storage} (h : Represents F before φ σ) {x name : String}
    {j : Nat} (w : Int32) (hj : F.prologue.toList[j]? = some (.alloca name .i32))
    (hx : after[(⟨x, .top⟩ : Symbol)]? = some (intSlot name))
    (hothers : ∀ y, y ≠ x → after[(⟨y, .top⟩ : Symbol)]? = before[(⟨y, .top⟩ : Symbol)]?)
    (hapart : ∀ y name', y ≠ x → after[(⟨y, .top⟩ : Symbol)]? = some (intSlot name') →
      name' ≠ name) :
    Represents F after (φ.store j (.word w)) (σ.set x w) := by
  have hlt := (h.placed j name .i32 hj).2
  refine ⟨?_, ?_⟩
  · intro i name' t hi
    obtain ⟨hreg, hilt⟩ := h.placed i name' t hi
    refine ⟨hreg, ?_⟩
    show i < (φ.cells.setIfInBounds j (some (.word w))).size
    rw [Array.size_setIfInBounds]
    exact hilt
  · intro y name' hy
    show ∃ (w' : Int32) (j' : Nat), _ ∧ _ ∧ (φ.cells.setIfInBounds j (some (.word w)))[j']? = _
    by_cases hyx : y = x
    · rw [hyx] at hy
      have hname : name' = name := intSlot_inj (Option.some.inj (hy.symm.trans hx))
      rw [hyx, hname]
      exact ⟨w, j, Store.set_same σ x w, hj, Array.getElem?_setIfInBounds_self_of_lt hlt⟩
    · obtain ⟨w', j', hw', hj', hcell⟩ := h.values y name' ((hothers y hyx).symm.trans hy)
      have hne : j ≠ j' := by
        rintro rfl
        rw [hj', Option.some.injEq, Instr.alloca.injEq] at hj
        exact hapart y name' hyx hy hj.1
      refine ⟨w', j', (Store.set_other σ w hyx).trans hw', hj', ?_⟩
      rw [Array.getElem?_setIfInBounds_ne hne]
      exact hcell

theorem implements_assign {a : Assignment} (ha : a.Integral bound) :
    Implements (assign .top a) bound (also a.binds bound) fun _ => a.exec := by
  intro s hs hopen
  obtain ⟨hvalue, -, x, shape, htarget, hty⟩ := ha
  obtain ⟨v, is, hrun, ⟨hvty, hsettled⟩, hcode⟩ := valueOf_code hvalue hs
  obtain ⟨name, s₂, hrunSlot, hs₂, hkeeps, hx, hothers, hblocks, hcurrent⟩ :=
    scalarSlot_runs (hs.emit is) x
  have hbinds : a.binds = [x] := by rw [Assignment.binds, htarget]
  refine ⟨s₂.emit [.store v (.register name (.ptr .i32))], ?_, ?_,
    ⟨hkeeps.storage, hkeeps.module⟩, ?_⟩
  · rw [assign, htarget]
    simp only
    rw [if_neg (by rw [hty]; decide), hty]
    exact runs_bind.2
      ⟨v, _, hrun, runs_bind.2 ⟨_, s₂, hrunSlot, runs_store.2 ⟨by rw [hvty]; rfl, rfl⟩⟩⟩
  · rw [hbinds]
    exact hs₂.emit _
  · intro m F n hF hext
    have hopen₁ : (s.emit is).function.Open := hopen.extend is
    obtain ⟨hgrows, hopen₂⟩ := keeps_scalarSlot hopen₁ hrunSlot
    have hext₂ : s₂.function.Extends F := (FunctionDraft.extends_extend hopen₂ _).trans hext
    have hext₁ : (s.emit is).function.Extends F := hgrows.grows.toExtends.trans hext₂
    obtain ⟨rest, t, hplace⟩ := FunctionDraft.place_extend hopen hext₁
    -- The slot is one of the cells that the prologue reserves.
    obtain ⟨-, name', hname', hof, hmem⟩ := hs₂.known x _ hx
    rw [← intSlot_inj hname'] at hof hmem
    obtain ⟨j, hj⟩ := List.getElem?_of_mem (hext₂.prologue.subset hmem)
    have hexec :
      a.exec = fun σ out => .withValue (a.value.eval σ) out fun w => .done (σ.set x w) out := by
      funext σ out
      rw [Assignment.exec, htarget]
    show Simulates m F n _ _ s.storage s₂.storage a.exec
    rw [hexec]
    refine Simulates.value hF.slots hplace (fun σ φ hφ => hcode m F σ φ hF.slots hφ) ?_
    intro σ φ w hφ hholds
    refine ⟨φ.store j (.word w), ?_, ?_, rfl⟩
    · have hsame : F.place (s.emit is).function φ = F.place s₂.function φ :=
        (FunctionDraft.place_congr hcurrent (by rw [hblocks]) φ).symm
      show Reaches m F.build (F.place (s.emit is).function φ) _
      rw [hsame]
      refine reaches_emit hopen₂ hext ?_
      have hcell : φ.cell? m (.register name (.ptr .i32)) = some j := by
        rw [Frame.cell?, show φ.value m (.register name (.ptr .i32)) =
          _ from (hφ.placed j name .i32 hj).1]
      have hword : φ.value m v = some (.word w) := hholds
      simp [execCode, Instr.exec, hcell, hword]
    · refine hφ.store w hj hx hothers ?_
      rintro y name'' hyx hy rfl
      obtain ⟨-, name₃, hname₃, hof₃, -⟩ := hs₂.known y _ hy
      rw [← intSlot_inj hname₃] at hof₃
      exact hyx (hof₃.unique hof)

/-! ### Printing -/

theorem Represents.print (h : Represents F storage φ σ) (item : Printed) :
    Represents F storage (φ.print item) σ :=
  ⟨h.placed, h.values⟩

theorem Represents.put (h : Represents F storage φ σ) (hF : F.OnlySlots) (k : Nat) (d : Datum) :
    Represents F storage (φ.put (Draft.tempName k) d) σ :=
  h.keepsBelow hF (Frame.KeepsBelow.put k φ d)

/-- The instructions that print by a format. -/
def printBy (k : Nat) (global : Value) (args : List Value) : List Instr :=
  [firstByteInstr (Draft.tempName k) global,
    .call (some (Draft.tempName (k + 1))) "printf" Routines.standard.printf
      (.register (Draft.tempName k) .bytes :: args)]

theorem runs_printBy (hs : s.routines = .standard) (global : Value) {size : Nat}
    (hglobal : global.ty = .ptr (.array size .i8)) (args : List Value) :
    Runs (do
      let first ← firstByte global
      printf (first :: args)) s () (s.emit (printBy s.function.nextTemp global args)) := by
  have hfirst :
    Runs (firstByte global) s (.register s.next .bytes) (s.emit [firstByteInstr s.next global]) :=
    (runs_firstByte hglobal).2 ⟨rfl, rfl⟩
  have hprintf :
    (s.emit [firstByteInstr s.next global]).routines.printf = Routines.standard.printf := by
    rw [State.emit_routines, hs]
  have htemp :
    (s.emit [firstByteInstr s.next global]).function.nextTemp = s.function.nextTemp + 1 :=
    nextTemp_emit_one s rfl
  have hnext :
    (s.emit [firstByteInstr s.next global]).next = Draft.tempName (s.function.nextTemp + 1) := by
    rw [State.next, FunctionDraft.nextRegister, htemp]
  refine runs_bind.2 ⟨_, _, hfirst, runs_bind.2 ⟨_, _, runs_get.2 ⟨rfl, rfl⟩, ?_⟩⟩
  rw [hprintf, runs_run (by decide), State.emit_emit, hnext]
  rfl

theorem execCode_printBy {k : Nat} {global : Value} {args : List Value} {item : Printed}
    {bytes : List UInt8} (hglobal : φ.text? m global = some bytes)
    (hitem : printed? m (φ.put (Draft.tempName k) (.text bytes))
      (.register (Draft.tempName k) .bytes :: args) =
      some item) (hF : F.OnlySlots) (hφ : Represents F storage φ σ) :
    ∃ φ', execCode m (printBy k global args) φ = .ok φ' ∧ Represents F storage φ' σ ∧
      φ'.output = φ.output ++ [item] := by
  have hfirst : (firstByteInstr (Draft.tempName k) global).exec m φ =
      some (φ.put (Draft.tempName k) (.text bytes)) := by
    simp [firstByteInstr, Value.i32, Instr.exec, hglobal]
  have hcall : ∀ signature, (Instr.call (some (Draft.tempName (k + 1))) "printf" signature
      (.register (Draft.tempName k) .bytes :: args)).exec m
      (φ.put (Draft.tempName k) (.text bytes)) =
        some (((φ.put (Draft.tempName k) (.text bytes)).print item).put (Draft.tempName (k + 1))
          (.word (.ofNat item.text.length))) := by
    intro signature
    simp [Instr.exec, hitem]
  refine ⟨_, ?_, ((hφ.put hF k (.text bytes)).print item).put hF (k + 1)
    (.word (.ofNat item.text.length)), rfl⟩
  simp only [printBy, execCode, hfirst, hcall]

theorem text?_put (m : Module) (φ : Frame) (name : String) (t : Ir.Ty) (bytes : List UInt8) :
    (φ.put name (.text bytes)).text? m (.register name t) = some bytes := by
  rw [Frame.text?, value_put]

theorem execCode_printNumber (hm : m.globals = Routines.formats.toList) {k : Nat} {v : Value}
    {w : Int32}
    (hv : v.Settled k) (hholds : HoldsWord m φ v w) (hF : F.OnlySlots)
    (hφ : Represents F storage φ σ) :
    ∃ φ', execCode m (printBy k Routines.standard.intFormat [v]) φ = .ok φ' ∧
    Represents F storage φ' σ ∧
      φ'.output = φ.output ++ [.number w] := by
  have hformat : φ.text? m Routines.standard.intFormat = some (utf8 "%d" ++ [0]) := by
    simp [Frame.text?, Frame.value, hm, Routines.standard, Routines.formats, Global.address,
      Global.ofText]
  -- The word is still there when the address of the format has been computed.
  have hword : ∀ d, (φ.put (Draft.tempName k) d).word? m v = some w := fun d =>
    word?_of_holds ((hv.value_eq (Frame.KeepsBelow.put k φ d) m).trans hholds)
  refine execCode_printBy hformat ?_ hF hφ
  simp [printed?, text?_put, hword]

theorem execCode_printBreak (hm : m.globals = Routines.formats.toList) (k : Nat) (hF : F.OnlySlots)
    (hφ : Represents F storage φ σ) :
    ∃ φ', execCode m (printBy k Routines.standard.newlineFormat []) φ = .ok φ' ∧
    Represents F storage φ' σ ∧
      φ'.output = φ.output ++ [.lineBreak] := by
  have hformat : φ.text? m Routines.standard.newlineFormat = some (utf8 "\n" ++ [0]) := by
    simp [Frame.text?, Frame.value, hm, Routines.standard, Routines.formats, Global.address,
      Global.ofText]
  refine execCode_printBy hformat ?_ hF hφ
  simp [printed?, text?_put]

theorem implements_output {e : Expr} (he : e.Integral bound) :
    Implements (output .top e) bound bound fun _ σ out =>
      .withValue (e.eval σ) out fun w => .done σ (out ++ [.number w, .lineBreak]) := by
  intro s hs hopen
  obtain ⟨v, is, hrun, ⟨-, hsettled⟩, hcode⟩ := valueOf_code he hs
  -- The states after the value, after the number and after the line break.
  obtain ⟨s₁, hs₁⟩ : ∃ s₁, s₁ = s.emit is := ⟨_, rfl⟩
  obtain ⟨s₂, hs₂⟩ :
    ∃ s₂, s₂ = s₁.emit (printBy s₁.function.nextTemp Routines.standard.intFormat [v]) := ⟨_, rfl⟩
  obtain ⟨s₃, hs₃⟩ :
    ∃ s₃, s₃ = s₂.emit (printBy s₂.function.nextTemp Routines.standard.newlineFormat []) := ⟨_, rfl⟩
  have hint₁ : s₁.Integral bound := hs₁ ▸ hs.emit is
  have hint₂ : s₂.Integral bound := hs₂ ▸ hint₁.emit _
  have hopen₁ : s₁.function.Open := by rw [hs₁]; exact hopen.extend is
  have hopen₂ : s₂.function.Open := by rw [hs₂]; exact hopen₁.extend _
  refine ⟨s₃, ?_, by rw [hs₃]; exact hint₂.emit _, ⟨?_, ?_⟩, ?_⟩
  · have hnumber := runs_printBy hint₁.routines Routines.standard.intFormat rfl [v]
    have hbreak := runs_printBy hint₂.routines Routines.standard.newlineFormat rfl []
    rw [← hs₂] at hnumber
    rw [← hs₃] at hbreak
    rw [← hs₁] at hrun
    rw [output, he.ty]
    obtain ⟨first, s', hfirst, hprintf⟩ := runs_bind.1 hnumber
    have hformat : Runs (format .int) s₁ first s' :=
      runs_format.2 ⟨_, by rw [hint₁.routines]; rfl, hfirst⟩
    refine runs_bind.2
      ⟨v, s₁, hrun, runs_bind.2 ⟨first, s', hformat, runs_bind.2 ⟨(), s₂, hprintf, ?_⟩⟩⟩
    refine runs_bind.2 ⟨s₂, s₂, runs_get.2 ⟨rfl, rfl⟩, ?_⟩
    rw [hint₂.routines]
    exact hbreak
  · intro x slot hslot
    rw [hs₃, hs₂, hs₁]
    exact hslot
  · rw [hs₃, hs₂, hs₁]
    rfl
  · intro m F n hF hext
    have hext₂ : s₂.function.Extends F := (FunctionDraft.extends_extend hopen₂ _).trans (hs₃ ▸ hext)
    have hext₁ : s₁.function.Extends F :=
      (FunctionDraft.extends_extend hopen₁ _).trans (hs₂ ▸ hext₂)
    rw [hs₁] at hext₁
    obtain ⟨rest, t, hplace⟩ := FunctionDraft.place_extend hopen hext₁
    have hstorage : s₃.storage = s.storage := by rw [hs₃, hs₂, hs₁]; rfl
    rw [hstorage]
    refine Simulates.value hF.slots hplace (fun σ φ hφ => hcode m F σ φ hF.slots hφ) ?_
    intro σ φ w hφ hholds
    obtain ⟨φ₁, hexec₁, hφ₁, hout₁⟩ := execCode_printNumber hF.formats hsettled hholds hF.slots hφ
    obtain ⟨φ₂, hexec₂, hφ₂, hout₂⟩ :=
      execCode_printBreak hF.formats s₂.function.nextTemp hF.slots hφ₁
    refine ⟨φ₂, ?_, hφ₂, by rw [hout₂, hout₁, List.append_assoc]; rfl⟩
    have hreach₁ := reaches_emit hopen₁ (hs₂ ▸ hext₂) (hs₁ ▸ hexec₁)
    have hreach₂ := reaches_emit hopen₂ (hs₃ ▸ hext) hexec₂
    rw [← hs₂] at hreach₁
    rw [← hs₃] at hreach₂
    have hall := hreach₁.trans hreach₂
    rw [hs₁] at hall
    exact hall

end

end Pseudocode.Lower
