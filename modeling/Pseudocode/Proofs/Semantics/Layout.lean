import Mathlib.Data.List.Induction
import Pseudocode.Proofs.Ir.Places
import Pseudocode.Proofs.Semantics.Machine

/-!
Where generated code is run.

The machine is at the place that a stage of code generation marks, with registers and memory.  It
does there what the code at that place says, and from a branch it comes to the block that the branch
was meant for.

Slots are kept apart in the same way as blocks: the prologue hands out one cell after another, and
no two of them have the same name (`Frame.Placed`).
-/

namespace Pseudocode.Ir

namespace FunctionDraft

/-! ### Places -/

/-- The beginning of a block, behind the prologue if it is the first. -/
def entry (F : FunctionDraft) (k : Nat) (φ : Frame) : Config :=
  ⟨(F.codeOf k).1, (F.codeOf k).2, φ⟩

/-- The place in `F` that the stage `g` marks. -/
def place (F g : FunctionDraft) (φ : Frame) : Config :=
  ⟨(F.codeAt g).1, (F.codeAt g).2, φ⟩

section

variable {F g : FunctionDraft}

theorem place_switchTo {k : Nat} {label : String} (h : g.blocks[k]? = some { label }) (φ : Frame) :
    place F (g.switchTo k) φ = entry F k φ := by
  rw [place, entry, codeAt_switchTo h]

theorem place_congr {g' : FunctionDraft} (hcurrent : g'.current = g.current)
    (hblock : g'.blocks[g.current]? = g.blocks[g.current]?) (φ : Frame) :
    place F g' φ = place F g φ := by
  rw [place, place, codeAt_congr hcurrent hblock]

theorem place_extend (hopen : g.Open) {is : List Instr} (h : Extends (g.extend is) F) :
    ∃ rest t, ∀ φ, place F g φ = ⟨is ++ rest, t, φ⟩ ∧ place F (g.extend is) φ = ⟨rest, t, φ⟩ := by
  obtain ⟨rest, t, hbefore, hafter⟩ := codeAt_extend hopen h
  refine ⟨rest, t, fun φ => ⟨?_, ?_⟩⟩
  · rw [place, hbefore]
  · rw [place, hafter]

theorem place_terminate (hopen : g.Open) {t : Terminator} (ht : t.isSet = true)
    (h : Extends (g.terminate t) F) (φ : Frame) : place F g φ = ⟨[], t, φ⟩ := by
  rw [place, codeAt_terminate hopen ht h]

theorem goto_label (hF : F.Named) {k : Nat} (hk : 0 < k) (hlt : k < F.blocks.size) (φ : Frame) :
    F.build.goto (F.label k) φ = .running (entry F k φ) := by
  rw [Function.goto, block?_label hF hk hlt]
  rfl

theorem step_branch (m : Module) (hF : F.Named) (hopen : g.Open) {k : Nat} (hk : 0 < k)
    (hlt : k < g.blocks.size)
    (h : Extends (g.branch k) F) (φ : Frame) :
    step m F.build (place F g φ) = .running (entry F k φ) := by
  have hall := (extends_terminate hopen (.br (g.label k))).trans h
  rw [place, codeAt_branch hopen hlt h]
  exact goto_label hF hk (Nat.lt_of_lt_of_le hlt hall.size_le) φ

theorem step_condBranch {m : Module} (hF : F.Named) (hopen : g.Open) {truth : Value} {i j : Nat}
    (hi : 0 < i) (hilt : i < g.blocks.size) (hj : 0 < j) (hjlt : j < g.blocks.size)
    (h : Extends (g.condBranch truth i j) F) {φ : Frame} {b : Bool}
    (hb : φ.value m truth = some (.bit b)) :
    step m F.build (place F g φ) = .running (entry F (if b then i else j) φ) := by
  have hall := (extends_terminate hopen (.condBr truth (g.label i) (g.label j))).trans h
  rw [place, codeAt_condBranch hopen hilt hjlt h]
  show Terminator.exec m F.build φ (.condBr truth (F.label i) (F.label j)) = _
  rw [Terminator.exec, hb]
  show F.build.goto (if b then F.label i else F.label j) φ = _
  cases b with
  | true => exact goto_label hF hi (Nat.lt_of_lt_of_le hilt hall.size_le) φ
  | false => exact goto_label hF hj (Nat.lt_of_lt_of_le hjlt hall.size_le) φ

end

end FunctionDraft

/-! ### Slots -/

/-- Every slot that the instructions reserve is a cell of its own: the first is the first cell, and
so on. -/
def Frame.Placed (φ : Frame) (is : List Instr) : Prop :=
  ∀ (j : Nat) (name : String) (t : Ty), is[j]? = some (.alloca name t) →
    φ.registers name = some (.cell j) ∧ j < φ.cells.size

/-- Reserving slots, and nothing else, puts them in their places. -/
theorem execCode_setup (m : Module) {is : List Instr}
    (hslots : ∀ i ∈ is, ∃ name t, i = .alloca name t)
    (hnames : ∀ (i j : Nat) (name : String) (t t' : Ty), is[i]? = some (.alloca name t) →
      is[j]? = some (.alloca name t') → i = j) :
    ∃ φ, execCode m is {} = .ok φ ∧ φ.cells.size = is.length ∧ φ.output = [] ∧ φ.Placed is := by
  induction is using List.reverseRecOn with
  | nil => exact ⟨{}, rfl, rfl, rfl, fun j name t h => by simp at h⟩
  | append_singleton is i ih =>
    obtain ⟨name, t, rfl⟩ := hslots i (by simp)
    have hinitial : ∀ (j : Nat) (name' : String) (t' : Ty), is[j]? = some (.alloca name' t') →
        (is ++ [Instr.alloca name t])[j]? = some (.alloca name' t') := by
      intro j name' t' h
      rw [List.getElem?_append_left (List.getElem?_eq_some_iff.mp h).1]
      exact h
    obtain ⟨φ, hexec, hsize, hout, hplaced⟩ :=
      ih (fun i hi => hslots i (by simp [hi])) fun i j n t t' h h' =>
      hnames i j n t t' (hinitial i n t h) (hinitial j n t' h')
    refine ⟨{ φ with cells := φ.cells.push none }.put name (.cell φ.cells.size), ?_, ?_, hout, ?_⟩
    · rw [execCode_append, hexec]
      rfl
    · show (φ.cells.push none).size = _
      rw [Array.size_push, hsize, List.length_append]
      rfl
    · intro j name' t' h
      have hcells : φ.cells.size < (φ.cells.push none).size := by simp
      show (if name' = name then some (.cell φ.cells.size) else φ.registers name') = _ ∧
        j < (φ.cells.push none).size
      by_cases hj : j = is.length
      · rw [hj, List.getElem?_concat_length, Option.some.injEq, Instr.alloca.injEq] at h
        rw [if_pos h.1.symm, hj, hsize]
        exact ⟨rfl, by omega⟩
      · have hlt : j < is.length := by
          have := (List.getElem?_eq_some_iff.mp h).1
          rw [List.length_append] at this
          simp only [List.length_singleton] at this
          omega
        rw [List.getElem?_append_left hlt] at h
        have hne : name' ≠ name := by
          rintro rfl
          exact hj (hnames j is.length _ _ _ (hinitial j _ _ h) (List.getElem?_concat_length))
        rw [if_neg hne]
        obtain ⟨hreg, hlt'⟩ := hplaced j name' t' h
        exact ⟨hreg, by omega⟩

/-- A function whose prologue only reserves slots comes to its first block with all of them in
place. -/
theorem reaches_entry (m : Module) {F : FunctionDraft} (hF : F.Named) (hblocks : 0 < F.blocks.size)
    (hslots : ∀ i ∈ F.prologue.toList, ∃ name t, i = .alloca name t) :
    ∃ φ, Reaches m F.build F.build.start (F.entry 0 φ) ∧ φ.output = [] ∧
    φ.Placed F.prologue.toList := by
  obtain ⟨φ, hexec, -, hout, hplaced⟩ := execCode_setup m hslots fun i j n t t' h h' =>
    hF.slots i j n t t' (by rw [← Array.getElem?_toList]; exact h)
      (by rw [← Array.getElem?_toList]; exact h')
  refine ⟨φ, ?_, hout, hplaced⟩
  have hb := FunctionDraft.getElem?_build F 0
  rw [Array.getElem?_eq_getElem hblocks, Option.map_some, if_pos rfl] at hb
  have hstart :
    F.build.start = ⟨F.prologue.toList ++ F.blocks[0].instrs.toList, F.blocks[0].terminator,
      {}⟩ := by
    rw [Function.start]
    cases hlist : F.build.blocks with
    | nil => simp [hlist] at hb
    | cons b bs =>
      rw [hlist, List.getElem?_cons_zero, Option.some.injEq] at hb
      rw [hb]
      rfl
  rw [hstart, FunctionDraft.entry, FunctionDraft.codeOf,
    FunctionDraft.codeFrom_eq (Array.getElem?_eq_getElem hblocks), List.drop_zero]
  exact reaches_code hexec _ _

end Pseudocode.Ir
