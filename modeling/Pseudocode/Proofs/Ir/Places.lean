import Pseudocode.Proofs.Ir.Naming

/-!
Where the code of a stage is found in the finished function.

Code is generated in stages, and it is the finished function that is run.  A stage marks a place in
the finished function: the block that is current at that stage, behind the instructions that it has
then.  Since later stages take nothing back, instructions that are added at a stage are found at its
place, and so is the terminator (`codeAt_extend`, `codeAt_terminate`).  A branch leads to the block
that it was meant for because no two blocks have the same label (`block?_label`).
-/

namespace Pseudocode.Ir.FunctionDraft

variable {k : Nat}

/-! ### Finished functions -/

/-- What is known of the names in a finished function: they are told apart, and no slot has the name
of a counted register. -/
structure Whole (F : FunctionDraft) : Prop where
  named : F.Named
  dotted : ∀ name ty, .alloca name ty ∈ F.prologue.toList → '.' ∈ name.toList

theorem Sound.whole {allows : Instr → Prop} {f F : FunctionDraft} (hf : f.Sound allows)
    (hnamed : F.Named) (hprologue : F.prologue = f.prologue) : F.Whole := by
  refine ⟨hnamed, fun name ty hname => ?_⟩
  rw [hprologue] at hname
  exact hf.dotted (name, .ptr ty) (List.mem_append_right _ (List.mem_filterMap.mpr ⟨_, hname, rfl⟩))

/-! ### Places -/

/-- What is left of a block behind so many of its instructions, and where it leads. -/
def codeFrom (F : FunctionDraft) (k skipped : Nat) : List Instr × Terminator :=
  match F.blocks[k]? with
  | some b => (b.instrs.toList.drop skipped, b.terminator)
  | none => ([], .unreachable)

/-- The code of a block, behind the prologue if it is the first. -/
def codeOf (F : FunctionDraft) (k : Nat) : List Instr × Terminator :=
  F.codeFrom k 0

/-- The code that is found in `F` at the place that the stage `g` marks. -/
def codeAt (F g : FunctionDraft) : List Instr × Terminator :=
  F.codeFrom g.current g.here.length

section

variable {F g : FunctionDraft}

theorem codeFrom_eq {b : BlockDraft} (hb : F.blocks[k]? = some b) (skipped : Nat) :
    F.codeFrom k skipped = (b.instrs.toList.drop skipped, b.terminator) := by
  simp only [codeFrom, hb]

theorem codeAt_switchTo {label : String} (h : g.blocks[k]? = some { label }) :
    F.codeAt (g.switchTo k) = F.codeOf k := by
  have hhere : (g.switchTo k).here = [] := by
    show (g.blocks[k]?.map _).getD [] = []
    rw [h]
    rfl
  rw [codeAt, hhere]
  rfl

/-- Where no block has been added to, the place is the same. -/
theorem codeAt_congr {g' : FunctionDraft} (hcurrent : g'.current = g.current)
    (hblock : g'.blocks[g.current]? = g.blocks[g.current]?) : F.codeAt g' = F.codeAt g := by
  have hhere : g'.here = g.here := by rw [here, here, hcurrent, hblock]
  rw [codeAt, codeAt, hhere, hcurrent]

/-- Instructions that are added are found at their place. -/
theorem codeAt_extend (hopen : g.Open) {is : List Instr} (h : Extends (g.extend is) F) :
    ∃ rest t, F.codeAt g = (is ++ rest, t) ∧ F.codeAt (g.extend is) = (rest, t) := by
  obtain ⟨b, hb, -⟩ := hopen
  have hlt := (Array.getElem?_eq_some_iff.mp hb).1
  have hadded : (g.extend is).blocks[g.current]? = some { b with instrs := b.instrs ++ is } := by
    rw [getElem?_extend, if_pos rfl, hb]
    rfl
  obtain ⟨b', hb', -, ⟨rest, hrest⟩, -⟩ := h.blocks _ _ hadded
  have hhere : g.here = b.instrs.toList := by
    rw [here, hb]
    rfl
  have hinstrs : b'.instrs.toList = b.instrs.toList ++ (is ++ rest) := by
    rw [← hrest]
    simp
  refine ⟨rest, b'.terminator, ?_, ?_⟩
  · rw [codeAt, codeFrom_eq hb', hhere, hinstrs, List.drop_left]
  · have hdrop : b'.instrs.toList.drop (g.extend is).here.length = rest := by
      rw [here_extend hlt, hhere, hinstrs, ← List.append_assoc, List.drop_left]
    have hcurrent : F.blocks[(g.extend is).current]? = some b' := hb'
    rw [codeAt, codeFrom_eq hcurrent, hdrop]

/-- The terminator that a block is given stands behind its instructions. -/
theorem codeAt_terminate (hopen : g.Open) {t : Terminator} (ht : t.isSet = true)
    (h : Extends (g.terminate t) F) : F.codeAt g = ([], t) := by
  obtain ⟨b, hb, -⟩ := hopen
  have hclosed := h.closed (getElem?_terminate_current hb t) ht
  have hhere : g.here = b.instrs.toList := by
    rw [here, hb]
    rfl
  rw [codeAt, codeFrom_eq hclosed, hhere]
  simp

/-- A branch stands behind the instructions of its block, with the label that its block has in the
end. -/
theorem codeAt_branch (hopen : g.Open) (hlt : k < g.blocks.size) (h : Extends (g.branch k) F) :
    F.codeAt g = ([], .br (F.label k)) := by
  have hall := (extends_terminate hopen (.br (g.label k))).trans h
  rw [codeAt_terminate hopen rfl h, ← hall.label_eq hlt]

theorem codeAt_condBranch (hopen : g.Open) {truth : Value} {i j : Nat} (hi : i < g.blocks.size)
    (hj : j < g.blocks.size) (h : Extends (g.condBranch truth i j) F) :
    F.codeAt g = ([], .condBr truth (F.label i) (F.label j)) := by
  have hall := (extends_terminate hopen (.condBr truth (g.label i) (g.label j))).trans h
  rw [codeAt_terminate hopen rfl h, ← hall.label_eq hi, ← hall.label_eq hj]

theorem block?_label (hF : F.Named) (hk : 0 < k) (hlt : k < F.blocks.size) :
    F.build.block? (F.label k) = some ⟨F.label k, (F.codeOf k).1, (F.codeOf k).2⟩ := by
  have hb : F.blocks[k]? = some F.blocks[k] := Array.getElem?_eq_getElem hlt
  have hlabel : F.label k = F.blocks[k].label := by
    rw [label, hb]
    rfl
  have hbuild : F.build.blocks[k]? =
      some ⟨F.blocks[k].label, F.blocks[k].instrs.toList, F.blocks[k].terminator⟩ := by
    rw [getElem?_build, hb, Option.map_some, if_neg (by omega)]
  obtain ⟨hk', hget⟩ := List.getElem?_eq_some_iff.mp hbuild
  rw [codeOf, codeFrom_eq hb, List.drop_zero, hlabel, Function.block?,
    List.find?_eq_some_iff_getElem]
  refine ⟨beq_self_eq_true _, k, hk', hget, ?_⟩
  intro j hj
  have hjlt : j < F.blocks.size := by omega
  have hjbuild := getElem?_build F j
  rw [Array.getElem?_eq_getElem hjlt, Option.map_some, List.getElem?_eq_some_iff] at hjbuild
  obtain ⟨hj', hjget⟩ := hjbuild
  rw [hjget]
  simp only [Bool.not_eq_true', beq_eq_false_iff_ne]
  intro heq
  have := hF.labels j k _ _ (Array.getElem?_eq_getElem hjlt) hb heq
  omega

end

end Pseudocode.Ir.FunctionDraft
