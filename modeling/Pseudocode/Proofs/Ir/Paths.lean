import Mathlib.Data.Set.Basic
import Mathlib.Logic.Relation
import Pseudocode.Proofs.Ir.Closed

/-!
Paths through a function.

A path goes from instruction to instruction, and from the end of a block to any block that its
terminator names.  Which of them would be taken is not looked at.  Along the path something is taken
down, and a `Watch` says what: how an instruction changes it, and what is asked of an instruction
that the path comes to.  A function passes if that holds of every instruction on every path from its
entry (`Function.Passes`).

This is proved for a piece of code at a time.  `Function.Confines f w P Q` is about a piece that is
entered at the places `P` and left at the places `Q`: whatever path is followed from `P`, all is
well until the path comes to `Q`. Pieces are put together with `trans` and `union`, and a loop is a
piece that leads back to where it is entered. Code that has no branches is looked at by
`Watch.Clears`, from one instruction to the next.
-/

namespace Pseudocode.Ir

variable {labels : List String} {k i j : Nat}

/-- What is taken down along a path, and what is asked of it. -/
structure Watch (σ : Type) where
  /-- What an instruction makes of what has been taken down. -/
  step : Instr → σ → σ
  /-- Is the path one that is followed beyond the instruction? -/
  goes : Instr → σ → Prop := fun _ _ => True
  /-- Is the instruction as it should be? -/
  ok : Instr → σ → Prop

/-- A place on a path: what is left of a block, where the block leads, and what has been taken
down. -/
structure Spot (σ : Type) where
  code : List Instr
  exit : Terminator
  data : σ

/-- Is the instruction that comes next as it should be? -/
def Spot.Ok {σ : Type} (w : Watch σ) (c : Spot σ) : Prop :=
  ∀ i rest, c.code = i :: rest → w.ok i c.data

/-- The place behind so many instructions. -/
def Spot.advance {σ : Type} (w : Watch σ) (n : Nat) (c : Spot σ) : Spot σ :=
  ⟨c.code.drop n, c.exit, (c.code.take n).foldl (fun d i => w.step i d) c.data⟩

namespace Function

variable {σ : Type}

/-- One step of a path. -/
inductive Moves (f : Function) (w : Watch σ) : Spot σ → Spot σ → Prop
  /-- From one instruction to the next. -/
  | run {i code exit d} (hgoes : w.goes i d) :
  Moves f w ⟨i :: code, exit, d⟩ ⟨code, exit, w.step i d⟩
  /-- From the end of a block to another block. -/
  | jump {exit d label b} (hlabel : label ∈ exit.targets) (hblock : f.block? label = some b) :
    Moves f w ⟨[], exit, d⟩ ⟨b.instrs, b.terminator, d⟩

/-- Does a path from the entry of the function come to the place? -/
def Arrives (f : Function) (w : Watch σ) (start : σ) (c : Spot σ) : Prop :=
  ∃ b, f.blocks.head? = some b ∧ Relation.ReflTransGen (f.Moves w) ⟨b.instrs, b.terminator, start⟩ c

/-- Is every instruction as it should be, on every path from the entry? -/
def Passes (f : Function) (w : Watch σ) (start : σ) : Prop :=
  ∀ c, f.Arrives w start c → c.Ok w

/-! ### Watching something else -/

section

variable {τ : Type} {f : Function} {w : Watch σ} {w' : Watch τ}

theorem Arrives.map (look : τ → σ) {start : τ} {c : Spot τ} (h : f.Arrives w' start c)
    (hstep : ∀ i d, look (w'.step i d) = w.step i (look d))
    (hgoes : ∀ i d, w'.goes i d → w.goes i (look d)) :
    f.Arrives w (look start) ⟨c.code, c.exit, look c.data⟩ := by
  obtain ⟨b, hhead, hpath⟩ := h
  refine ⟨b, hhead, ?_⟩
  induction hpath with
  | refl => exact .refl
  | tail _ hmove ih =>
    refine ih.tail ?_
    cases hmove with
    | run hgo =>
      rw [hstep]
      exact .run (hgoes _ _ hgo)
    | jump hlabel hblock => exact .jump hlabel hblock

theorem Passes.comap (look : τ → σ) {start : τ} (h : f.Passes w (look start))
    (hstep : ∀ i d, look (w'.step i d) = w.step i (look d))
    (hgoes : ∀ i d, w'.goes i d → w.goes i (look d))
    (hok : ∀ i d, w.ok i (look d) → w'.ok i d) : f.Passes w' start :=
  fun c hc i rest hcode => hok i c.data (h _ (hc.map look hstep hgoes) i rest hcode)

/-- Where every path is one that is followed, all is well on every path. -/
theorem Passes.follow {start : σ} (hgoes : f.Passes { step := w.step, ok := w.goes } start)
    (h : f.Passes w start) : f.Passes { step := w.step, ok := w.ok } start := by
  have hall : ∀ c, f.Arrives { step := w.step, ok := w.goes } start c → f.Arrives w start c := by
    rintro c ⟨b, hhead, hpath⟩
    refine ⟨b, hhead, ?_⟩
    induction hpath with
    | refl => exact .refl
    | tail hbefore hmove ih =>
      refine ih.tail ?_
      cases hmove with
      | run => exact .run (hgoes _ ⟨b, hhead, hbefore⟩ _ _ rfl)
      | jump hlabel hblock => exact .jump hlabel hblock
  intro c hc
  exact h c (hall c (hc.map id (fun _ _ => rfl) fun _ _ _ => trivial))

end

/-! ### Following labels -/

/-- The beginning of the last of these blocks, on a path through all of them. -/
def follow? (f : Function) (w : Watch σ) (c : Spot σ) : List String → Option (Spot σ)
  | [] => some c
  | label :: labels =>
    if label ∈ c.exit.targets then
      (f.block? label).bind fun b => f.follow? w
        ⟨b.instrs, b.terminator, (c.advance w c.code.length).data⟩ labels
    else none

/-- The place behind so many instructions of the last of these blocks, on a path through all of them
from the entry. -/
def spot? (f : Function) (w : Watch σ) (start : σ) (labels : List String) (n : Nat) :
    Option (Spot σ) :=
  f.blocks.head?.bind fun b => (f.follow? w ⟨b.instrs, b.terminator, start⟩ labels).map
    (Spot.advance w n)

section

variable {f : Function} {w : Watch σ} {c c' : Spot σ}

theorem moves_advance (hgoes : ∀ i d, w.goes i d) (n : Nat) (c : Spot σ) :
    Relation.ReflTransGen (f.Moves w) c (c.advance w n) := by
  obtain ⟨code, exit, d⟩ := c
  induction n generalizing code d with
  | zero => exact .refl
  | succ n ih =>
    cases code with
    | nil => exact .refl
    | cons i code => exact .head (.run (hgoes i d)) (ih code (w.step i d))

theorem moves_follow? (hgoes : ∀ i d, w.goes i d) (h : f.follow? w c labels = some c') :
    Relation.ReflTransGen (f.Moves w) c c' := by
  induction labels generalizing c with
  | nil =>
    rw [follow?, Option.some.injEq] at h
    rw [h]
  | cons label labels ih =>
    rw [follow?] at h
    split at h
    · next hlabel =>
        obtain ⟨b, hblock, hrest⟩ := Option.bind_eq_some_iff.mp h
        have hend : c.advance w c.code.length = ⟨[], c.exit, (c.advance w c.code.length).data⟩ := by
          simp [Spot.advance]
        have hcode := moves_advance (f := f) hgoes c.code.length c
        rw [hend] at hcode
        exact hcode.trans (.head (.jump hlabel hblock) (ih hrest))
    · simp at h

theorem arrives_of_spot? (hgoes : ∀ i d, w.goes i d) {start : σ} {n : Nat}
    (h : f.spot? w start labels n = some c) : f.Arrives w start c := by
  obtain ⟨b, hhead, hrest⟩ := Option.bind_eq_some_iff.mp h
  obtain ⟨c', hfollow, rfl⟩ := Option.map_eq_some_iff.mp hrest
  exact ⟨b, hhead, (moves_follow? hgoes hfollow).trans (moves_advance hgoes n c')⟩

end

/-! ### Pieces of code -/

/-- All is well on paths from `P`, up to where they leave for `Q`. -/
def Confines (f : Function) (w : Watch σ) (P Q : Set (Spot σ)) : Prop :=
  ∃ region : Set (Spot σ), P ⊆ region ∪ Q ∧ ∀ c ∈ region, c.Ok w ∧ ∀ c', f.Moves w c c' →
    c' ∈ region ∪ Q

namespace Confines

variable {f : Function} {w : Watch σ} {P P' Q Q' R : Set (Spot σ)}

theorem of_subset (h : P ⊆ Q) : f.Confines w P Q :=
  ⟨∅, h.trans Set.subset_union_right, fun c hc => absurd hc (Set.notMem_empty c)⟩

theorem trans (h₁ : f.Confines w P Q) (h₂ : f.Confines w Q R) : f.Confines w P R := by
  obtain ⟨region₁, hentry₁, hclosed₁⟩ := h₁
  obtain ⟨region₂, hentry₂, hclosed₂⟩ := h₂
  have hon : region₁ ∪ Q ⊆ region₁ ∪ region₂ ∪ R := by
    intro c hc
    rcases hc with hc | hc
    · exact Or.inl (Or.inl hc)
    · rcases hentry₂ hc with hc | hc
      · exact Or.inl (Or.inr hc)
      · exact Or.inr hc
  refine ⟨region₁ ∪ region₂, hentry₁.trans hon, ?_⟩
  intro c hc
  rcases hc with hc | hc
  · obtain ⟨hok, hmoves⟩ := hclosed₁ c hc
    exact ⟨hok, fun c' hmove => hon (hmoves c' hmove)⟩
  · obtain ⟨hok, hmoves⟩ := hclosed₂ c hc
    exact ⟨hok, fun c' hmove => (hmoves c' hmove).imp_left Or.inr⟩

theorem mono (h : f.Confines w P Q) (hP : P' ⊆ P) (hQ : Q ⊆ Q') : f.Confines w P' Q' :=
  (of_subset hP).trans (h.trans (of_subset hQ))

theorem of_forall (h : ∀ c ∈ P, f.Confines w {c} Q) : f.Confines w P Q := by
  choose! region hentry hclosed using h
  refine ⟨{c' | ∃ c ∈ P, c' ∈ region c}, ?_, ?_⟩
  · intro c hc
    rcases hentry c hc (Set.mem_singleton c) with hin | hout
    · exact Or.inl ⟨c, hc, hin⟩
    · exact Or.inr hout
  · rintro c' ⟨c, hc, hin⟩
    obtain ⟨hok, hmoves⟩ := hclosed c hc c' hin
    refine ⟨hok, fun c'' hmove => ?_⟩
    rcases hmoves c'' hmove with hin' | hout
    · exact Or.inl ⟨c, hc, hin'⟩
    · exact Or.inr hout

theorem union (h₁ : f.Confines w P Q) (h₂ : f.Confines w P' Q) : f.Confines w (P ∪ P') Q := by
  refine of_forall fun c hc => ?_
  rcases hc with hc | hc
  · exact h₁.mono (Set.singleton_subset_iff.mpr hc) (Set.Subset.refl _)
  · exact h₂.mono (Set.singleton_subset_iff.mpr hc) (Set.Subset.refl _)

theorem of_moves {c : Spot σ} (hok : c.Ok w) (hmoves : ∀ c', f.Moves w c c' → c' ∈ Q) :
    f.Confines w {c} Q := by
  refine ⟨{c}, Set.subset_union_left, ?_⟩
  intro c' hc'
  rw [Set.mem_singleton_iff] at hc'
  rw [hc']
  exact ⟨hok, fun c'' hmove => Or.inr (hmoves c'' hmove)⟩

/-- A loop: from where a turn ends, control goes back to where turns begin or leaves for `Q`. -/
theorem loop {E : Set (Spot σ)} (hturn : f.Confines w P E)
    (hend : ∀ e ∈ E, e.Ok w ∧ ∀ c, f.Moves w e c → c ∈ P ∪ Q) : f.Confines w P Q := by
  obtain ⟨region, hentry, hclosed⟩ := hturn
  refine ⟨region ∪ E, hentry.trans Set.subset_union_left, ?_⟩
  intro c hc
  rcases hc with hc | hc
  · obtain ⟨hok, hmoves⟩ := hclosed c hc
    exact ⟨hok, fun c' hmove => Or.inl (hmoves c' hmove)⟩
  · obtain ⟨hok, hmoves⟩ := hend c hc
    refine ⟨hok, fun c' hmove => ?_⟩
    rcases hmoves c' hmove with hc' | hc'
    · exact Or.inl (hentry hc')
    · exact Or.inr hc'

/-- Where no path leaves, an instruction that a path comes to is as it should be. -/
theorem ok (h : f.Confines w P ∅) {c c' : Spot σ} (hc : c ∈ P)
    (hpath : Relation.ReflTransGen (f.Moves w) c c') : c'.Ok w := by
  obtain ⟨region, hentry, hclosed⟩ := h
  rw [Set.union_empty] at hentry
  have hall : c' ∈ region := by
    induction hpath with
    | refl => exact hentry hc
    | tail _ hmove ih =>
      have := (hclosed _ ih).2 _ hmove
      rwa [Set.union_empty] at this
  exact (hclosed c' hall).1

end Confines

end Function

/-! ### Code without branches -/

/-- Is all well along instructions without branches, and does `Q` hold of what has been taken down
behind them? -/
def Watch.Clears {σ : Type} (w : Watch σ) : List Instr → σ → (σ → Prop) → Prop
  | [], d, Q => Q d
  | i :: is, d, Q => w.ok i d ∧ (w.goes i d → w.Clears is (w.step i d) Q)

namespace Watch.Clears

variable {σ : Type} {w : Watch σ} {is js : List Instr} {d : σ} {Q R : σ → Prop}

theorem confines (h : w.Clears is d Q) (f : Function) (rest : List Instr) (exit : Terminator) :
    f.Confines w {⟨is ++ rest, exit, d⟩} {c | ∃ d', Q d' ∧ c = ⟨rest, exit, d'⟩} := by
  induction is generalizing d with
  | nil => exact Function.Confines.of_subset (Set.singleton_subset_iff.mpr ⟨d, h, rfl⟩)
  | cons i is ih =>
    refine Function.Confines.trans
      (Q := {c | w.goes i d ∧ c = ⟨is ++ rest, exit, w.step i d⟩}) ?_ ?_
    · refine Function.Confines.of_moves ?_ ?_
      · intro i' rest' hcode
        rw [List.cons_append, List.cons.injEq] at hcode
        rw [← hcode.1]
        exact h.1
      · intro c hmove
        cases hmove with
        | run hgoes => exact ⟨hgoes, rfl⟩
    · refine Function.Confines.of_forall ?_
      rintro c ⟨hgoes, rfl⟩
      exact ih (h.2 hgoes)

end Watch.Clears

/-! ### Stages of a function in the making -/

namespace FunctionDraft

variable {σ : Type} {w : Watch σ} {F g : FunctionDraft} {P Q : σ → Prop}

/-- The place in `F` that the stage `g` marks, where `Q` holds of what has been taken down. -/
def atStage (F g : FunctionDraft) (Q : σ → Prop) : Set (Spot σ) :=
  {c | ∃ d, Q d ∧ c = ⟨(F.codeAt g).1, (F.codeAt g).2, d⟩}

/-- The beginning of a block of `F`, where `Q` holds of what has been taken down. -/
def atBlock (F : FunctionDraft) (k : Nat) (Q : σ → Prop) : Set (Spot σ) :=
  {c | ∃ d, Q d ∧ c = ⟨(F.codeOf k).1, (F.codeOf k).2, d⟩}

theorem atStage_mono (h : ∀ d, P d → Q d) : F.atStage g P ⊆ F.atStage g Q := by
  rintro c ⟨d, hd, rfl⟩
  exact ⟨d, h d hd, rfl⟩

theorem atBlock_mono (h : ∀ d, P d → Q d) : F.atBlock k P ⊆ F.atBlock k Q := by
  rintro c ⟨d, hd, rfl⟩
  exact ⟨d, h d hd, rfl⟩

/-- A block that is empty at a stage is entered at its beginning. -/
theorem atStage_switchTo {label : String} (h : g.blocks[k]? = some { label }) (Q : σ → Prop) :
    F.atStage (g.switchTo k) Q = F.atBlock k Q := by
  rw [atStage, atBlock, codeAt_switchTo h]

theorem atStage_congr {g' : FunctionDraft} (hcurrent : g'.current = g.current)
    (hblock : g'.blocks[g.current]? = g.blocks[g.current]?) (Q : σ → Prop) :
    F.atStage g' Q = F.atStage g Q := by
  rw [atStage, atStage, codeAt_congr hcurrent hblock]

theorem confines_extend (hopen : g.Open) {is : List Instr} (h : (g.extend is).Extends F) {d : σ}
    (hclears : w.Clears is d Q) :
    F.build.Confines w {⟨(F.codeAt g).1, (F.codeAt g).2, d⟩} (F.atStage (g.extend is) Q) := by
  obtain ⟨rest, t, hbefore, hafter⟩ := codeAt_extend hopen h
  rw [atStage, hbefore, hafter]
  exact hclears.confines F.build rest t

theorem ok_nil {exit : Terminator} {d : σ} : (⟨[], exit, d⟩ : Spot σ).Ok w := by
  intro i rest hcode
  simp at hcode

theorem moves_label (hF : F.Named) (hk : 0 < k) (hlt : k < F.blocks.size) {b : Block} {d : σ}
    (hblock : F.build.block? (F.label k) = some b) (hd : Q d) :
    (⟨b.instrs, b.terminator, d⟩ : Spot σ) ∈ F.atBlock k Q := by
  rw [block?_label hF hk hlt, Option.some.injEq] at hblock
  rw [← hblock]
  exact ⟨d, hd, rfl⟩

theorem confines_branch (hF : F.Named) (hopen : g.Open) (hk : 0 < k) (hlt : k < g.blocks.size)
    (h : (g.branch k).Extends F) (Q : σ → Prop) :
    F.build.Confines w (F.atStage g Q) (F.atBlock k Q) := by
  have hsize := ((extends_terminate hopen (.br (g.label k))).trans h).size_le
  refine Function.Confines.of_forall ?_
  rintro c ⟨d, hd, rfl⟩
  rw [codeAt_branch hopen hlt h]
  refine Function.Confines.of_moves ok_nil ?_
  intro c' hmove
  cases hmove with
  | jump hlabel hblock =>
    rw [Terminator.targets, List.mem_singleton] at hlabel
    rw [hlabel] at hblock
    exact moves_label hF hk (Nat.lt_of_lt_of_le hlt hsize) hblock hd

theorem moves_condBranch (hF : F.Named) (hopen : g.Open) {truth : Value} (hi : 0 < i)
    (hilt : i < g.blocks.size) (hj : 0 < j) (hjlt : j < g.blocks.size)
    (h : (g.condBranch truth i j).Extends F) {c : Spot σ} (hc : c ∈ F.atStage g Q) :
    c.Ok w ∧ ∀ c', F.build.Moves w c c' → c' ∈ F.atBlock i Q ∪ F.atBlock j Q := by
  have hsize := ((extends_terminate hopen (.condBr truth (g.label i) (g.label j))).trans h).size_le
  obtain ⟨d, hd, rfl⟩ := hc
  rw [codeAt_condBranch hopen hilt hjlt h]
  refine ⟨ok_nil, fun c' hmove => ?_⟩
  cases hmove with
  | jump hlabel hblock =>
    rw [Terminator.targets, List.mem_cons, List.mem_singleton] at hlabel
    rcases hlabel with hlabel | hlabel
    · rw [hlabel] at hblock
      exact Or.inl (moves_label hF hi (Nat.lt_of_lt_of_le hilt hsize) hblock hd)
    · rw [hlabel] at hblock
      exact Or.inr (moves_label hF hj (Nat.lt_of_lt_of_le hjlt hsize) hblock hd)

theorem confines_condBranch (hF : F.Named) (hopen : g.Open) {truth : Value} (hi : 0 < i)
    (hilt : i < g.blocks.size) (hj : 0 < j) (hjlt : j < g.blocks.size)
    (h : (g.condBranch truth i j).Extends F)
    (Q : σ → Prop) : F.build.Confines w (F.atStage g Q) (F.atBlock i Q ∪ F.atBlock j Q) := by
  refine Function.Confines.of_forall fun c hc => ?_
  obtain ⟨hok, hmoves⟩ := moves_condBranch (w := w) hF hopen hi hilt hj hjlt h hc
  exact Function.Confines.of_moves hok hmoves

theorem confines_leave (hopen : g.Open) {value : Option Value} (h : (g.leave value).Extends F)
    (Q : σ → Prop) : F.build.Confines w (F.atStage g Q) ∅ := by
  refine Function.Confines.of_forall ?_
  rintro c ⟨d, -, rfl⟩
  rw [codeAt_terminate hopen rfl h]
  refine Function.Confines.of_moves ok_nil ?_
  intro c' hmove
  cases hmove with
  | jump hlabel hblock => simp [Terminator.targets] at hlabel

theorem passes_build {start : σ} (hprologue : w.Clears F.prologue.toList start Q)
    (h : F.build.Confines w (F.atBlock 0 Q) ∅) : F.build.Passes w start := by
  rintro c ⟨b, hhead, hpath⟩
  refine Function.Confines.ok ?_ (Set.mem_singleton _) hpath
  have hb : F.build.blocks[0]? = some b := by rw [← List.head?_eq_getElem?, hhead]
  rw [getElem?_build, Option.map_eq_some_iff] at hb
  obtain ⟨b₀, hb₀, rfl⟩ := hb
  refine (hprologue.confines F.build b₀.instrs.toList b₀.terminator).trans
    (h.mono ?_ (Set.Subset.refl _))
  rintro c' ⟨d, hd, rfl⟩
  refine ⟨d, hd, ?_⟩
  rw [codeOf, codeFrom_eq hb₀, List.drop_zero]

end FunctionDraft

end Pseudocode.Ir
