import Pseudocode.Proofs.Ir.Closed

/-!
Where the branches of new code lead.

Code that is added to a function branches to blocks of its own: those that it has created.  It has
no way of getting at a block that was there before, unless it has been told which block to go on
with.  `Inward` says this of two stages of a function.  It speaks of labels, since that is what a
terminator holds, and it puts together as stages do, because a block keeps its label.

A draft is `Ready` for a statement if its current block is open, no two of its blocks have the same
label, and its branches lead to blocks that it has.  Then no branch so far leads to a block that is
created later.
-/

namespace Pseudocode.Ir.FunctionDraft

variable {f g h : FunctionDraft} {i : Nat} {label : String} {t : Terminator}

/-- The block ends in the terminator. -/
def EndsIn (f : FunctionDraft) (i : Nat) (t : Terminator) : Prop :=
  ∃ b, f.blocks[i]? = some b ∧ b.terminator = t

/-- The block may be left for one with the label. -/
def Branches (f : FunctionDraft) (i : Nat) (label : String) : Prop :=
  ∃ t, f.EndsIn i t ∧ label ∈ t.targets

theorem EndsIn.mono (hf : f.EndsIn i t) (hext : Extends f g) (hset : t.isSet = true) :
    g.EndsIn i t := by
  obtain ⟨b, hb, rfl⟩ := hf
  exact ⟨b, hext.closed hb hset, rfl⟩

theorem endsIn_terminate (hopen : f.Open) (t : Terminator) :
    (f.terminate t).EndsIn f.current t := by
  obtain ⟨b, hb, -⟩ := hopen
  exact ⟨_, getElem?_terminate_current hb t, rfl⟩

theorem not_branches_of_unset {b : BlockDraft} (hb : f.blocks[i]? = some b)
    (hunset : b.terminator.isSet = false) : ¬ f.Branches i label := by
  rintro ⟨_, ⟨b', hb', rfl⟩, hlabel⟩
  rw [hb, Option.some.injEq] at hb'
  subst hb'
  cases hterm : b.terminator with
  | unreachable => simp [hterm, Terminator.targets] at hlabel
  | _ => simp [hterm, Terminator.isSet] at hunset

theorem Branches.congr (hf : f.Branches i label) (heq : g.blocks[i]? = f.blocks[i]?) :
    g.Branches i label := by
  obtain ⟨t, ⟨b, hb, ht⟩, hlabel⟩ := hf
  exact ⟨t, ⟨b, heq.trans hb, ht⟩, hlabel⟩

theorem Branches.of_created {hints : List String} (hg : (f.created hints).Branches i label) :
    f.Branches i label := by
  by_cases hold : i < f.blocks.size
  · exact hg.congr (getElem?_created_old f hints hold).symm
  · by_cases hnew : i < f.blocks.size + hints.length
    · obtain ⟨name, hname⟩ := getElem?_created_new f hints (Nat.le_of_not_lt hold) hnew
      exact absurd hg (not_branches_of_unset hname rfl)
    · obtain ⟨_, ⟨b, hb, -⟩, -⟩ := hg
      have hlt := (Array.getElem?_eq_some_iff.mp hb).1
      rw [created_size] at hlt
      exact absurd hlt hnew

theorem Branches.of_terminate (hg : (f.terminate t).Branches i label) :
    f.Branches i label ∨ i = f.current ∧ label ∈ t.targets := by
  by_cases hi : i = f.current
  · obtain ⟨_, ⟨b, hb, rfl⟩, hlabel⟩ := hg
    refine Or.inr ⟨hi, ?_⟩
    change (f.blocks.modify f.current _)[i]? = some b at hb
    rw [hi, Array.getElem?_modify, if_pos rfl] at hb
    obtain ⟨b₀, -, rfl⟩ := Option.map_eq_some_iff.mp hb
    exact hlabel
  · exact Or.inl (hg.congr (getElem?_terminate_ne f t hi).symm)

/-- Code that stays in its block adds no branches. -/
theorem Branches.of_straight (hgrows : Grows f g) (hopen : g.Open)
    (hcurrent : g.current = f.current)
    (hsize : g.blocks.size = f.blocks.size) (hg : g.Branches i label) : f.Branches i label := by
  obtain ⟨b, hb, hunset⟩ := hopen
  by_cases hi : i = g.current
  · subst hi
    exact absurd hg (not_branches_of_unset hb hunset)
  · have hlt : i < f.blocks.size := by
      obtain ⟨_, ⟨b', hb', -⟩, -⟩ := hg
      have hlt := (Array.getElem?_eq_some_iff.mp hb').1
      omega
    exact hg.congr (hgrows.kept i hlt (by rwa [← hcurrent])).symm

theorem Named.label_inj (hf : f.Named) {j : Nat} (hi : i < f.blocks.size) (hj : j < f.blocks.size)
    (heq : f.label i = f.label j) : i = j := by
  refine hf.labels i j _ _ (Array.getElem?_eq_getElem hi) (Array.getElem?_eq_getElem hj) ?_
  simpa [label, Array.getElem?_eq_getElem hi, Array.getElem?_eq_getElem hj] using heq

/-! ### New branches -/

/-- Branches that have been added lead to blocks that have been added, or to the one that is
given. -/
def Inward (given? : Option Nat) (f g : FunctionDraft) : Prop :=
  ∀ i label, g.Branches i label →
    f.Branches i label ∨ ∃ j < g.blocks.size, (f.blocks.size ≤ j ∨ given? = some j) ∧
    g.label j = label

namespace Inward

variable {given? inner? : Option Nat}

theorem refl (given? : Option Nat) (f : FunctionDraft) : Inward given? f f :=
  fun _ _ hf => Or.inl hf

theorem given (hfg : Inward none f g) : Inward given? f g :=
  fun i label hlabel => (hfg i label hlabel).imp_right fun ⟨j, hj, hnew, heq⟩ =>
    ⟨j, hj, hnew.imp_right (fun h => nomatch h), heq⟩

/-- The second stage may have been given a block that the first has created. -/
theorem trans (hfg : Inward given? f g) (hgh : Inward inner? g h) (hfirst : Extends f g)
    (hext : Extends g h)
    (hinner : ∀ j, inner? = some j → f.blocks.size ≤ j ∨ given? = some j) : Inward given? f h := by
  intro i label hlabel
  rcases hgh i label hlabel with hold | ⟨j, hj, hnew, rfl⟩
  · rcases hfg i label hold with holder | ⟨j, hj, hnew, rfl⟩
    · exact Or.inl holder
    · exact Or.inr ⟨j, Nat.lt_of_lt_of_le hj hext.size_le, hnew, hext.label_eq hj⟩
  · refine Or.inr ⟨j, hj, ?_, rfl⟩
    rcases hnew with hnew | hgiven
    · exact Or.inl (Nat.le_trans hfirst.size_le hnew)
    · exact hinner j hgiven

theorem switchTo (hfg : Inward given? f g) (block : Nat) : Inward given? f (g.switchTo block) := hfg

theorem of_switchTo {block : Nat} (hfg : Inward given? (f.switchTo block) g) : Inward given? f g :=
  hfg

theorem of_straight (given? : Option Nat) (hgrows : Grows f g) (hopen : g.Open)
    (hcurrent : g.current = f.current)
    (hsize : g.blocks.size = f.blocks.size) : Inward given? f g :=
  fun _ _ hg => Or.inl (hg.of_straight hgrows hopen hcurrent hsize)

theorem created (hfg : Inward given? f g) (hints : List String) :
    Inward given? f (g.created hints) := by
  intro i label hlabel
  have hext := (grows_created g hints).toExtends
  rcases hfg i label hlabel.of_created with hold | ⟨j, hj, hnew, rfl⟩
  · exact Or.inl hold
  · exact Or.inr ⟨j, Nat.lt_of_lt_of_le hj hext.size_le, hnew, hext.label_eq hj⟩

theorem terminate (hfg : Inward given? f g) (hopen : g.Open)
    (ht : ∀ label ∈ t.targets, ∃ j < g.blocks.size, (f.blocks.size ≤ j ∨ given? = some j) ∧
      g.label j = label) :
    Inward given? f (g.terminate t) := by
  intro i label hlabel
  have hext := extends_terminate hopen t
  have hkept : (∃ j < g.blocks.size, (f.blocks.size ≤ j ∨ given? = some j) ∧ g.label j = label) →
      ∃ j < (g.terminate t).blocks.size, (f.blocks.size ≤ j ∨ given? = some j) ∧
      (g.terminate t).label j = label := by
    rintro ⟨j, hj, hnew, rfl⟩
    exact ⟨j, Nat.lt_of_lt_of_le hj hext.size_le, hnew, hext.label_eq hj⟩
  rcases hlabel.of_terminate with hold | ⟨-, hmem⟩
  · exact (hfg i label hold).imp_right hkept
  · exact Or.inr (hkept (ht label hmem))

theorem fallTo (hopen : f.Open) {block : Nat} (hblock : block < f.blocks.size) :
    Inward (some block) f (f.fallTo block) := by
  rw [fallTo_of_open hopen]
  refine (refl _ f).terminate hopen ?_
  intro label hlabel
  rw [Terminator.targets, List.mem_singleton] at hlabel
  exact ⟨block, hblock, Or.inr rfl, hlabel.symm⟩

theorem enter (hopen : f.Open) (kind : String) : Inward none f (f.enter kind) := by
  refine (((refl _ f).created [kind ++ ".body", kind ++ ".exit"]).terminate (hopen.created _)
    ?_).switchTo _
  rw [created_size]
  intro label hlabel
  rw [Terminator.targets, List.mem_singleton] at hlabel
  exact ⟨f.blocks.size, by simp, Or.inl (Nat.le_refl _), hlabel.symm⟩

end Inward

/-! ### The blocks of an arm -/

section

variable {truth : Value} {join? : Option Nat} {followed : Bool}

theorem terminate_label (f : FunctionDraft) (t : Terminator) (i : Nat) :
    (f.terminate t).label i = f.label i := by
  show ((f.blocks.modify f.current _)[i]?.map BlockDraft.label).getD "" = _
  rw [Array.getElem?_modify, label]
  split
  · rw [Option.map_map]
    rfl
  · rfl

theorem endsIn_fork (hopen : f.Open) (truth : Value) (join? : Option Nat) (followed : Bool) :
    (f.fork truth join? followed).function.EndsIn f.current
      (.condBr truth
        ((f.fork truth join? followed).function.label (f.fork truth join? followed).body)
        ((f.fork truth join? followed).function.label
          (f.fork truth join? followed).otherwise)) := by
  have hends := endsIn_terminate (hopen.created (forkHints join? followed))
    (.condBr truth ((f.created (forkHints join? followed)).label (f.fork truth join? followed).body)
      ((f.created (forkHints join? followed)).label (f.fork truth join? followed).otherwise))
  rw [created_current] at hends
  rw [fork, condBranch, terminate_label, terminate_label]
  exact hends

/-- An arm adds one branch, to its body and to where control goes if its condition fails. -/
theorem Branches.of_fork (h : (f.fork truth join? followed).function.Branches i label) :
    f.Branches i label ∨ i = f.current ∧
      ((f.fork truth join? followed).function.label (f.fork truth join? followed).body = label ∨
        (f.fork truth join? followed).function.label (f.fork truth join? followed).otherwise =
        label) := by
  rcases h.of_terminate with hold | ⟨hi, hmem⟩
  · exact Or.inl hold.of_created
  · rw [created_current] at hi
    rw [Terminator.targets, List.mem_pair] at hmem
    refine Or.inr ⟨hi, ?_⟩
    rw [fork, condBranch, terminate_label, terminate_label]
    exact hmem.imp Eq.symm Eq.symm

/-- Where the parts of an arm are, if the block where both go on is one that the function had or a
new one. -/
theorem fork_places (f : FunctionDraft) (truth : Value) {join? : Option Nat} (followed : Bool)
    (hjoin : ∀ join, join? = some join → join < f.blocks.size) :
    ((f.fork truth join? followed).body < (f.fork truth join? followed).function.blocks.size ∧
      (f.fork truth join? followed).otherwise < (f.fork truth join? followed).function.blocks.size ∧
      (f.fork truth join? followed).join < (f.fork truth join? followed).function.blocks.size) ∧
    (f.fork truth join? followed).join ≠ (f.fork truth join? followed).body ∧
    ((f.fork truth join? followed).otherwise = (f.fork truth join? followed).join ↔
      followed = false) ∧
    (f.blocks.size ≤ (f.fork truth join? followed).join ∨
      join? = some (f.fork truth join? followed).join) := by
  rw [fork_size]
  cases join? with
  | none => cases followed <;> simp [fork, forkHints]
  | some join =>
    have := hjoin join rfl
    cases followed <;> simp [fork, forkHints] <;> omega

theorem Inward.fork (truth : Value) (followed : Bool) (hjoin : ∀ join, join? = some join →
    join < f.blocks.size) : Inward join? f (f.fork truth join? followed).function := by
  obtain ⟨⟨hbody, hotherwise, -⟩, -, heq, hnew⟩ := fork_places f truth followed hjoin
  intro i label hlabel
  rcases hlabel.of_fork with hold | ⟨-, rfl | rfl⟩
  · exact Or.inl hold
  · exact Or.inr ⟨_, hbody, Or.inl (Nat.le_refl _), rfl⟩
  · refine Or.inr ⟨_, hotherwise, ?_, rfl⟩
    cases followed with
    | false => rwa [heq.mpr rfl]
    | true => exact Or.inl (Nat.le_succ _)

end

/-! ### Where a statement may begin -/

/-- The current block is open, labels are told apart, and branches lead to blocks of the
function. -/
structure Ready (f : FunctionDraft) : Prop where
  opened : f.Open
  named : f.Named
  branches : ∀ i label, f.Branches i label → ∃ j < f.blocks.size, f.label j = label

theorem Ready.step (hf : f.Ready) {given? : Option Nat} (hsteps : Steps f g) (hext : Extends f g)
    (hopen : g.Open) (hin : Inward given? f g) : g.Ready := by
  refine ⟨hopen, hf.named.steps hsteps, ?_⟩
  intro i label hlabel
  rcases hin i label hlabel with hold | ⟨j, hj, -, hlabel⟩
  · obtain ⟨j, hj, rfl⟩ := hf.branches i label hold
    exact ⟨j, Nat.lt_of_lt_of_le hj hext.size_le, hext.label_eq hj⟩
  · exact ⟨j, hj, hlabel⟩

theorem Ready.start (name : String) (params : List Param) (ret : Ty) :
    (FunctionDraft.start name params ret).Ready := by
  refine ⟨⟨_, getElem?_createBlock _ "entry", rfl⟩, Named.start name params ret, ?_⟩
  intro i label hlabel
  have hcreated : (FunctionDraft.created
      { name, params, ret, taken := params.foldl (fun taken p => taken.insert p.name) {} }
      ["entry"]).Branches i label := hlabel
  obtain ⟨_, ⟨b, hb, -⟩, -⟩ := hcreated.of_created
  simp at hb

end Pseudocode.Ir.FunctionDraft
