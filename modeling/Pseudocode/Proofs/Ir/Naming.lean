import Mathlib.Data.List.Nodup
import Pseudocode.Proofs.Ir.Soundness

/-!
The names of a function.

All that is named in a function shares one space of names: its parameters, its blocks, and the
registers that its instructions define.  Parameters come with names.  Blocks and slots are given
names that are not taken, and these have a dot in them or are `entry`.  All other registers are
counted, without a look at what is taken, and they have names that nothing else is given.  So
whatever is generated, no name is given twice (`FunctionDraft.Named.steps`,
`FunctionDraft.Sound.localNames_nodup`).
-/

namespace Pseudocode.Ir

variable {hint name : String}

/-- The names of the parameters of a function, of its blocks, and of what its instructions
define. -/
def Function.localNames (f : Function) : List String :=
  f.params.map Param.name ++ f.blocks.map Block.label ++ (results f.instrs).map Prod.fst

/-- The name of a register. -/
def Value.registerName : Value → String
  | .register name _ => name
  | _ => ""

namespace FunctionDraft

/-! ### Names that are given -/

/-- The names that blocks and slots have been given. -/
def givenNames (f : FunctionDraft) : List String :=
  f.blocks.toList.map BlockDraft.label ++ (results f.prologue.toList).map Prod.fst

/-- Names that have been given are told apart from one another, from the parameters and from counted
registers. -/
structure Named (f : FunctionDraft) : Prop where
  distinct : f.givenNames.Nodup
  taken : ∀ name ∈ f.params.map Param.name ++ f.givenNames, f.taken.contains name = true
  apart : ∀ name ∈ f.givenNames, name ∉ f.params.map Param.name
  uncounted : ∀ name ∈ f.givenNames, ¬ Draft.IsTemp name

theorem labels_modify (f : FunctionDraft) (k : Nat) (change : BlockDraft → BlockDraft)
    (hlabel : ∀ b, (change b).label = b.label) :
    (f.blocks.modify k change).toList.map BlockDraft.label =
    f.blocks.toList.map BlockDraft.label := by
  refine List.ext_getElem? fun i => ?_
  rw [List.getElem?_map, List.getElem?_map, Array.getElem?_toList, Array.getElem?_toList,
    Array.getElem?_modify]
  split
  · rw [Option.map_map]
    exact congrArg (Option.map · _) (funext hlabel)
  · rfl

namespace Named

variable {f g : FunctionDraft}

theorem same (hf : Named f) (hparams : g.params = f.params) (hnames : g.givenNames = f.givenNames)
    (htaken : g.taken = f.taken) : Named g := by
  refine ⟨?_, ?_, ?_, ?_⟩
  · rw [hnames]
    exact hf.distinct
  · rw [hparams, hnames, htaken]
    exact hf.taken
  · rw [hparams, hnames]
    exact hf.apart
  · rw [hnames]
    exact hf.uncounted

/-- **A free name may be given.** -/
theorem give (hf : Named f) (hcounted : ¬ Draft.IsTemp (Draft.freshName f.taken hint))
    (hparams : g.params = f.params)
    (hnames : g.givenNames.Perm (Draft.freshName f.taken hint :: f.givenNames))
    (htaken : g.taken = f.taken.insert (Draft.freshName f.taken hint)) : Named g := by
  have hfree : ∀ name ∈ f.params.map Param.name ++ f.givenNames,
    name ≠ Draft.freshName f.taken hint := by
    rintro name hname rfl
    have hcontains := hf.taken _ hname
    rw [Draft.freshName_free] at hcontains
    simp at hcontains
  have hcases : ∀ name ∈ g.givenNames, name = Draft.freshName f.taken hint ∨ name ∈ f.givenNames :=
    fun name hname => List.mem_cons.mp (hnames.mem_iff.mp hname)
  refine ⟨?_, ?_, ?_, ?_⟩
  · refine hnames.nodup_iff.mpr (List.nodup_cons.mpr ⟨fun hmem => ?_, hf.distinct⟩)
    exact hfree _ (List.mem_append_right _ hmem) rfl
  · intro name hname
    rw [htaken, Std.TreeSet.contains_insert, Bool.or_eq_true]
    rw [hparams, List.mem_append] at hname
    rcases hname with hparam | hgiven
    · exact Or.inr (hf.taken name (List.mem_append_left _ hparam))
    · rcases hcases name hgiven with rfl | hold
      · exact Or.inl (by simp)
      · exact Or.inr (hf.taken name (List.mem_append_right _ hold))
  · intro name hname
    rw [hparams]
    rcases hcases name hname with rfl | hold
    · exact fun hparam => hfree _ (List.mem_append_left _ hparam) rfl
    · exact hf.apart name hold
  · intro name hname
    rcases hcases name hname with rfl | hold
    · exact hcounted
    · exact hf.uncounted name hold

theorem createBlock (hf : Named f) (hcounted : ¬ Draft.IsTemp (Draft.freshName f.taken hint)) :
    Named (f.createBlock hint).2 := by
  refine hf.give hcounted rfl ?_ rfl
  show ((f.blocks.push { label := Draft.freshName f.taken hint }).toList.map BlockDraft.label ++
    _).Perm _
  rw [Array.toList_push, List.map_append, List.append_assoc]
  exact List.perm_middle

theorem reserve (hf : Named f) (hdot : '.' ∈ hint.toList) (ty : Ty) :
    Named (f.reserve hint ty).2 := by
  refine hf.give (Draft.not_isTemp_of_dot (Draft.dot_mem_freshName hdot)) rfl ?_ rfl
  show (_ ++ (results (f.prologue.push (.alloca (Draft.freshName f.taken hint) ty)).toList).map
    Prod.fst).Perm _
  rw [Array.toList_push, results_append, List.map_append, ← List.append_assoc]
  exact List.perm_append_singleton _ _

/-- **Names stay apart**, whatever is generated. -/
theorem steps (hf : Named f) (h : Steps f g) : Named g := by
  induction h with
  | refl => exact hf
  | extend is _ ih =>
    refine ih.same rfl (congrArg (· ++ _) ?_) rfl
    exact labels_modify _ _ (fun b => { b with instrs := b.instrs ++ is }) fun _ => rfl
  | terminate t _ ih =>
    refine ih.same rfl (congrArg (· ++ _) ?_) rfl
    exact labels_modify _ _ (fun b => { b with terminator := t }) fun _ => rfl
  | switchTo block _ ih => exact ih.same rfl rfl rfl
  | createBlock hdot _ ih =>
    exact ih.createBlock (Draft.not_isTemp_of_dot (Draft.dot_mem_freshName hdot))
  | reserve hdot ty _ ih => exact ih.reserve hdot ty
  | @storeFirst g value ptr _ ih =>
    refine ih.same rfl (congrArg (g.blocks.toList.map BlockDraft.label ++ ·) ?_) rfl
    show (results (g.prologue.push (.store value ptr)).toList).map Prod.fst = _
    rw [Array.toList_push, results_append]
    exact congrArg (List.map Prod.fst) (List.append_nil _)

theorem contains_foldl_insert (params : List Param) (taken : Std.TreeSet String)
    (h : name ∈ params.map Param.name ∨ taken.contains name = true) :
    (params.foldl (fun taken p => taken.insert p.name) taken).contains name = true := by
  induction params generalizing taken with
  | nil => exact h.resolve_left (by simp)
  | cons p params ih =>
    refine ih _ ?_
    rw [Std.TreeSet.contains_insert, Bool.or_eq_true]
    rcases h with h | h
    · rcases List.mem_cons.mp h with rfl | h
      · exact Or.inr (Or.inl (by simp))
      · exact Or.inl h
    · exact Or.inr (Or.inr h)

/-- The first block of a function is called `entry`, which is no counted register. -/
theorem start (name : String) (params : List Param) (ret : Ty) :
    Named (FunctionDraft.start name params ret) := by
  have hempty :
    Named { name, params, ret, taken := params.foldl (fun taken p => taken.insert p.name) {} } := by
    refine ⟨List.nodup_nil, ?_, by simp [givenNames], by simp [givenNames]⟩
    intro name hname
    rw [show givenNames _ = [] from rfl, List.append_nil] at hname
    exact contains_foldl_insert params {} (Or.inl hname)
  have hentry :
    ¬ Draft.IsTemp
    (Draft.freshName (params.foldl (fun taken p => taken.insert p.name) {}) "entry") := ?_
  · exact (hempty.createBlock hentry).same rfl rfl rfl
  rintro ⟨k, hk⟩
  have hlist := congrArg String.toList hk
  rw [Draft.toList_tempName] at hlist
  rcases Draft.freshName_eq (params.foldl (fun taken p => taken.insert p.name) {}) "entry" with
    hname | ⟨j, hname⟩
  · rw [hname] at hlist
    simp at hlist
  · rw [hname, Draft.toList_numbered] at hlist
    simp at hlist

/-! ### Blocks and slots -/

theorem labels (hf : Named f) (i j : Nat) (b b' : BlockDraft) (hb : f.blocks[i]? = some b)
    (hb' : f.blocks[j]? = some b') (heq : b.label = b'.label) : i = j := by
  have hnodup := (List.nodup_append.mp hf.distinct).1
  have hlabel : ∀ (k : Nat) (c : BlockDraft), f.blocks[k]? = some c →
      (f.blocks.toList.map BlockDraft.label)[k]? = some c.label := by
    intro k c hc
    rw [List.getElem?_map, Array.getElem?_toList, hc]
    rfl
  refine (List.getElem?_inj ?_ hnodup).mp ((hlabel i b hb).trans (heq ▸ (hlabel j b' hb').symm))
  exact (List.getElem?_eq_some_iff.mp (hlabel i b hb)).1

theorem slots (hf : Named f) (i j : Nat) (name : String) (t t' : Ty)
    (hi : f.prologue[i]? = some (.alloca name t))
    (hj : f.prologue[j]? = some (.alloca name t')) : i = j := by
  have hnodup : (results f.prologue.toList).Pairwise fun d e => d.1 ≠ e.1 :=
    List.pairwise_map.mp (List.nodup_append.mp hf.distinct).2.1
  rw [results, List.pairwise_filterMap, List.pairwise_iff_getElem] at hnodup
  rw [← Array.getElem?_toList] at hi hj
  obtain ⟨hilt, hi⟩ := List.getElem?_eq_some_iff.mp hi
  obtain ⟨hjlt, hj⟩ := List.getElem?_eq_some_iff.mp hj
  rcases Nat.lt_trichotomy i j with hlt | heq | hgt
  · refine absurd rfl (hnodup i j hilt hjlt hlt (name, .ptr t) ?_ (name, .ptr t') ?_)
    · rw [hi]; rfl
    · rw [hj]; rfl
  · exact heq
  · refine absurd rfl (hnodup j i hjlt hilt hgt (name, .ptr t') ?_ (name, .ptr t) ?_)
    · rw [hj]; rfl
    · rw [hi]; rfl

end Named

/-! ### Names that are asked for -/

/-- Something that is to be given a name. -/
inductive Wanted where
  | block (hint : String)
  | slot (hint : String) (ty : Ty)

/-- What the name is to look like. -/
def Wanted.base : Wanted → String
  | block hint => hint
  | slot hint _ => hint

/-- Adds a block or a slot, and gives its name. -/
def give (f : FunctionDraft) : Wanted → String × FunctionDraft
  | .block hint => ((f.createBlock hint).2.label (f.createBlock hint).1, (f.createBlock hint).2)
  | .slot hint ty => ((f.reserve hint ty).1.registerName, (f.reserve hint ty).2)

/-- Adds blocks and slots, one after another, and gives their names. -/
def giveAll (f : FunctionDraft) : List Wanted → List String × FunctionDraft
  | [] => ([], f)
  | x :: xs => ((f.give x).1 :: ((f.give x).2.giveAll xs).1, ((f.give x).2.giveAll xs).2)

theorem give_eq (f : FunctionDraft) (x : Wanted) :
    (f.give x).1 = (f.takeName x.base).1 ∧ (f.give x).2.taken = (f.takeName x.base).2.taken := by
  cases x with
  | slot hint ty => exact ⟨rfl, rfl⟩
  | block hint =>
    refine ⟨?_, rfl⟩
    show ((f.blocks.push _)[f.blocks.size]?.map BlockDraft.label).getD "" = _
    rw [Array.getElem?_push_size]
    rfl

theorem mem_taken_takeName (f : FunctionDraft) (hint other : String) :
    other ∈ (f.takeName hint).2.taken ↔ other = (f.takeName hint).1 ∨ other ∈ f.taken := by
  show other ∈ f.taken.insert _ ↔ _
  rw [Std.TreeSet.mem_insert, Std.LawfulEqOrd.compare_eq_iff_eq, eq_comm]
  rfl

/-- Names that are given one after another are free before, and different. -/
theorem giveAll_fresh (f : FunctionDraft) (xs : List Wanted) :
    (f.giveAll xs).1.Nodup ∧ ∀ name ∈ (f.giveAll xs).1, name ∉ f.taken := by
  induction xs generalizing f with
  | nil => exact ⟨List.nodup_nil, by simp [giveAll]⟩
  | cons x xs ih =>
    obtain ⟨hdistinct, hfree⟩ := ih (f.give x).2
    obtain ⟨hname, htaken⟩ := f.give_eq x
    have hlater : ∀ name ∈ ((f.give x).2.giveAll xs).1, name ≠ (f.give x).1 ∧ name ∉ f.taken := by
      intro name hmem
      have hnot := hfree name hmem
      rw [htaken, mem_taken_takeName, not_or, ← hname] at hnot
      exact hnot
    refine ⟨List.nodup_cons.mpr ⟨fun hmem => (hlater _ hmem).1 rfl, hdistinct⟩, ?_⟩
    intro name hmem
    rcases List.mem_cons.mp hmem with rfl | hrest
    · rw [hname, ← Std.TreeSet.contains_iff_mem, Bool.not_eq_true]
      exact Draft.freshName_free _ _
    · exact (hlater name hrest).2

/-- **Names that are asked for are found, and fresh.**  For any taken names and any hint, the first
name that is free is found, and from then on it is taken as well.  So the blocks and slots that are
added to a new function, in any order and with any hints, have different names, and none has the
name of a parameter or of the first block. -/
theorem giveAll_start_fresh (name : String) (params : List Param) (ret : Ty) (xs : List Wanted) :
    (∀ (f : FunctionDraft) (hint : String), Draft.Finds f.taken hint (f.takeName hint).1 ∧
        ∀ other, other ∈ (f.takeName hint).2.taken ↔ other = (f.takeName hint).1 ∨
        other ∈ f.taken) ∧
      (∀ (f : FunctionDraft) (x : Wanted), (f.give x).1 = (f.takeName x.base).1 ∧
        (f.give x).2.taken = (f.takeName x.base).2.taken) ∧
      ((start name params ret).giveAll xs).1.Nodup ∧
      ∀ given ∈ ((start name params ret).giveAll xs).1,
        given ∉ params.map Param.name ++ (start name params ret).givenNames := by
  obtain ⟨hdistinct, hfree⟩ := (start name params ret).giveAll_fresh xs
  refine ⟨fun f hint => ⟨Draft.finds_freshName _ _, f.mem_taken_takeName hint⟩, give_eq,
    hdistinct, ?_⟩
  intro given hgiven hearlier
  exact hfree given hgiven
    (Std.TreeSet.contains_iff_mem.mp ((Named.start name params ret).taken given hearlier))

/-- Hints that look like numbered forms of others. -/
theorem numberedHints_fresh :
    let names := ((start "f" [⟨"x", .i32⟩] .i32).giveAll [.slot "x.1" .i32, .slot "x" .i32,
      .block "x", .block "x.1"]).1
    names = ["x.1", "x.2", "x.3", "x.1.1"] ∧ names.Nodup :=
  ⟨by decide +kernel, (giveAll_start_fresh _ _ _ _).2.2.1⟩

/-! ### The finished function -/

/-- What the blocks of a draft define. -/
def blockResults (f : FunctionDraft) : List (String × Ty) :=
  f.blocks.toList.flatMap fun b => results b.instrs.toList

theorem labels_build (f : FunctionDraft) :
    f.build.blocks.map Block.label = f.blocks.toList.map BlockDraft.label := by
  refine List.ext_getElem? fun k => ?_
  rw [List.getElem?_map, getElem?_build, List.getElem?_map, Array.getElem?_toList, Option.map_map]
  rfl

namespace Sound

variable {f : FunctionDraft} {allows : Instr → Prop}

theorem results_build (hf : f.Sound allows) :
    results f.build.instrs = results f.prologue.toList ++ f.blockResults := by
  show results ((List.modifyHead _ (f.blocks.toList.map _)).flatMap Block.instrs) = _
  cases hblocks : f.blocks.toList with
  | nil =>
    have hcurrent := hf.current
    rw [← Array.length_toList, hblocks] at hcurrent
    exact absurd hcurrent (Nat.not_lt_zero _)
  | cons b rest =>
    rw [blockResults, hblocks]
    simp [results, List.filterMap_append, List.filterMap_flatMap, List.flatMap_map]

theorem blockResults_nodup (hf : f.Sound allows) : (f.blockResults.map Prod.fst).Nodup := by
  rw [blockResults, List.map_flatMap, List.nodup_flatMap]
  refine ⟨fun b hb => ?_, ?_⟩
  · obtain ⟨k, hk⟩ := List.mem_iff_getElem?.mp hb
    rw [Array.getElem?_toList] at hk
    exact hf.once k b hk
  · rw [List.pairwise_iff_getElem]
    intro j k hj hk hlt name hname hname'
    obtain ⟨d, hd, rfl⟩ := List.mem_map.mp hname
    obtain ⟨e, he, heq⟩ := List.mem_map.mp hname'
    have hsame :=
      hf.apart j k _ _ (by rw [← Array.getElem?_toList]; exact List.getElem?_eq_getElem hj)
      (by rw [← Array.getElem?_toList]; exact List.getElem?_eq_getElem hk) d hd e he heq.symm
    omega

theorem isTemp_of_blockResults (hf : f.Sound allows) (h : name ∈ f.blockResults.map Prod.fst) :
    Draft.IsTemp name := by
  obtain ⟨d, hd, rfl⟩ := List.mem_map.mp h
  obtain ⟨b, hb, hd⟩ := List.mem_flatMap.mp hd
  obtain ⟨k, hk⟩ := List.mem_iff_getElem?.mp hb
  rw [Array.getElem?_toList] at hk
  obtain ⟨n, -, hname⟩ := hf.counted k b hk d hd
  exact ⟨n, hname⟩

/-- **No name is given twice in a function**, if its parameters have different names. -/
theorem localNames_nodup (hf : f.Sound allows) (hnamed : f.Named)
    (hparams : (f.params.map Param.name).Nodup) : f.build.localNames.Nodup := by
  have hnames : f.build.localNames = (f.params.map Param.name ++ f.givenNames) ++
    f.blockResults.map Prod.fst := by
    rw [Function.localNames, labels_build, hf.results_build, List.map_append,
      givenNames, ← List.append_assoc, ← List.append_assoc]
    rfl
  rw [hnames, List.nodup_append, List.nodup_append]
  refine ⟨⟨hparams, hnamed.distinct, ?_⟩, hf.blockResults_nodup, ?_⟩
  · rintro name hparam _ hgiven rfl
    exact hnamed.apart name hgiven hparam
  · rintro name hname _ hcounted rfl
    have htemp := hf.isTemp_of_blockResults hcounted
    rcases List.mem_append.mp hname with hparam | hgiven
    · obtain ⟨p, hp, rfl⟩ := List.mem_map.mp hparam
      exact Draft.not_isTemp_of_dot
        (hf.dotted (p.name, p.ty) (List.mem_append_left _ (List.mem_map.mpr ⟨p, hp, rfl⟩))) htemp
    · exact hnamed.uncounted name hgiven htemp

end Sound

end FunctionDraft

end Pseudocode.Ir
