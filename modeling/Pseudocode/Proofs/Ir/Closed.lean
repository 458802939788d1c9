import Mathlib.Data.Set.Insert
import Pseudocode.Proofs.Ir.Places

/-!
Control-flow graphs that are closed.

A function is closed if every block of it ends somewhere: it returns or it branches, and a branch
leads to a block of the same function.  The first block, where the function is entered, is not
branched to, and neither is a block that holds what follows a return.

While a function is made, blocks wait for their terminators.  `FunctionDraft.Closing` says that no
others than the `pending` ones do, and that every branch so far leads to a block that may be
branched to.  A conditional makes its new blocks pending, and takes each of them off again when it
has closed it; at the end of a function nothing is pending.
-/

namespace Pseudocode.Ir

variable {i j : Nat}

namespace Terminator

/-- The labels of the blocks that a terminator may lead to. -/
def targets : Terminator → List String
  | br label => [label]
  | condBr _ ifTrue ifFalse => [ifTrue, ifFalse]
  | _ => []

/-- What is returned, if the function is left. -/
def returned? : Terminator → Option (Option Value)
  | ret value => some value
  | _ => none

end Terminator

/-- Is the label one for what follows a return? -/
def AfterReturn (label : String) : Prop :=
  label = "after.return" ∨ ∃ k, label = Draft.numbered "after.return" k

namespace Function

/-- Is the control-flow graph of a function closed? -/
structure Closed (f : Function) : Prop where
  /-- Every block has been given a terminator. -/
  ended : ∀ b ∈ f.blocks, b.terminator ≠ .unreachable
  /-- Branches lead to blocks of the function, -/
  targets : ∀ b ∈ f.blocks, ∀ label ∈ b.terminator.targets, ∃ b' ∈ f.blocks, b'.label = label
  /-- not to the one where the function is entered, -/
  entry : ∀ b ∈ f.blocks, ∀ label ∈ b.terminator.targets, ∀ first, f.blocks.head? = some first →
    first.label ≠ label
  /-- and not to what follows a return. -/
  afterReturn : ∀ b ∈ f.blocks, ∀ label ∈ b.terminator.targets, ¬ AfterReturn label

/-- What the function returns, one entry for each block that leaves it. -/
def returns (f : Function) : List (Option Value) :=
  f.blocks.filterMap fun b => b.terminator.returned?

end Function

/-! ### Labels -/

theorem AfterReturn.head {label : String} (h : AfterReturn label) :
    label.toList.head? = some 'a' := by
  rcases h with rfl | ⟨k, rfl⟩
  · rfl
  · rw [Draft.toList_numbered]
    rfl

/-- A label that is made from another hint does not look like one for what follows a return. -/
theorem not_afterReturn {hint : String} (hhint : hint.toList.head? ≠ some 'a')
    (taken : Std.TreeSet String) : ¬ AfterReturn (Draft.freshName taken hint) := by
  intro h
  have hhead := h.head
  rcases Draft.freshName_eq taken hint with heq | ⟨k, heq⟩
  · rw [heq] at hhead
    exact hhint hhead
  · rw [heq, Draft.toList_numbered] at hhead
    cases hlist : hint.toList with
    | nil => simp [hlist] at hhead
    | cons c rest =>
      rw [hlist] at hhint hhead
      exact hhint hhead

namespace FunctionDraft

variable {f g : FunctionDraft} {silent : Prop} {P Q : Set Nat}

theorem label_created (hints : List String) (hhints : ∀ hint ∈ hints, hint.toList.head? ≠ some 'a')
    (hi : f.blocks.size ≤ i) (hlt : i < f.blocks.size + hints.length) :
    ¬ AfterReturn ((f.created hints).label i) := by
  induction hints generalizing f with
  | nil =>
    rw [List.length_nil] at hlt
    omega
  | cons hint hints ih =>
    rw [created_cons]
    by_cases heq : i = f.blocks.size
    · have hlabel :
        ((f.createBlock hint).2.created hints).label i = Draft.freshName f.taken hint := by
        rw [label, getElem?_created_old _ _ (by rw [createBlock_size]; omega), heq,
          getElem?_createBlock]
        rfl
      rw [hlabel]
      exact not_afterReturn (hhints hint List.mem_cons_self) _
    · refine ih (fun h hh => hhints h (List.mem_cons_of_mem _ hh)) ?_ ?_
      · rw [createBlock_size]
        omega
      · rw [createBlock_size]
        rw [List.length_cons] at hlt
        omega

/-! ### Blocks that may be branched to -/

/-- May the block be branched to? -/
structure IsTarget (f : FunctionDraft) (i : Nat) : Prop where
  pos : 0 < i
  lt : i < f.blocks.size
  label : ¬ AfterReturn (f.label i)

theorem IsTarget.mono (h : f.IsTarget i) (hext : Extends f g) : g.IsTarget i := by
  refine ⟨h.pos, Nat.lt_of_lt_of_le h.lt hext.size_le, ?_⟩
  rw [hext.label_eq h.lt]
  exact h.label

/-- Does the terminator lead only to blocks that may be branched to? -/
def Admits (f : FunctionDraft) (t : Terminator) : Prop :=
  ∀ label ∈ t.targets, ∃ i, f.IsTarget i ∧ f.label i = label

theorem Admits.mono {t : Terminator} (h : f.Admits t) (hext : Extends f g) : g.Admits t := by
  intro label hlabel
  obtain ⟨i, hi, heq⟩ := h label hlabel
  exact ⟨i, hi.mono hext, by rw [hext.label_eq hi.lt, heq]⟩

theorem admits_br (hi : f.IsTarget i) : f.Admits (.br (f.label i)) := by
  intro label hlabel
  rw [Terminator.targets, List.mem_singleton] at hlabel
  exact ⟨i, hi, hlabel.symm⟩

theorem admits_condBr {truth : Value} (hi : f.IsTarget i) (hj : f.IsTarget j) :
    f.Admits (.condBr truth (f.label i) (f.label j)) := by
  intro label hlabel
  rw [Terminator.targets, List.mem_pair] at hlabel
  rcases hlabel with rfl | rfl
  · exact ⟨i, hi, rfl⟩
  · exact ⟨j, hj, rfl⟩

/-! ### Functions whose blocks are being closed -/

/-- Only pending blocks wait for their terminators, and branches lead where they may.  If the
function is to be silent, it has not been left anywhere. -/
structure Closing (silent : Prop) (f : FunctionDraft) (pending : Set Nat) : Prop where
  ended : ∀ (i : Nat) (b : BlockDraft), f.blocks[i]? = some b → b.terminator.isSet = false →
    i ∈ pending
  targets : ∀ (i : Nat) (b : BlockDraft), f.blocks[i]? = some b → f.Admits b.terminator
  returns : silent → ∀ (i : Nat) (b : BlockDraft), f.blocks[i]? = some b →
    b.terminator.returned? = none

namespace Closing

theorem mono (h : Closing silent f P) (hsub : P ⊆ Q) : Closing silent f Q :=
  ⟨fun i b hb hunset => hsub (h.ended i b hb hunset), h.targets, h.returns⟩

theorem weaken (h : Closing silent f P) : Closing False f P :=
  ⟨h.ended, h.targets, fun hsilent => hsilent.elim⟩

/-- Nothing but terminators matters. -/
theorem of_terminators (h : Closing silent f P) (hext : Extends f g)
    (hblocks : ∀ (i : Nat) (b' : BlockDraft), g.blocks[i]? = some b' →
      ∃ b, f.blocks[i]? = some b ∧ b'.terminator = b.terminator) : Closing silent g P := by
  refine ⟨?_, ?_, ?_⟩
  · intro i b' hb' hunset
    obtain ⟨b, hb, heq⟩ := hblocks i b' hb'
    exact h.ended i b hb (by rw [← heq, hunset])
  · intro i b' hb'
    obtain ⟨b, hb, heq⟩ := hblocks i b' hb'
    rw [heq]
    exact (h.targets i b hb).mono hext
  · intro hsilent i b' hb'
    obtain ⟨b, hb, heq⟩ := hblocks i b' hb'
    rw [heq]
    exact h.returns hsilent i b hb

theorem extend (h : Closing silent f P) (hopen : Open f) (is : List Instr) :
    Closing silent (f.extend is) P := by
  refine h.of_terminators (extends_extend hopen is) ?_
  intro i b' hb'
  rw [getElem?_extend] at hb'
  by_cases hi : f.current = i
  · rw [if_pos hi, Option.map_eq_some_iff] at hb'
    obtain ⟨b, hb, rfl⟩ := hb'
    exact ⟨b, hb, rfl⟩
  · rw [if_neg hi] at hb'
    exact ⟨b', hb', rfl⟩

theorem setup (h : Closing silent f P) (i : Instr) (taken : Std.TreeSet String) :
    Closing silent { f with prologue := f.prologue.push i, taken } P :=
  h.of_terminators (extends_setup f i taken) fun _ b hb => ⟨b, hb, rfl⟩

theorem switchTo (h : Closing silent f P) (block : Nat) : Closing silent (f.switchTo block) P :=
  h.of_terminators (extends_switchTo f block) fun _ b hb => ⟨b, hb, rfl⟩

theorem createBlock (h : Closing silent f P) (hint : String) :
    Closing silent (f.createBlock hint).2 (insert f.blocks.size P) := by
  have hext := extends_createBlock f hint
  have hcases : ∀ (i : Nat) (b : BlockDraft), (f.createBlock hint).2.blocks[i]? = some b →
      f.blocks[i]? = some b ∨ i = f.blocks.size ∧ b.terminator = .unreachable := by
    intro i b hb
    have hpush : (f.blocks.push { label := Draft.freshName f.taken hint })[i]? = some b := hb
    rw [Array.getElem?_push] at hpush
    by_cases hi : i = f.blocks.size
    · rw [if_pos hi, Option.some.injEq] at hpush
      exact Or.inr ⟨hi, by rw [← hpush]⟩
    · rw [if_neg hi] at hpush
      exact Or.inl hpush
  refine ⟨?_, ?_, ?_⟩
  · intro i b hb hunset
    rcases hcases i b hb with hold | ⟨rfl, -⟩
    · exact Set.mem_insert_of_mem _ (h.ended i b hold hunset)
    · exact Set.mem_insert _ _
  · intro i b hb
    rcases hcases i b hb with hold | ⟨-, hnew⟩
    · exact (h.targets i b hold).mono hext
    · rw [hnew]
      intro label hlabel
      exact absurd hlabel List.not_mem_nil
  · intro hsilent i b hb
    rcases hcases i b hb with hold | ⟨-, hnew⟩
    · exact h.returns hsilent i b hold
    · rw [hnew]
      rfl

theorem created (h : Closing silent f P) (hints : List String) :
    Closing silent (f.created hints)
    ({i | f.blocks.size ≤ i ∧ i < f.blocks.size + hints.length} ∪ P) := by
  induction hints generalizing f P with
  | nil => exact h.mono Set.subset_union_right
  | cons hint hints ih =>
    refine (ih (h.createBlock hint)).mono ?_
    rintro i (⟨hle, hlt⟩ | rfl | hi)
    · rw [createBlock_size] at hle hlt
      exact Or.inl ⟨by omega, by rw [List.length_cons]; omega⟩
    · exact Or.inl ⟨Nat.le_refl _, by rw [List.length_cons]; omega⟩
    · exact Or.inr hi

theorem terminate (h : Closing silent f (insert f.current P)) (hopen : Open f) {t : Terminator}
    (ht : t.isSet = true)
    (hadmits : f.Admits t) (hreturn : silent → t.returned? = none) :
    Closing silent (f.terminate t) P := by
  have hext := extends_terminate hopen t
  have hcases : ∀ (i : Nat) (b : BlockDraft), (f.terminate t).blocks[i]? = some b →
      i ≠ f.current ∧ f.blocks[i]? = some b ∨ b.terminator = t := by
    intro i b hb
    by_cases hi : i = f.current
    · obtain ⟨b₀, hb₀, -⟩ := hopen
      rw [hi, getElem?_terminate_current hb₀, Option.some.injEq] at hb
      exact Or.inr (by rw [← hb])
    · rw [getElem?_terminate_ne _ _ hi] at hb
      exact Or.inl ⟨hi, hb⟩
  refine ⟨?_, ?_, ?_⟩
  · intro i b hb hunset
    rcases hcases i b hb with ⟨hi, hold⟩ | rfl
    · exact (h.ended i b hold hunset).resolve_left hi
    · rw [ht] at hunset
      simp at hunset
  · intro i b hb
    rcases hcases i b hb with ⟨-, hold⟩ | rfl
    · exact (h.targets i b hold).mono hext
    · exact hadmits.mono hext
  · intro hsilent i b hb
    rcases hcases i b hb with ⟨-, hold⟩ | rfl
    · exact h.returns hsilent i b hold
    · exact hreturn hsilent

theorem branch (h : Closing silent f (insert f.current P)) (hopen : Open f) (hi : f.IsTarget i) :
    Closing silent (f.branch i) P :=
  h.terminate hopen rfl (admits_br hi) fun _ => rfl

theorem condBranch (h : Closing silent f (insert f.current P)) (hopen : Open f) {truth : Value}
    (hi : f.IsTarget i) (hj : f.IsTarget j) : Closing silent (f.condBranch truth i j) P :=
  h.terminate hopen rfl (admits_condBr hi hj) fun _ => rfl

theorem leave (h : Closing silent f (insert f.current P)) (hopen : Open f) {value : Option Value}
    (hsilent : ¬ silent) : Closing silent (f.leave value) P :=
  h.terminate hopen rfl (fun _ hlabel => absurd hlabel List.not_mem_nil) fun h => absurd h hsilent

end Closing

theorem closing_start (name : String) (params : List Param) (ret : Ty) :
    Closing silent (FunctionDraft.start name params ret)
    {(FunctionDraft.start name params ret).current} := by
  have hempty :
    Closing silent
    { name, params, ret, taken := params.foldl (fun taken p => taken.insert p.name) {} } ∅ := by
    refine ⟨?_, ?_, ?_⟩
    · intro i b hb
      simp at hb
    · intro i b hb
      simp at hb
    · intro _ i b hb
      simp at hb
  exact ((hempty.createBlock "entry").switchTo 0).mono
    (Set.insert_subset (Set.mem_singleton _) (Set.empty_subset _))

/-! ### Conditionals and loops -/

section

variable {truth : Value} {join? : Option Nat} {followed : Bool}

/-- The blocks of an arm may be branched to, if the given one may. -/
theorem isTarget_fork (hopen : Open f) (truth : Value) (followed : Bool)
    (hjoin : ∀ join, join? = some join → f.IsTarget join) :
    ∀ i ∈ [(f.fork truth join? followed).body, (f.fork truth join? followed).otherwise,
      (f.fork truth join? followed).join], (f.created (forkHints join? followed)).IsTarget i := by
  intro i hi
  have hnames : ∀ hint ∈ forkHints join? followed, hint ∈ ["if.then", "if.else", "if.end"] := by
    cases join? <;> cases followed <;> simp [forkHints]
  have hheads : ∀ hint ∈ ["if.then", "if.else", "if.end"], hint.toList.head? ≠ some 'a' := by decide
  have hhints := fun hint hh => hheads hint (hnames hint hh)
  obtain ⟨hpos, hlt⟩ := fork_targets hopen truth followed
    (fun join hj => ⟨(hjoin join hj).pos, (hjoin join hj).lt⟩) i hi
  by_cases hnew : f.blocks.size ≤ i
  · exact ⟨hpos, by rw [created_size]; exact hlt, label_created _ hhints hnew hlt⟩
  · -- Of the blocks that were there, only the given one is branched to.
    have hgiven : join? = some i := by
      cases join? with
      | none => cases followed <;> simp [fork] at hi <;> omega
      | some join => cases followed <;> simp [fork] at hi <;> grind
    exact (hjoin i hgiven).mono (grows_created f _).toExtends

theorem Closing.fork (h : Closing silent f (insert f.current P)) (hopen : Open f) (truth : Value)
    (followed : Bool) (hjoin : ∀ join, join? = some join → f.IsTarget join) :
    Closing silent (f.fork truth join? followed).function
      ({i | f.blocks.size ≤ i ∧ i < f.blocks.size + (forkHints join? followed).length} ∪ P) := by
  have htargets := isTarget_fork hopen truth followed hjoin
  refine Closing.condBranch ((h.created (forkHints join? followed)).mono ?_) (hopen.created _)
    (htargets _ List.mem_cons_self) (htargets _ (List.mem_cons_of_mem _ List.mem_cons_self))
  rw [created_current, Set.union_insert]

theorem Closing.enter (h : Closing silent f (insert f.current P)) (hopen : Open f) {kind : String}
    (hkind : ∀ hint ∈ [kind ++ ".body", kind ++ ".exit"], hint.toList.head? ≠ some 'a') :
    Closing silent (f.enter kind) (insert f.blocks.size (insert (f.blocks.size + 1) P)) ∧
      (f.enter kind).IsTarget f.blocks.size ∧ (f.enter kind).IsTarget (f.blocks.size + 1) := by
  have hpos := Nat.lt_of_le_of_lt (Nat.zero_le _) (current_lt hopen)
  have hsize := created_size f [kind ++ ".body", kind ++ ".exit"]
  rw [List.length_cons, List.length_singleton] at hsize
  have htarget : ∀ i, f.blocks.size ≤ i → i < f.blocks.size + 2 →
      (f.created [kind ++ ".body", kind ++ ".exit"]).IsTarget i := by
    intro i hle hlt
    exact ⟨by omega, by omega, label_created _ hkind hle (by
      rw [List.length_cons, List.length_singleton]; omega)⟩
  have hbody := htarget f.blocks.size (Nat.le_refl _) (by omega)
  have hext : Extends (f.created [kind ++ ".body", kind ++ ".exit"]) (f.enter kind) :=
    (extends_terminate (hopen.created _) _).trans (extends_switchTo _ _)
  refine ⟨Closing.switchTo (Closing.branch ?_ (hopen.created _) hbody) _, hbody.mono hext,
    (htarget _ (Nat.le_succ _) (by omega)).mono hext⟩
  refine (h.created _).mono ?_
  rintro i (⟨hle, hlt⟩ | rfl | hi)
  · rw [List.length_cons, List.length_singleton] at hlt
    have hi : i = f.blocks.size ∨ i = f.blocks.size + 1 := by omega
    rcases hi with rfl | rfl
    · exact Or.inr (Or.inl rfl)
    · exact Or.inr (Or.inr (Or.inl rfl))
  · exact Or.inl (created_current _ _).symm
  · exact Or.inr (Or.inr (Or.inr hi))

end

/-! ### Finished functions -/

/-- **A function in which nothing is pending is closed.** -/
theorem Closing.closed (h : Closing silent f ∅) (hnamed : Named f) : f.build.Closed := by
  have hblock : ∀ b ∈ f.build.blocks, ∃ (i : Nat) (b₀ : BlockDraft), f.blocks[i]? = some b₀ ∧
    b.terminator = b₀.terminator := by
    intro b hb
    obtain ⟨i, hi⟩ := List.mem_iff_getElem?.mp hb
    rw [getElem?_build, Option.map_eq_some_iff] at hi
    obtain ⟨b₀, hb₀, rfl⟩ := hi
    exact ⟨i, b₀, hb₀, rfl⟩
  have htarget : ∀ b ∈ f.build.blocks, ∀ label ∈ b.terminator.targets, ∃ i, f.IsTarget i ∧
    f.label i = label := by
    intro b hb label hlabel
    obtain ⟨i, b₀, hb₀, heq⟩ := hblock b hb
    exact h.targets i b₀ hb₀ label (by rw [← heq]; exact hlabel)
  refine ⟨?_, ?_, ?_, ?_⟩
  · intro b hb hunset
    obtain ⟨i, b₀, hb₀, heq⟩ := hblock b hb
    exact h.ended i b₀ hb₀ (by rw [← heq, hunset]; rfl)
  · intro b hb label hlabel
    obtain ⟨i, hi, rfl⟩ := htarget b hb label hlabel
    obtain ⟨b', hb'⟩ : ∃ b', f.build.blocks[i]? = some b' := by
      rw [getElem?_build, Array.getElem?_eq_getElem hi.lt]
      exact ⟨_, rfl⟩
    refine ⟨b', List.mem_of_getElem? hb', ?_⟩
    rw [getElem?_build, Array.getElem?_eq_getElem hi.lt, Option.map_some, Option.some.injEq] at hb'
    rw [← hb', FunctionDraft.label, Array.getElem?_eq_getElem hi.lt]
    rfl
  · intro b hb label hlabel first hfirst heq
    obtain ⟨i, hi, rfl⟩ := htarget b hb label hlabel
    rw [List.head?_eq_getElem?, getElem?_build, Option.map_eq_some_iff] at hfirst
    obtain ⟨b₀, hb₀, rfl⟩ := hfirst
    have hat := Array.getElem?_eq_getElem hi.lt
    have hsame := hnamed.labels 0 i b₀ _ hb₀ hat
      (by rw [show b₀.label = _ from heq, FunctionDraft.label, hat]; rfl)
    exact absurd hi.pos (by omega)
  · intro b hb label hlabel
    obtain ⟨i, hi, rfl⟩ := htarget b hb label hlabel
    exact hi.label

theorem returns_build (f : FunctionDraft) :
    f.build.returns = f.blocks.toList.filterMap fun b => b.terminator.returned? := by
  rw [Function.returns, build]
  cases f.blocks.toList with
  | nil => rfl
  | cons b rest => simp [List.filterMap_map, List.filterMap_cons]

/-- If one element of a list comes to have a value, and no other has one, then it is the only
one. -/
theorem filterMap_modify {α β : Type} {value? : α → Option β} {change : α → α} {l : List α}
    {a : α} {v : β}
    (hnone : ∀ b ∈ l, value? b = none) (ha : l[i]? = some a) (hv : value? (change a) = some v) :
    (l.modify i change).filterMap value? = [v] := by
  induction l generalizing i with
  | nil => simp at ha
  | cons b rest ih =>
    have hrest : ∀ c ∈ rest, value? c = none := fun c hc => hnone c (List.mem_cons_of_mem _ hc)
    cases i with
    | zero =>
      rw [List.getElem?_cons_zero, Option.some.injEq] at ha
      rw [List.modify_zero_cons, List.filterMap_cons, ha, hv, List.filterMap_eq_nil_iff.2 hrest]
    | succ i =>
      rw [List.modify_succ_cons, List.filterMap_cons, hnone b List.mem_cons_self]
      exact ih hrest ha

/-- A function that is silent until it is left at its end returns once. -/
theorem Closing.returns_leave (h : Closing silent f P) (hopen : Open f) (hsilent : silent)
    (value : Option Value) : (f.leave value).build.returns = [value] := by
  obtain ⟨b, hb, -⟩ := hopen
  rw [returns_build, FunctionDraft.leave, FunctionDraft.terminate, Array.toList_modify]
  refine filterMap_modify ?_ (Array.getElem?_toList.trans hb) rfl
  intro c hc
  obtain ⟨i, hi⟩ := List.mem_iff_getElem?.mp hc
  exact h.returns hsilent i c (Array.getElem?_toList.symm.trans hi)

end FunctionDraft

end Pseudocode.Ir
