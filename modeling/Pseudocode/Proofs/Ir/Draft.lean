import Pseudocode.Ir.Draft.Function
import Pseudocode.Proofs.Ir.Dominance

/-!
How a function grows while it is made.

Whatever code is generated, a draft changes in few ways.  Instructions are added at the end of the
current block (`extend`), slots are reserved in the prologue, blocks are created and entered, and a
block is given its terminator.  None of this takes anything back, and that is `Extends`: labels
stay, instructions stay where they are, and a block that has its terminator stays as it is.  So a
fact about a block that has been closed is a fact about the finished function, however much is
generated after it.

`Grows` adds what a piece of code leaves alone.  It changes no block that was there before, the one
it begins in excepted, and it ends in that block or in a new one.
-/

namespace Pseudocode.Ir

namespace FunctionDraft

/-! ### Adding instructions -/

/-- Adds instructions to the current block, and counts the registers that they define. -/
def extend (f : FunctionDraft) (is : List Instr) : FunctionDraft :=
  { f with
    blocks := f.blocks.modify f.current fun b => { b with instrs := b.instrs ++ is }
    nextTemp := f.nextTemp + (results is).length }

/-- The instructions of the current block. -/
def here (f : FunctionDraft) : List Instr :=
  (f.blocks[f.current]?.map fun b => b.instrs.toList).getD []

/-- The register that comes next. -/
def nextRegister (f : FunctionDraft) : String :=
  Draft.tempName f.nextTemp

@[simp] theorem extend_prologue (f : FunctionDraft) (is : List Instr) :
    (f.extend is).prologue = f.prologue := rfl

@[simp] theorem extend_current (f : FunctionDraft) (is : List Instr) :
    (f.extend is).current = f.current := rfl

@[simp] theorem extend_nextTemp (f : FunctionDraft) (is : List Instr) :
    (f.extend is).nextTemp = f.nextTemp + (results is).length := rfl

@[simp] theorem extend_size (f : FunctionDraft) (is : List Instr) :
    (f.extend is).blocks.size = f.blocks.size :=
  Array.size_modify

theorem getElem?_extend (f : FunctionDraft) (is : List Instr) (i : Nat) :
    (f.extend is).blocks[i]? =
      if f.current = i then f.blocks[i]?.map fun b => { b with instrs := b.instrs ++ is }
      else f.blocks[i]? :=
  Array.getElem?_modify

theorem extend_nil (f : FunctionDraft) : f.extend [] = f := by
  have hblocks :
    f.blocks.modify f.current (fun b => { b with instrs := b.instrs ++ ([] : List Instr) })
      = f.blocks := by
    apply Array.ext_getElem?
    intro i
    rw [Array.getElem?_modify]
    by_cases hi : f.current = i
    · rw [if_pos hi]
      simp
    · rw [if_neg hi]
  show { f with blocks := _, nextTemp := _ } = f
  rw [hblocks]
  rfl

theorem extend_extend (f : FunctionDraft) (is js : List Instr) :
    (f.extend is).extend js = f.extend (is ++ js) := by
  have hblocks : ((f.extend is).extend js).blocks = (f.extend (is ++ js)).blocks := by
    apply Array.ext_getElem?
    intro i
    rw [getElem?_extend, getElem?_extend, getElem?_extend, extend_current]
    by_cases hi : f.current = i
    · rw [if_pos hi, if_pos hi, if_pos hi, Option.map_map]
      congr 1
      funext b
      have hassoc : b.instrs ++ is ++ js = b.instrs ++ (is ++ js) := by
        apply Array.toList_inj.mp
        simp
      show { b with instrs := b.instrs ++ is ++ js } = { b with instrs := b.instrs ++ (is ++ js) }
      rw [hassoc]
    · rw [if_neg hi, if_neg hi, if_neg hi]
  have htemp : ((f.extend is).extend js).nextTemp = (f.extend (is ++ js)).nextTemp := by
    simp only [extend_nextTemp, results_append, List.length_append]
    omega
  show { f with blocks := _, nextTemp := _ } = { f with blocks := _, nextTemp := _ }
  exact congrArg₂ (fun b n => { f with blocks := b, nextTemp := n }) hblocks htemp

theorem here_extend {f : FunctionDraft} (hf : f.current < f.blocks.size) (is : List Instr) :
    (f.extend is).here = f.here ++ is := by
  rw [here, extend_current, getElem?_extend, if_pos rfl, here, Array.getElem?_eq_getElem hf]
  simp

theorem compute_eq (f : FunctionDraft) {ty : Ty} {instr : String → Instr}
    (h : (instr f.nextRegister).result?.isSome) :
    f.compute ty instr = (.register f.nextRegister ty, f.extend [instr f.nextRegister]) := by
  obtain ⟨r, hr⟩ := Option.isSome_iff_exists.1 h
  have hone : (results [instr f.nextRegister]).length = 1 := by simp [results, hr]
  show (_, { f with nextTemp := f.nextTemp + 1, blocks := _ }) =
    (_, { f with blocks := _, nextTemp := _ })
  rw [hone]
  rfl

/-! ### Nothing is taken back -/

/-- The current block is there and has not been given a terminator. -/
def Open (f : FunctionDraft) : Prop :=
  ∃ b, f.blocks[f.current]? = some b ∧ b.terminator.isSet = false

/-- `g` is a later stage of `f`. -/
structure Extends (f g : FunctionDraft) : Prop where
  prologue : f.prologue.toList <+: g.prologue.toList
  blocks : ∀ (i : Nat) (b : BlockDraft), f.blocks[i]? = some b →
    ∃ b', g.blocks[i]? = some b' ∧ b'.label = b.label ∧ b.instrs.toList <+: b'.instrs.toList ∧
      (b.terminator.isSet = true → b' = b)

namespace Extends

theorem refl (f : FunctionDraft) : Extends f f :=
  ⟨List.prefix_refl _, fun _ b hb => ⟨b, hb, rfl, List.prefix_refl _, fun _ => rfl⟩⟩

theorem trans {f g h : FunctionDraft} (hfg : Extends f g) (hgh : Extends g h) : Extends f h := by
  refine ⟨hfg.prologue.trans hgh.prologue, ?_⟩
  intro i b hb
  obtain ⟨b₁, hb₁, hlabel₁, hinstrs₁, hclosed₁⟩ := hfg.blocks i b hb
  obtain ⟨b₂, hb₂, hlabel₂, hinstrs₂, hclosed₂⟩ := hgh.blocks i b₁ hb₁
  refine ⟨b₂, hb₂, hlabel₂.trans hlabel₁, hinstrs₁.trans hinstrs₂, ?_⟩
  intro hset
  have h₁ := hclosed₁ hset
  rw [hclosed₂ (by rw [h₁]; exact hset), h₁]

theorem size_le {f g : FunctionDraft} (h : Extends f g) : f.blocks.size ≤ g.blocks.size := by
  by_contra hlt
  have hsize : g.blocks.size < f.blocks.size := Nat.lt_of_not_le hlt
  obtain ⟨b', hb', -⟩ := h.blocks g.blocks.size _ (Array.getElem?_eq_getElem hsize)
  rw [Array.getElem?_eq_none (Nat.le_refl _)] at hb'
  simp at hb'

theorem closed {f g : FunctionDraft} (h : Extends f g) {i : Nat} {b : BlockDraft}
    (hb : f.blocks[i]? = some b) (hset : b.terminator.isSet = true) : g.blocks[i]? = some b := by
  obtain ⟨b', hb', -, -, hclosed⟩ := h.blocks i b hb
  rw [hb', hclosed hset]

theorem label_eq {f g : FunctionDraft} (h : Extends f g) {i : Nat} (hi : i < f.blocks.size) :
    g.label i = f.label i := by
  obtain ⟨b', hb', hlabel, -⟩ := h.blocks i _ (Array.getElem?_eq_getElem hi)
  rw [label, label, hb', Array.getElem?_eq_getElem hi, Option.map_some, Option.map_some, hlabel]

end Extends

/-- A change of the current block alone, which adds to its instructions, takes nothing back as long
as the block is open. -/
theorem extends_modify {f : FunctionDraft} (hopen : Open f) (change : BlockDraft → BlockDraft)
    (n : Nat) (hlabel : ∀ b, (change b).label = b.label)
    (hinstrs : ∀ b, b.instrs.toList <+: (change b).instrs.toList) :
    Extends f { f with blocks := f.blocks.modify f.current change, nextTemp := n } := by
  refine ⟨List.prefix_refl _, ?_⟩
  intro i b hb
  show ∃ b', (f.blocks.modify f.current change)[i]? = some b' ∧ _
  rw [Array.getElem?_modify]
  by_cases hi : f.current = i
  · rw [if_pos hi, hb]
    refine ⟨change b, rfl, hlabel b, hinstrs b, ?_⟩
    intro hset
    obtain ⟨b₀, hb₀, hunset⟩ := hopen
    rw [hi, hb, Option.some.injEq] at hb₀
    rw [← hb₀, hset] at hunset
    simp at hunset
  · rw [if_neg hi]
    exact ⟨b, hb, rfl, List.prefix_refl _, fun _ => rfl⟩

theorem extends_extend {f : FunctionDraft} (hopen : Open f) (is : List Instr) :
    Extends f (f.extend is) :=
  extends_modify hopen _ _ (fun _ => rfl) (fun b => by simp)

theorem extends_terminate {f : FunctionDraft} (hopen : Open f) (t : Terminator) :
    Extends f (f.terminate t) :=
  extends_modify hopen (fun b => { b with terminator := t }) f.nextTemp (fun _ => rfl)
    (fun _ => List.prefix_refl _)

theorem extends_switchTo (f : FunctionDraft) (block : Nat) : Extends f (f.switchTo block) :=
  ⟨(Extends.refl f).prologue, (Extends.refl f).blocks⟩

theorem extends_createBlock (f : FunctionDraft) (hint : String) :
    Extends f (f.createBlock hint).2 := by
  refine ⟨List.prefix_refl _, ?_⟩
  intro i b hb
  refine ⟨b, ?_, rfl, List.prefix_refl _, fun _ => rfl⟩
  have hi : i < f.blocks.size := (Array.getElem?_eq_some_iff.mp hb).1
  show (f.blocks.push _)[i]? = some b
  rw [Array.getElem?_push_lt hi, ← hb, Array.getElem?_eq_getElem hi]

theorem extends_setup (f : FunctionDraft) (i : Instr) (taken : Std.TreeSet String) :
    Extends f { f with prologue := f.prologue.push i, taken } := by
  refine ⟨?_, (Extends.refl f).blocks⟩
  rw [Array.toList_push]
  exact List.prefix_append _ _

/-! ### What is left alone -/

/-- `g` is what a piece of code makes of `f`. -/
structure Grows (f g : FunctionDraft) : Prop extends Extends f g where
  /-- Of the blocks that were there, only the current one has changed. -/
  kept : ∀ i < f.blocks.size, i ≠ f.current → g.blocks[i]? = f.blocks[i]?
  /-- The current block is the one it was, or a new one. -/
  place : g.current = f.current ∨ f.blocks.size ≤ g.current

namespace Grows

variable {f g h : FunctionDraft}

theorem refl (f : FunctionDraft) : Grows f f :=
  ⟨Extends.refl f, fun _ _ _ => rfl, Or.inl rfl⟩

theorem trans (hfg : Grows f g) (hgh : Grows g h) : Grows f h := by
  have hsize := hfg.size_le
  refine ⟨hfg.toExtends.trans hgh.toExtends, ?_, ?_⟩
  · intro i hi hne
    have hcur : i ≠ g.current := by
      rcases hfg.place with hsame | hnew
      · rw [hsame]; exact hne
      · omega
    rw [hgh.kept i (by omega) hcur, hfg.kept i hi hne]
  · rcases hgh.place with hsame | hnew
    · rw [hsame]; exact hfg.place
    · exact Or.inr (by omega)

theorem switchTo (hfg : Grows f g) {block : Nat} (hblock : f.blocks.size ≤ block) :
    Grows f (g.switchTo block) :=
  ⟨hfg.toExtends.trans (extends_switchTo g block), hfg.kept, Or.inr hblock⟩

end Grows

theorem grows_modify {f : FunctionDraft} (hopen : Open f) (change : BlockDraft → BlockDraft)
    (n : Nat) (hlabel : ∀ b, (change b).label = b.label)
    (hinstrs : ∀ b, b.instrs.toList <+: (change b).instrs.toList) :
    Grows f { f with blocks := f.blocks.modify f.current change, nextTemp := n } := by
  refine ⟨extends_modify hopen change n hlabel hinstrs, ?_, Or.inl rfl⟩
  intro i _ hne
  show (f.blocks.modify f.current change)[i]? = _
  rw [Array.getElem?_modify, if_neg fun heq => hne heq.symm]

theorem grows_extend {f : FunctionDraft} (hopen : Open f) (is : List Instr) :
    Grows f (f.extend is) :=
  grows_modify hopen _ _ (fun _ => rfl) (fun b => by simp)

theorem grows_terminate {f : FunctionDraft} (hopen : Open f) (t : Terminator) :
    Grows f (f.terminate t) :=
  grows_modify hopen (fun b => { b with terminator := t }) f.nextTemp (fun _ => rfl)
    (fun _ => List.prefix_refl _)

theorem grows_createBlock (f : FunctionDraft) (hint : String) : Grows f (f.createBlock hint).2 := by
  refine ⟨extends_createBlock f hint, ?_, Or.inl rfl⟩
  intro i hi _
  show (f.blocks.push _)[i]? = _
  rw [Array.getElem?_push_lt hi, Array.getElem?_eq_getElem hi]

theorem grows_setup (f : FunctionDraft) (i : Instr) (taken : Std.TreeSet String) :
    Grows f { f with prologue := f.prologue.push i, taken } :=
  ⟨extends_setup f i taken, fun _ _ _ => rfl, Or.inl rfl⟩

theorem Open.extend {f : FunctionDraft} (hopen : Open f) (is : List Instr) :
    Open (f.extend is) := by
  obtain ⟨b, hb, hunset⟩ := hopen
  refine ⟨{ b with instrs := b.instrs ++ is }, ?_, hunset⟩
  rw [extend_current, getElem?_extend, if_pos rfl, hb]
  rfl

theorem Open.createBlock {f : FunctionDraft} (hopen : Open f) (hint : String) :
    Open (f.createBlock hint).2 := by
  obtain ⟨b, hb, hunset⟩ := hopen
  refine ⟨b, ?_, hunset⟩
  have hlt : f.current < f.blocks.size := (Array.getElem?_eq_some_iff.mp hb).1
  show (f.blocks.push _)[f.current]? = some b
  rw [Array.getElem?_push_lt hlt, ← hb, Array.getElem?_eq_getElem hlt]

theorem Open.isTerminated {f : FunctionDraft} (hopen : Open f) : f.isTerminated = false := by
  obtain ⟨b, hb, hunset⟩ := hopen
  rw [FunctionDraft.isTerminated, hb]
  exact hunset

theorem current_lt {f : FunctionDraft} (hopen : Open f) : f.current < f.blocks.size := by
  obtain ⟨b, hb, -⟩ := hopen
  exact (Array.getElem?_eq_some_iff.mp hb).1

/-! ### Steps -/

/-- `g` is made from `f` by steps of the kinds that there are.  What is given a name has a dot in
its hint. -/
inductive Steps (f : FunctionDraft) : FunctionDraft → Prop
  | refl : Steps f f
  | extend {g : FunctionDraft} (is : List Instr) (h : Steps f g) : Steps f (g.extend is)
  | terminate {g : FunctionDraft} (t : Terminator) (h : Steps f g) : Steps f (g.terminate t)
  | switchTo {g : FunctionDraft} (block : Nat) (h : Steps f g) : Steps f (g.switchTo block)
  | createBlock {g : FunctionDraft} {hint : String} (hdot : '.' ∈ hint.toList) (h : Steps f g) :
      Steps f (g.createBlock hint).2
  | reserve {g : FunctionDraft} {hint : String} (hdot : '.' ∈ hint.toList) (ty : Ty)
    (h : Steps f g) :
      Steps f (g.reserve hint ty).2
  | storeFirst {g : FunctionDraft} (value ptr : Value) (h : Steps f g) :
      Steps f { g with prologue := g.prologue.push (.store value ptr) }

namespace Steps

variable {f g h : FunctionDraft}

theorem trans (hfg : Steps f g) (hgh : Steps g h) : Steps f h := by
  induction hgh with
  | refl => exact hfg
  | extend is _ ih => exact ih.extend is
  | terminate t _ ih => exact ih.terminate t
  | switchTo block _ ih => exact ih.switchTo block
  | createBlock hdot _ ih => exact ih.createBlock hdot
  | reserve hdot ty _ ih => exact ih.reserve hdot ty
  | storeFirst value ptr _ ih => exact ih.storeFirst value ptr

theorem prologue (hfg : Steps f g) : f.prologue.toList <+: g.prologue.toList := by
  induction hfg with
  | refl => exact List.prefix_refl _
  | extend _ _ ih => exact ih
  | terminate _ _ ih => exact ih
  | switchTo _ _ ih => exact ih
  | createBlock _ _ ih => exact ih
  | reserve _ _ _ ih => exact ih.trans (extends_setup _ _ _).prologue
  | storeFirst value ptr _ ih => exact ih.trans (extends_setup _ (.store value ptr) {}).prologue

theorem signature_eq (hfg : Steps f g) : g.name = f.name ∧ g.params = f.params ∧ g.ret = f.ret := by
  induction hfg with
  | refl => exact ⟨rfl, rfl, rfl⟩
  | extend _ _ ih => exact ih
  | terminate _ _ ih => exact ih
  | switchTo _ _ ih => exact ih
  | createBlock _ _ ih => exact ih
  | reserve _ _ _ ih => exact ih
  | storeFirst _ _ _ ih => exact ih

end Steps

end FunctionDraft

end Pseudocode.Ir
