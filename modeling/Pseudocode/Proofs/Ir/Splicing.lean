import Pseudocode.Ir.Draft.Function

/-!
One list for the first block.

A draft keeps its prologue apart from the first block, and puts it in front when the function is
built.  A spliced draft has all instructions of the first block in one list from the beginning.  It
counts those that belong to the prologue, and the next one of them is inserted behind these.

Nobody who makes a function can tell the two apart: whatever is asked for, in whatever order, the
answers are the same and so is the function (`build_serveAll`).  At every moment the one list is the
prologue followed by the instructions of the first block (`splice_serveAll`).
-/

namespace Pseudocode.Ir

/-- What can be asked of a function in the making. -/
inductive Draft.Call where
  | createBlock (hint : String)
  | switchTo (block : Nat)
  | isTerminated
  | add (i : Instr)
  | compute (ty : Ty) (instr : String → Instr)
  /-- The terminator may name blocks by their labels. -/
  | terminate (t : (Nat → String) → Terminator)
  | reserve (hint : String) (ty : Ty)
  | storeFirst (value ptr : Value)

inductive Draft.Answer where
  | done
  | block (block : Nat)
  | truth (b : Bool)
  | value (value : Value)
  | fault (fault : Fault)

def FunctionDraft.serve (f : FunctionDraft) : Draft.Call → Draft.Answer × FunctionDraft
  | .createBlock hint => (.block (f.createBlock hint).1, (f.createBlock hint).2)
  | .switchTo block => (.done, f.switchTo block)
  | .isTerminated => (.truth f.isTerminated, f)
  | .add i => (.done, f.add i)
  | .compute ty instr => (.value (f.compute ty instr).1, (f.compute ty instr).2)
  | .terminate t => (.done, f.terminate (t f.label))
  | .reserve hint ty => (.value (f.reserve hint ty).1, (f.reserve hint ty).2)
  | .storeFirst value ptr =>
    match f.storeFirst value ptr with
    | .ok g => (.done, g)
    | .error fault => (.fault fault, f)

/-- The answers to some calls, one after the other, and what is left behind by the last. -/
def Draft.serveAll {σ : Type} (serve : σ → Call → Answer × σ) (s : σ) :
    List Call → List Answer × σ
  | [] => ([], s)
  | call :: calls =>
    ((serve s call).1 :: (serveAll serve (serve s call).2 calls).1,
      (serveAll serve (serve s call).2 calls).2)

/-- A function in the making whose prologue is in its first block. -/
structure SplicedDraft where
  /-- The function, with an empty prologue of its own. -/
  draft : FunctionDraft
  /-- How many instructions of the first block are the prologue. -/
  inFront : Nat := 0

/-- A block with one more instruction. -/
def BlockDraft.insert (k : Nat) (i : Instr) (b : BlockDraft) : BlockDraft :=
  { b with instrs := (b.instrs.toList.insertIdx k i).toArray }

namespace SplicedDraft

def start (name : String) (params : List Param) (ret : Ty) : SplicedDraft :=
  { draft := .start name params ret }

/-- Puts an instruction behind the prologue, to which it belongs from then on. -/
def insert (s : SplicedDraft) (i : Instr) : SplicedDraft where
  draft := { s.draft with blocks := s.draft.blocks.modify 0 (.insert s.inFront i) }
  inFront := s.inFront + 1

/-- All but the prologue is done as in any draft. -/
def serve (s : SplicedDraft) : Draft.Call → Draft.Answer × SplicedDraft
  | .reserve hint ty =>
    let (dest, f) := s.draft.takeName hint
    (.value (.register dest (.ptr ty)), { s with draft := f }.insert (.alloca dest ty))
  | .storeFirst value ptr =>
    match FunctionDraft.checkStore value ptr with
    | .ok () => (.done, s.insert (.store value ptr))
    | .error fault => (.fault fault, s)
  | call => ((s.draft.serve call).1, { s with draft := (s.draft.serve call).2 })

end SplicedDraft

/-- A block behind a prologue. -/
def BlockDraft.behind (prologue : Array Instr) (b : BlockDraft) : BlockDraft :=
  { b with instrs := prologue ++ b.instrs }

theorem BlockDraft.behind_empty : behind #[] = id := by
  funext b
  simp [behind]

theorem insertIdx_behind (is js : List Instr) (i : Instr) :
    (is ++ js).insertIdx is.length i = is ++ i :: js := by
  induction is with
  | nil => rfl
  | cons j is ih =>
    rw [List.cons_append, List.length_cons, List.insertIdx_succ_cons, ih, List.cons_append]

theorem BlockDraft.behind_push (prologue : Array Instr) (i : Instr) :
    behind (prologue.push i) = insert prologue.size i ∘ behind prologue := by
  funext b
  simp [behind, insert, ← Array.length_toList, insertIdx_behind]

namespace FunctionDraft

/-- The draft with its prologue in its first block. -/
def splice (f : FunctionDraft) : SplicedDraft where
  draft := { f with prologue := #[], blocks := f.blocks.modify 0 (.behind f.prologue) }
  inFront := f.prologue.size

theorem splice_of_empty {f : FunctionDraft} (h : f.prologue = #[]) : f.splice = ⟨f, 0⟩ := by
  obtain ⟨name, params, ret, prologue, blocks, current, taken, nextTemp⟩ := f
  subst h
  simp only [splice, Array.size_empty, SplicedDraft.mk.injEq, FunctionDraft.mk.injEq, true_and,
    and_true]
  refine Array.ext_getElem? fun k => ?_
  simp only [Array.getElem?_modify]
  split <;> simp [BlockDraft.behind_empty]

/-! ### One call -/

/-- A longer prologue is the prologue with an instruction inserted behind it. -/
theorem splice_insert (f : FunctionDraft) (taken : Std.TreeSet String) (i : Instr) :
    { f with taken, prologue := f.prologue.push i }.splice =
      { f.splice with draft := { f.splice.draft with taken } }.insert i := by
  simp only [splice, SplicedDraft.insert, Array.size_push, SplicedDraft.mk.injEq,
    FunctionDraft.mk.injEq, true_and, and_true]
  refine Array.ext_getElem? fun k => ?_
  simp only [Array.getElem?_modify]
  split <;> simp [BlockDraft.behind_push]

/-- What does not look at the instructions in front can be done before or after they are put
there. -/
theorem modify_behind (blocks : Array BlockDraft) (prologue : Array Instr) (k : Nat)
    {change : BlockDraft → BlockDraft}
    (h : ∀ b, (change b).behind prologue = change (b.behind prologue)) :
    (blocks.modify k change).modify 0 (.behind prologue) =
    (blocks.modify 0 (.behind prologue)).modify k change := by
  refine Array.ext_getElem? fun j => ?_
  simp only [Array.getElem?_modify]
  split <;> split <;> simp [Function.comp_def, h]

theorem splice_add (f : FunctionDraft) (i : Instr) :
    (f.add i).splice = { f.splice with draft := f.splice.draft.add i } := by
  simp only [splice, add, SplicedDraft.mk.injEq, FunctionDraft.mk.injEq, true_and, and_true]
  exact modify_behind _ _ _ fun b => by simp [BlockDraft.behind]

theorem splice_terminate (f : FunctionDraft) (t : Terminator) :
    (f.terminate t).splice = { f.splice with draft := f.splice.draft.terminate t } := by
  simp only [splice, terminate, SplicedDraft.mk.injEq, FunctionDraft.mk.injEq, true_and, and_true]
  exact modify_behind _ _ _ fun b => rfl

theorem label_splice (f : FunctionDraft) : f.splice.draft.label = f.label := by
  funext block
  simp only [splice, label, Array.getElem?_modify]
  split <;> simp [Function.comp_def, BlockDraft.behind]

theorem isTerminated_splice (f : FunctionDraft) : f.splice.draft.isTerminated = f.isTerminated := by
  simp only [splice, isTerminated, Array.getElem?_modify]
  split <;> simp [Function.comp_def, BlockDraft.behind]

theorem splice_createBlock {f : FunctionDraft} (hf : 0 < f.blocks.size) (hint : String) :
    (f.createBlock hint).2.splice =
    { f.splice with draft := (f.splice.draft.createBlock hint).2 } := by
  simp only [splice, createBlock, takeName, SplicedDraft.mk.injEq, FunctionDraft.mk.injEq, true_and,
    and_true]
  refine Array.ext_getElem? fun k => ?_
  simp only [Array.getElem?_modify, Array.getElem?_push, Array.size_modify]
  by_cases hk : k = f.blocks.size
  · simp [hk, Nat.ne_of_lt hf]
  · simp [hk]

/-- **Every call has the same answer, and leaves the same function behind, whether the prologue is
in the first block or apart from it.** -/
theorem splice_serve {f : FunctionDraft} (hf : 0 < f.blocks.size) (call : Draft.Call) :
    f.splice.serve call = ((f.serve call).1, (f.serve call).2.splice) := by
  cases call with
  | createBlock hint =>
    simp only [SplicedDraft.serve, serve, splice_createBlock hf]
    simp [createBlock, takeName, splice]
  | switchTo block => rfl
  | isTerminated => simp only [SplicedDraft.serve, serve, isTerminated_splice]
  | add i => simp only [SplicedDraft.serve, serve, splice_add]
  | compute ty instr => simp only [SplicedDraft.serve, serve, compute, splice_add]; rfl
  | terminate t => simp only [SplicedDraft.serve, serve, splice_terminate, label_splice]
  | reserve hint ty => exact Prod.ext rfl (f.splice_insert _ _).symm
  | storeFirst value ptr =>
    simp only [SplicedDraft.serve, serve, storeFirst]
    cases checkStore value ptr with
    | error fault => rfl
    | ok _ => exact Prod.ext rfl (f.splice_insert f.taken _).symm

/-! ### Any number of calls -/

/-- A function never loses its first block. -/
theorem size_serve {f : FunctionDraft} (hf : 0 < f.blocks.size) (call : Draft.Call) :
    0 < (f.serve call).2.blocks.size := by
  cases call with
  | createBlock hint => simp [serve, createBlock, takeName]
  | storeFirst value ptr =>
    simp only [serve, storeFirst]
    cases checkStore value ptr <;> exact hf
  | _ => simpa [serve, switchTo, add, compute, terminate, reserve, takeName] using hf

theorem splice_serveAll {f : FunctionDraft} (hf : 0 < f.blocks.size) (calls : List Draft.Call) :
    Draft.serveAll SplicedDraft.serve f.splice calls =
      ((Draft.serveAll serve f calls).1, (Draft.serveAll serve f calls).2.splice) := by
  induction calls generalizing f with
  | nil => rfl
  | cons call calls ih => simp only [Draft.serveAll, splice_serve hf, ih (size_serve hf call)]

theorem build_splice (f : FunctionDraft) : f.splice.draft.build = f.build := by
  simp only [build, splice]
  cases hblocks : f.blocks.toList with
  | nil => simp [hblocks]
  | cons b bs => simp [hblocks, BlockDraft.behind]

/-- **A function does not depend on where its prologue is kept while it is made.** -/
theorem build_serveAll (name : String) (params : List Param) (ret : Ty) (calls : List Draft.Call) :
    let (answers, f) := Draft.serveAll serve (start name params ret) calls
    let (answers', s) := Draft.serveAll SplicedDraft.serve (.start name params ret) calls
    answers' = answers ∧ s = f.splice ∧ s.draft.build = f.build := by
  have hsize : 0 < (start name params ret).blocks.size := by
    simp [start, createBlock, takeName, switchTo]
  have hstart : SplicedDraft.start name params ret = (start name params ret).splice :=
    (splice_of_empty rfl).symm
  simp only [hstart, splice_serveAll hsize, build_splice, and_self]

end FunctionDraft

end Pseudocode.Ir
