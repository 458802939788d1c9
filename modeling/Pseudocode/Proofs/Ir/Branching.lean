import Pseudocode.Proofs.Ir.Draft

/-!
Blocks of conditionals and loops.

A conditional and a loop create the blocks that they need in one go, empty, and give the current
block its terminator; after that code is generated block by block.  Since generating code for one
block leaves the others alone (`Grows`), a block that has been created is still empty when it is
entered.
-/

namespace Pseudocode.Ir.FunctionDraft

variable {i : Nat}

/-! ### Creating blocks -/

/-- Adds empty blocks. -/
def created (f : FunctionDraft) (hints : List String) : FunctionDraft :=
  hints.foldl (fun f hint => (f.createBlock hint).2) f

@[simp] theorem created_nil (f : FunctionDraft) : f.created [] = f := rfl

@[simp] theorem created_cons (f : FunctionDraft) (hint : String) (hints : List String) :
    f.created (hint :: hints) = (f.createBlock hint).2.created hints := rfl

@[simp] theorem createBlock_current (f : FunctionDraft) (hint : String) :
    (f.createBlock hint).2.current = f.current := rfl

@[simp] theorem createBlock_size (f : FunctionDraft) (hint : String) :
    (f.createBlock hint).2.blocks.size = f.blocks.size + 1 :=
  Array.size_push _

theorem getElem?_createBlock (f : FunctionDraft) (hint : String) :
    (f.createBlock hint).2.blocks[f.blocks.size]? = some
    { label := Draft.freshName f.taken hint } := by
  show (f.blocks.push _)[f.blocks.size]? = _
  rw [Array.getElem?_push_size]

@[simp] theorem created_current (f : FunctionDraft) (hints : List String) :
    (f.created hints).current = f.current := by
  induction hints generalizing f with
  | nil => rfl
  | cons hint hints ih => rw [created_cons, ih, createBlock_current]

@[simp] theorem created_size (f : FunctionDraft) (hints : List String) :
    (f.created hints).blocks.size = f.blocks.size + hints.length := by
  induction hints generalizing f with
  | nil => rfl
  | cons hint hints ih =>
    rw [created_cons, ih, createBlock_size, List.length_cons]
    omega

theorem created_prologue (f : FunctionDraft) (hints : List String) :
    (f.created hints).prologue = f.prologue := by
  induction hints generalizing f with
  | nil => rfl
  | cons hint hints ih => rw [created_cons, ih]; rfl

theorem getElem?_created_old (f : FunctionDraft) (hints : List String) (hi : i < f.blocks.size) :
    (f.created hints).blocks[i]? = f.blocks[i]? := by
  induction hints generalizing f with
  | nil => rfl
  | cons hint hints ih =>
    rw [created_cons, ih _ (by rw [createBlock_size]; omega)]
    show (f.blocks.push _)[i]? = _
    rw [Array.getElem?_push_lt hi, Array.getElem?_eq_getElem hi]

theorem getElem?_created_new (f : FunctionDraft) (hints : List String) (hi : f.blocks.size ≤ i)
    (hlt : i < f.blocks.size + hints.length) :
    ∃ label, (f.created hints).blocks[i]? = some { label } := by
  induction hints generalizing f with
  | nil =>
    rw [List.length_nil] at hlt
    omega
  | cons hint hints ih =>
    rw [created_cons]
    by_cases heq : i = f.blocks.size
    · rw [heq, getElem?_created_old _ _ (by rw [createBlock_size]; omega), getElem?_createBlock]
      exact ⟨_, rfl⟩
    · refine ih _ ?_ ?_
      · rw [createBlock_size]
        omega
      · rw [createBlock_size]
        rw [List.length_cons] at hlt
        omega

theorem grows_created (f : FunctionDraft) (hints : List String) : Grows f (f.created hints) := by
  induction hints generalizing f with
  | nil => exact Grows.refl f
  | cons hint hints ih => exact (grows_createBlock f hint).trans (ih _)

theorem Open.created {f : FunctionDraft} (hopen : Open f) (hints : List String) :
    Open (f.created hints) := by
  induction hints generalizing f with
  | nil => exact hopen
  | cons hint hints ih => exact ih (hopen.createBlock hint)

theorem steps_created (f : FunctionDraft) {hints : List String}
    (hdot : ∀ hint ∈ hints, '.' ∈ hint.toList) : Steps f (f.created hints) := by
  induction hints generalizing f with
  | nil => exact Steps.refl
  | cons hint hints ih =>
    exact (Steps.refl.createBlock (hdot hint List.mem_cons_self)).trans
      (ih _ fun other hother => hdot other (List.mem_cons_of_mem _ hother))

/-! ### Closing the current block -/

@[simp] theorem terminate_current (f : FunctionDraft) (t : Terminator) :
    (f.terminate t).current = f.current := rfl

@[simp] theorem terminate_size (f : FunctionDraft) (t : Terminator) :
    (f.terminate t).blocks.size = f.blocks.size :=
  Array.size_modify

theorem getElem?_terminate_current {f : FunctionDraft} {b : BlockDraft}
    (hb : f.blocks[f.current]? = some b)
    (t : Terminator) : (f.terminate t).blocks[f.current]? = some { b with terminator := t } := by
  show (f.blocks.modify f.current _)[f.current]? = _
  rw [Array.getElem?_modify, if_pos rfl, hb]
  rfl

theorem getElem?_terminate_ne (f : FunctionDraft) (t : Terminator) (hi : i ≠ f.current) :
    (f.terminate t).blocks[i]? = f.blocks[i]? := by
  show (f.blocks.modify f.current _)[i]? = _
  rw [Array.getElem?_modify, if_neg fun heq => hi heq.symm]

/-- Goes on with a block, unless the current one already ends. -/
def fallTo (f : FunctionDraft) (block : Nat) : FunctionDraft :=
  if f.isTerminated then f else f.branch block

theorem fallTo_of_open {f : FunctionDraft} (hopen : Open f) (block : Nat) :
    f.fallTo block = f.branch block := by
  rw [fallTo, hopen.isTerminated]
  rfl

theorem fallTo_prologue (f : FunctionDraft) (block : Nat) :
    (f.fallTo block).prologue = f.prologue := by
  rw [fallTo]
  split <;> rfl

theorem steps_fallTo (f : FunctionDraft) (block : Nat) : Steps f (f.fallTo block) := by
  rw [fallTo]
  split
  · exact Steps.refl
  · exact Steps.refl.terminate _

/-! ### Conditionals -/

/-- The blocks of an arm of a conditional: where its body is, where control goes if the condition
fails, and where both go on. -/
structure Fork where
  body : Nat
  otherwise : Nat
  join : Nat
  function : FunctionDraft

/-- What the new blocks of an arm are called. -/
def forkHints (join? : Option Nat) (followed : Bool) : List String :=
  "if.then" :: ((if followed then ["if.else"] else []) ++ if join?.isNone then ["if.end"] else [])

/-- Goes on with one of two blocks.  The block where both go on is the given one or a new one; if
nothing follows the body, it is also where control goes if the condition fails. -/
def fork (f : FunctionDraft) (truth : Value) (join? : Option Nat) (followed : Bool) : Fork :=
  let body := f.blocks.size
  let join := join?.getD (if followed then body + 2 else body + 1)
  let otherwise := if followed then body + 1 else join
  { body, otherwise, join,
    function := (f.created (forkHints join? followed)).condBranch truth body otherwise }

namespace Fork

/-- The arm begins in a draft whose current block is open, and its body has been generated up to
`g`. -/
structure Ran (f g : FunctionDraft) (truth : Value) (join? : Option Nat) (followed : Bool) :
    Prop where
  start : Open f
  grows : Grows ((f.fork truth join? followed).function.switchTo (f.fork truth join? followed).body)
    g
  finish : Open g

end Fork

section

variable {f g g' : FunctionDraft} {truth : Value} {join? : Option Nat} {followed : Bool}

theorem grows_fork (hopen : Open f) (truth : Value) (join? : Option Nat) (followed : Bool) :
    Grows f (f.fork truth join? followed).function :=
  (grows_created f _).trans (grows_terminate (hopen.created _) _)

theorem dot_mem_forkHints (join? : Option Nat) (followed : Bool) :
    ∀ hint ∈ forkHints join? followed, '.' ∈ hint.toList := by
  cases join? <;> cases followed <;> simp [forkHints]

theorem steps_fork (f : FunctionDraft) (truth : Value) (join? : Option Nat) (followed : Bool) :
    Steps f (f.fork truth join? followed).function :=
  (steps_created f (dot_mem_forkHints join? followed)).terminate _

theorem fork_prologue (f : FunctionDraft) (truth : Value) (join? : Option Nat) (followed : Bool) :
    (f.fork truth join? followed).function.prologue = f.prologue :=
  created_prologue f _

theorem getElem?_fork_new (hopen : Open f) (truth : Value) (join? : Option Nat) (followed : Bool)
    (hi : f.blocks.size ≤ i) (hlt : i < f.blocks.size + (forkHints join? followed).length) :
    ∃ label, (f.fork truth join? followed).function.blocks[i]? = some { label } := by
  obtain ⟨label, hlabel⟩ := getElem?_created_new f (forkHints join? followed) hi hlt
  have hcur := current_lt hopen
  refine ⟨label, ?_⟩
  show ((f.created _).terminate _).blocks[i]? = _
  rw [getElem?_terminate_ne _ _ (by rw [created_current]; omega), hlabel]

theorem fork_size (f : FunctionDraft) (truth : Value) (join? : Option Nat) (followed : Bool) :
    (f.fork truth join? followed).function.blocks.size = f.blocks.size +
    (forkHints join? followed).length := by
  show ((f.created _).terminate _).blocks.size = _
  rw [terminate_size, created_size]

/-- The body begins in an empty block. -/
theorem body_empty (hopen : Open f) (truth : Value) (join? : Option Nat) (followed : Bool) :
    ∃ label, (f.fork truth join? followed).function.blocks[(f.fork truth join? followed).body]? =
    some { label } :=
  getElem?_fork_new hopen truth join? followed (Nat.le_refl f.blocks.size)
    (by simp [fork, forkHints])

theorem open_body (hopen : Open f) (truth : Value) (join? : Option Nat) (followed : Bool) :
    Open ((f.fork truth join? followed).function.switchTo (f.fork truth join? followed).body) := by
  obtain ⟨label, hlabel⟩ := body_empty hopen truth join? followed
  exact ⟨_, hlabel, rfl⟩

/-- If the block where both go on is not the first, then no branch leads to the first. -/
theorem fork_targets (hopen : Open f) (truth : Value) {join? : Option Nat} (followed : Bool)
    (hjoin : ∀ join, join? = some join → 0 < join ∧ join < f.blocks.size) :
    ∀ i ∈ [(f.fork truth join? followed).body, (f.fork truth join? followed).otherwise,
        (f.fork truth join? followed).join], 0 < i ∧
        i < f.blocks.size + (forkHints join? followed).length := by
  have hsize : 0 < f.blocks.size := Nat.lt_of_le_of_lt (Nat.zero_le _) (current_lt hopen)
  cases join? with
  | none => cases followed <;> simp [fork, forkHints, hsize]
  | some join =>
    obtain ⟨hpos, hlt⟩ := hjoin join rfl
    cases followed <;> simp [fork, forkHints] <;> omega

theorem grows_fallTo (h : Fork.Ran f g truth join? followed) (block : Nat) :
    Grows f (g.fallTo block) := by
  rw [fallTo_of_open h.finish]
  exact (((grows_fork h.start _ _ _).switchTo (Nat.le_refl _)).trans h.grows).trans
    (grows_terminate h.finish _)

/-- What is created with the body is still empty when the body has been left. -/
theorem getElem?_fallTo (h : Fork.Ran f g truth join? followed) (block : Nat)
    (hi : f.blocks.size < i) (hlt : i < f.blocks.size + (forkHints join? followed).length) :
    (g.fallTo block).blocks[i]? = (f.fork truth join? followed).function.blocks[i]? := by
  have hsize := fork_size f truth join? followed
  have hbody : (f.fork truth join? followed).body = f.blocks.size := rfl
  have hcur : i ≠ g.current := by
    rcases h.grows.place with hsame | hnew
    · rw [hsame]
      exact Nat.ne_of_gt hi
    · have : (f.fork truth join? followed).function.blocks.size ≤ g.current := hnew
      omega
  rw [fallTo_of_open h.finish, branch, getElem?_terminate_ne _ _ hcur]
  exact h.grows.kept i (by show i < (f.fork truth join? followed).function.blocks.size; omega)
    (Nat.ne_of_gt hi)

/-- The block that what follows the body begins in is still empty when the body has been left. -/
theorem otherwise_empty (h : Fork.Ran f g truth join? true) (block : Nat) :
    ∃ label, (g.fallTo block).blocks[(f.fork truth join? true).otherwise]? = some { label } := by
  have hlt : f.blocks.size + 1 < f.blocks.size + (forkHints join? true).length := by
    simp [forkHints]
  obtain ⟨label, hlabel⟩ :=
    getElem?_fork_new h.start truth join? true (Nat.le_succ f.blocks.size) hlt
  refine ⟨label, ?_⟩
  show (g.fallTo block).blocks[f.blocks.size + 1]? = _
  rw [getElem?_fallTo h block (Nat.lt_succ_self _) hlt, hlabel]

theorem open_otherwise (h : Fork.Ran f g truth join? true) (block : Nat) :
    Open ((g.fallTo block).switchTo (f.fork truth join? true).otherwise) := by
  obtain ⟨label, hlabel⟩ := otherwise_empty h block
  exact ⟨{ label }, hlabel, rfl⟩

/-- With nothing to follow the body, the new block where the conditional goes on is still empty. -/
theorem join_alone (h : Fork.Ran f g truth none false) (block : Nat) :
    ∃ label, (g.fallTo block).blocks[(f.fork truth none false).join]? = some { label } := by
  have hlt : f.blocks.size + 1 < f.blocks.size + (forkHints none false).length := by
    simp [forkHints]
  obtain ⟨label, hlabel⟩ :=
    getElem?_fork_new h.start truth none false (Nat.le_succ f.blocks.size) hlt
  refine ⟨label, ?_⟩
  show (g.fallTo block).blocks[f.blocks.size + 1]? = _
  rw [getElem?_fallTo h block (Nat.lt_succ_self _) hlt, hlabel]

/-- It is still empty when what follows the body has been generated, too. -/
theorem join_followed (h : Fork.Ran f g truth none true) {block : Nat}
    (hrest : Grows ((g.fallTo block).switchTo (f.fork truth none true).otherwise) g') :
    ∃ label, g'.blocks[(f.fork truth none true).join]? = some { label } := by
  have hlt : f.blocks.size + 2 < f.blocks.size + (forkHints none true).length := by simp [forkHints]
  obtain ⟨label, hlabel⟩ :=
    getElem?_fork_new h.start truth none true (Nat.le_add_right f.blocks.size 2) hlt
  refine ⟨label, ?_⟩
  have hkept := getElem?_fallTo h block (by omega) hlt
  have hsize : f.blocks.size + 2 < (g.fallTo block).blocks.size := by
    rw [hlabel] at hkept
    exact (Array.getElem?_eq_some_iff.mp hkept).1
  show g'.blocks[f.blocks.size + 2]? = _
  rw [hrest.kept _ hsize (by show f.blocks.size + 2 ≠ f.blocks.size + 1; omega), ← hlabel]
  exact hkept

end

/-! ### Loops -/

/-- Enters a loop: creates its body and its exit, and goes on with the body. -/
def enter (f : FunctionDraft) (kind : String) : FunctionDraft :=
  ((f.created [kind ++ ".body", kind ++ ".exit"]).branch f.blocks.size).switchTo f.blocks.size

theorem grows_enter {f : FunctionDraft} (hopen : Open f) (kind : String) : Grows f (f.enter kind) :=
  ((grows_created f _).trans (grows_terminate (hopen.created _) _)).switchTo (Nat.le_refl _)

theorem enter_prologue (f : FunctionDraft) (kind : String) : (f.enter kind).prologue = f.prologue :=
  created_prologue f _

theorem steps_enter (f : FunctionDraft) (kind : String) : Steps f (f.enter kind) :=
  ((steps_created f (by simp)).terminate _).switchTo _

theorem getElem?_enter_new {f : FunctionDraft} (hopen : Open f) (kind : String)
    (hi : f.blocks.size ≤ i)
    (hlt : i < f.blocks.size + 2) : ∃ label, (f.enter kind).blocks[i]? = some { label } := by
  obtain ⟨label, hlabel⟩ := getElem?_created_new f [kind ++ ".body", kind ++ ".exit"] hi hlt
  have hcur := current_lt hopen
  refine ⟨label, ?_⟩
  show ((f.created _).terminate _).blocks[i]? = _
  rw [getElem?_terminate_ne _ _ (by rw [created_current]; omega), hlabel]

/-- The body of a loop begins in an empty block. -/
theorem open_enter {f : FunctionDraft} (hopen : Open f) (kind : String) : Open (f.enter kind) := by
  obtain ⟨label, hlabel⟩ := getElem?_enter_new hopen kind (Nat.le_refl f.blocks.size) (by omega)
  exact ⟨_, hlabel, rfl⟩

/-- When the body has been generated, the exit is still empty. -/
theorem exit_empty {f g : FunctionDraft} (hopen : Open f) {kind : String}
    (hgrows : Grows (f.enter kind) g) : ∃ label, g.blocks[f.blocks.size + 1]? = some { label } := by
  obtain ⟨label, hlabel⟩ := getElem?_enter_new hopen kind (Nat.le_succ f.blocks.size) (by omega)
  have hsize := (Array.getElem?_eq_some_iff.mp hlabel).1
  refine ⟨label, ?_⟩
  rw [hgrows.kept _ hsize (by show f.blocks.size + 1 ≠ f.blocks.size; omega), hlabel]

end Pseudocode.Ir.FunctionDraft
