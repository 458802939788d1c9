import Pseudocode.Proofs.Ir.Paths

/-!
What is stored last on a path.

Along a path it is taken down which slots have been stored to.  What the setup of a function stores
in a slot at first, a pointer that points nowhere, is not counted.  `Function.ReadsLastWrite` says
that whenever a path comes to a load from a slot of some variable, and has stored to a slot of that
variable before, the last such store was to the slot that is loaded from.
-/

namespace Pseudocode.Ir

theorem Value.Known.ne_null {v : Value} {defs : List (String × Ty)} (h : v.Known defs) (ty : Ty) :
    v ≠ .null ty := by
  rintro rfl
  exact h

namespace Instr

/-- The register whose address an instruction loads from. -/
def loadsFrom? : Instr → Option String
  | load _ _ (.register name _) => some name
  | _ => none

/-- The register whose address an instruction stores something to. -/
def storesTo? : Instr → Option String
  | store (.null _) _ => none
  | store _ (.register name _) => some name
  | _ => none

/-- Takes down what the instruction stores to, before all that has been stored to earlier. -/
def record (i : Instr) (stored : List String) : List String :=
  i.storesTo?.toList ++ stored

theorem record_store (name : String) (ty : Ty) {v : Value} (hv : ∀ ty, v ≠ .null ty)
    (stored : List String) : (store v (.register name ty)).record stored = name :: stored := by
  cases v with
  | null ty => exact absurd rfl (hv ty)
  | _ => rfl

end Instr

/-- Of the slots of `x`, the one that has been stored to last. -/
def LastStored (x : String) (stored : List String) (name : String) : Prop :=
  ∃ later earlier, stored = later ++ name :: earlier ∧ Draft.SlotOf x name ∧
    ∀ other ∈ later, ¬ Draft.SlotOf x other

namespace LastStored

variable {x name : String} {stored : List String}

theorem here (h : Draft.SlotOf x name) (stored : List String) :
    LastStored x (name :: stored) name :=
  ⟨[], stored, rfl, h, by simp⟩

theorem slotOf (h : LastStored x stored name) : Draft.SlotOf x name := by
  obtain ⟨_, _, _, hslot, _⟩ := h
  exact hslot

theorem mem (h : LastStored x stored name) : name ∈ stored := by
  obtain ⟨later, earlier, rfl, _, _⟩ := h
  simp

/-- If something else is stored to, the last slot of `x` is the one it was. -/
theorem cons_iff {other : String} (hother : ¬ Draft.SlotOf x other) :
    LastStored x (other :: stored) name ↔ LastStored x stored name := by
  constructor
  · rintro ⟨later, earlier, heq, hslot, hlater⟩
    cases later with
    | nil =>
      rw [List.nil_append, List.cons.injEq] at heq
      rw [heq.1] at hother
      exact absurd hslot hother
    | cons first later =>
      rw [List.cons_append, List.cons.injEq] at heq
      exact ⟨later, earlier, heq.2, hslot, fun r hr => hlater r (List.mem_cons_of_mem _ hr)⟩
  · rintro ⟨later, earlier, rfl, hslot, hlater⟩
    refine ⟨other :: later, earlier, rfl, hslot, ?_⟩
    intro r hr
    rcases List.mem_cons.mp hr with rfl | hr
    · exact hother
    · exact hlater r hr

theorem unique {name' : String} (h : LastStored x stored name) (h' : LastStored x stored name') :
    name = name' := by
  induction stored with
  | nil => simpa using h.mem
  | cons first stored ih =>
    by_cases hfirst : Draft.SlotOf x first
    · have hhead : ∀ n, LastStored x (first :: stored) n → n = first := by
        rintro n ⟨later, earlier, heq, hslot, hlater⟩
        cases later with
        | nil => exact (List.cons.inj heq).1.symm
        | cons r later =>
          rw [List.cons_append, List.cons.injEq] at heq
          exact absurd (heq.1 ▸ hfirst) (hlater r List.mem_cons_self)
      rw [hhead name h, hhead name' h']
    · exact ih ((cons_iff hfirst).1 h) ((cons_iff hfirst).1 h')

theorem exists_of_mem (hname : name ∈ stored) (hslot : Draft.SlotOf x name) :
    ∃ last, LastStored x stored last := by
  induction stored with
  | nil => simp at hname
  | cons first stored ih =>
    by_cases hfirst : Draft.SlotOf x first
    · exact ⟨first, here hfirst stored⟩
    · rcases List.mem_cons.mp hname with rfl | hmem
      · exact absurd hslot hfirst
      · obtain ⟨last, hlast⟩ := ih hmem
        exact ⟨last, (cons_iff hfirst).2 hlast⟩

end LastStored

/-- If the instruction loads from a slot of some variable, then no other slot of it has been stored
to last. -/
def Instr.LoadsLast (i : Instr) (stored : List String) : Prop :=
  ∀ name x, i.loadsFrom? = some name → Draft.SlotOf x name → ∀ last, LastStored x stored last →
    last = name

/-- Taking down what is stored to, and asking that loads find what has been stored last. -/
def lastWrite : Watch (List String) where
  step := Instr.record
  ok := Instr.LoadsLast

/-- Does every load from a slot of a variable find what was stored to that variable last? -/
def Function.ReadsLastWrite (f : Function) : Prop :=
  f.Passes lastWrite []

end Pseudocode.Ir
