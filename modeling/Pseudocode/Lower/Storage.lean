import Pseudocode.Ir.Value
import Pseudocode.Scope
import Pseudocode.Ty

/-!
Where variables live.

Every variable has a slot in memory.  The slot of a number holds the number; the slot of a string
holds the address of a buffer; the slot of an array holds the address of its first element.  For a
string it is also known how large the buffer is, as long as it has the same size on every path to
the current place.

`join` is what is known where two paths meet.  It keeps a size that both paths agree on, in the same
slot, and forgets every other.  The slots are changed in place: ours are visited first, and then
those of the other path are taken up, one by one.  In which order that is done makes no difference,
since what is held for a symbol in the end depends on that symbol alone (`getElem?_sweep`).
-/

namespace Pseudocode

/-- What a slot is for. -/
inductive SlotKind where
  /-- A value of a type. -/
  | scalar (ty : Ty)
  /-- The address of elements of a type. -/
  | array (ty : Ty)
  deriving DecidableEq, Repr, Inhabited

/-- Where a variable lives. -/
structure Slot where
  address : Ir.Value
  kind : SlotKind
  /-- The size of the buffer of a string, where it is known. -/
  length : Option Nat := none
  deriving DecidableEq, Repr, Inhabited

namespace Slot

/-- The slot, without the size of its buffer. -/
def forget (s : Slot) : Slot :=
  { s with length := none }

/-- The slot, with the size of its buffer only if it is the same as on the other path. -/
def meet (ours : Slot) (theirs? : Option Slot) : Slot :=
  match theirs? with
  | some theirs =>
    if ours.address = theirs.address ∧ ours.length = theirs.length then ours else ours.forget
  | none => ours.forget

end Slot

/-- The slots of all variables. -/
abbrev Storage := Std.TreeMap Symbol Slot

namespace Storage

/-- Forgets the size of every buffer in a scope. -/
def forgetLengths (storage : Storage) (scope : Scope) : Storage :=
  storage.map fun symbol slot => if symbol.scope = scope then slot.forget else slot

/-- A visit to one of our slots: it loses the size of its buffer if the other path has no such
slot. -/
def visit (theirs ours : Storage) (symbol : Symbol) : Storage :=
  if symbol ∈ theirs then ours else ours.modify symbol Slot.forget

/-- Takes up a slot of the other path: ours keeps its size if the two agree, and one that we do not
have is added without a size. -/
def takeUp (ours : Storage) (entry : Symbol × Slot) : Storage :=
  ours.alter entry.1 fun
    | some slot => some (slot.meet entry.2)
    | none => some entry.2.forget

/-- Visits our slots in one order and takes up those of the other path in another. -/
def sweep (ours theirs : Storage) (visits : List Symbol) (entries : List (Symbol × Slot)) :
    Storage :=
  entries.foldl takeUp (visits.foldl (visit theirs) ours)

/-- What is known where two paths meet: every slot of our path, and the slots that only the other
has. -/
def join (ours theirs : Storage) : Storage :=
  ours.sweep theirs ours.keys theirs.toList

theorem getElem?_forgetLengths (storage : Storage) (scope : Scope) (symbol : Symbol) :
    (storage.forgetLengths scope)[symbol]? =
      storage[symbol]?.map fun slot => if symbol.scope = scope then slot.forget else slot := by
  simp [forgetLengths, Std.TreeMap.getElem?_map]

theorem getElem?_visit (theirs ours : Storage) (visited symbol : Symbol) :
    (visit theirs ours visited)[symbol]? =
      if visited = symbol ∧ symbol ∉ theirs then ours[symbol]?.map Slot.forget
      else ours[symbol]? := by
  unfold visit
  by_cases hvisited : visited = symbol
  · subst hvisited
    by_cases hmem : visited ∈ theirs <;> simp [hmem]
  · by_cases hmem : visited ∈ theirs <;> simp [hmem, hvisited, Std.TreeMap.getElem?_modify]

/-- A slot that is visited twice is as it is after the first visit. -/
theorem getElem?_visits (theirs ours : Storage) (visits : List Symbol) (symbol : Symbol) :
    (visits.foldl (visit theirs) ours)[symbol]? =
      if symbol ∈ visits ∧ symbol ∉ theirs then ours[symbol]?.map Slot.forget
      else ours[symbol]? := by
  induction visits generalizing ours with
  | nil => simp
  | cons visited visits ih =>
    rw [List.foldl_cons, ih, getElem?_visit]
    by_cases hvisited : visited = symbol
    · by_cases hmem : symbol ∈ theirs <;> by_cases hrest : symbol ∈ visits <;>
        cases hslot : ours[symbol]? <;> simp [hvisited, hmem, hrest, Slot.forget]
    · simp [hvisited, Ne.symm hvisited]

theorem getElem?_takeUp (ours : Storage) (entry : Symbol × Slot) (symbol : Symbol) :
    (ours.takeUp entry)[symbol]? =
      if entry.1 = symbol then
        match ours[symbol]? with
        | some slot => some (slot.meet entry.2)
        | none => some entry.2.forget
      else ours[symbol]? := by
  unfold takeUp
  by_cases hsymbol : entry.1 = symbol
  · subst hsymbol
    simp only [Std.TreeMap.getElem?_alter, Std.ReflCmp.compare_self, if_pos]
  · simp [hsymbol, Std.TreeMap.getElem?_alter]

theorem getElem?_entries_of_not_mem (ours : Storage) {entries : List (Symbol × Slot)}
    {symbol : Symbol}
    (h : ∀ entry ∈ entries, entry.1 ≠ symbol) :
    (entries.foldl takeUp ours)[symbol]? = ours[symbol]? := by
  induction entries generalizing ours with
  | nil => rfl
  | cons entry entries ih =>
    rw [List.foldl_cons, ih _ fun e he => h e (List.mem_cons_of_mem _ he), getElem?_takeUp,
      if_neg (h entry List.mem_cons_self)]

theorem getElem?_entries_of_mem (ours : Storage) {entries : List (Symbol × Slot)} {symbol : Symbol}
    {slot : Slot}
    (hdistinct : entries.Pairwise fun e e' => e.1 ≠ e'.1) (h : (symbol, slot) ∈ entries) :
    (entries.foldl takeUp ours)[symbol]? =
      match ours[symbol]? with
      | some own => some (own.meet slot)
      | none => some slot.forget := by
  induction entries generalizing ours with
  | nil => cases h
  | cons entry entries ih =>
    obtain ⟨hfirst, hrest⟩ := List.pairwise_cons.1 hdistinct
    rw [List.foldl_cons]
    rcases List.mem_cons.1 h with rfl | hmem
    · rw [getElem?_entries_of_not_mem _ fun e he => (hfirst e he).symm, getElem?_takeUp, if_pos rfl]
    · rw [ih _ hrest hmem, getElem?_takeUp, if_neg (hfirst _ hmem)]

/-- **What is held for a symbol does not depend on the order** in which slots are visited and taken
up, as long as all of ours are visited and all of the other path's are taken up once. -/
theorem getElem?_sweep {ours theirs : Storage} {visits : List Symbol}
    {entries : List (Symbol × Slot)}
    (hvisits : ∀ symbol ∈ ours, symbol ∈ visits) (hentries : entries.Perm theirs.toList)
    (symbol : Symbol) : (ours.sweep theirs visits entries)[symbol]? =
      match ours[symbol]? with
      | some slot => some (slot.meet theirs[symbol]?)
      | none => theirs[symbol]?.map Slot.forget := by
  have hdistinct : entries.Pairwise fun e e' => e.1 ≠ e'.1 :=
    (hentries.pairwise_iff fun h => Ne.symm h).2
      (theirs.distinct_keys_toList.imp fun h heq => h (Std.LawfulEqCmp.compare_eq_iff_eq.2 heq))
  have hours : ∀ slot, ours[symbol]? = some slot → symbol ∈ visits := fun slot hslot =>
    hvisits symbol (by rw [Std.TreeMap.mem_iff_isSome_getElem?, hslot]; rfl)
  unfold sweep
  cases htheirs : theirs[symbol]? with
  | some slot =>
    have hmem : symbol ∈ theirs := by rw [Std.TreeMap.mem_iff_isSome_getElem?, htheirs]; rfl
    have hentry : (symbol, slot) ∈ entries :=
      hentries.mem_iff.2 (Std.TreeMap.mem_toList_iff_getElem?_eq_some.2 htheirs)
    rw [getElem?_entries_of_mem _ hdistinct hentry, getElem?_visits, if_neg fun h => h.2 hmem]
    rfl
  | none =>
    have hmem : symbol ∉ theirs := by rw [Std.TreeMap.mem_iff_isSome_getElem?, htheirs]; simp
    have hentry : ∀ entry ∈ entries, entry.1 ≠ symbol := by
      rintro ⟨_, slot⟩ hin rfl
      rw [Std.TreeMap.mem_toList_iff_getElem?_eq_some.1 (hentries.mem_iff.1 hin)] at htheirs
      cases htheirs
    rw [getElem?_entries_of_not_mem _ hentry, getElem?_visits]
    cases hslot : ours[symbol]? with
    | some own => simp [hours own hslot, hmem, Slot.meet]
    | none => simp

theorem getElem?_join (ours theirs : Storage) (symbol : Symbol) :
    (ours.join theirs)[symbol]? =
      match ours[symbol]? with
      | some slot => some (slot.meet theirs[symbol]?)
      | none => theirs[symbol]?.map Slot.forget :=
  getElem?_sweep (fun _ hmem => Std.TreeMap.mem_keys.2 hmem) (List.Perm.refl _) symbol

end Storage

end Pseudocode
