import Pseudocode.Lower.Storage

/-!
Where two paths meet.

`Storage.Joins` says what is known behind two paths, symbol by symbol: no slot is lost, ours go
before those of the other path, and a size is known exactly if both paths know it, and of the same
slot.  There is only one such storage (`Joins.getElem?_eq`), and it comes out whichever slot is
visited first.  So what is generated behind a conditional does not depend on an order of the symbols
(`joins_sweep`).
-/

namespace Pseudocode

/-! ### Slots that meet -/

@[simp]
theorem Slot.address_meet (own : Slot) (other? : Option Slot) :
    (own.meet other?).address = own.address := by
  unfold meet
  split
  · split <;> rfl
  · rfl

@[simp]
theorem Slot.kind_meet (own : Slot) (other? : Option Slot) : (own.meet other?).kind = own.kind := by
  unfold meet
  split
  · split <;> rfl
  · rfl

/-- The size that is left where two slots meet is one that both know. -/
theorem Slot.length_meet {own : Slot} {other? : Option Slot} {n : Nat} :
    (own.meet other?).length = some n ↔
      ∃ other, other? = some other ∧ own.address = other.address ∧ own.length = some n ∧
      other.length = some n := by
  cases other? with
  | none => simp [meet, forget]
  | some other =>
    by_cases hagree : own.address = other.address ∧ own.length = other.length
    · simp only [meet, if_pos hagree, Option.some.injEq, exists_eq_left']
      rw [← hagree.2]
      simp [hagree.1]
    · simp only [meet, if_neg hagree, forget, reduceCtorEq, Option.some.injEq, exists_eq_left',
        false_iff]
      rintro ⟨haddress, hown, hother⟩
      exact hagree ⟨haddress, hown.trans hother.symm⟩

namespace Storage

variable {ours theirs m m' : Storage}

/-- What is known where a path with the slots `ours` meets one with the slots `theirs`. -/
structure Joins (ours theirs m : Storage) : Prop where
  /-- There is a slot for every symbol that has one on either path, and for no other. -/
  mem_iff : ∀ symbol : Symbol, symbol ∈ m ↔ symbol ∈ ours ∨ symbol ∈ theirs
  /-- A slot of ours stays. -/
  kept : ∀ (symbol : Symbol) (own : Slot), ours[symbol]? = some own →
    ∃ slot : Slot, m[symbol]? = some slot ∧ slot.address = own.address ∧ slot.kind = own.kind
  /-- A slot that only the other path has is added. -/
  added : ∀ (symbol : Symbol) (other : Slot), ours[symbol]? = none → theirs[symbol]? = some other →
    ∃ slot : Slot, m[symbol]? = some slot ∧ slot.address = other.address ∧ slot.kind = other.kind
  /-- The size of a buffer is known if both paths know that it has this size, in the same slot. -/
  length_iff : ∀ (symbol : Symbol) (slot : Slot) (n : Nat), m[symbol]? = some slot →
    (slot.length = some n ↔
    ∃ own other : Slot, ours[symbol]? = some own ∧ theirs[symbol]? = some other ∧
    own.address = other.address ∧
      own.length = some n ∧ other.length = some n)

theorem slot_ext {a b : Slot} (haddress : a.address = b.address) (hkind : a.kind = b.kind)
    (hlength : ∀ n, a.length = some n ↔ b.length = some n) : a = b := by
  have hsame : a.length = b.length := Option.ext hlength
  cases a
  cases b
  cases haddress
  cases hkind
  cases hsame
  rfl

/-- Nothing is left open of what is known where two paths meet. -/
theorem Joins.getElem?_eq (h : Joins ours theirs m) (h' : Joins ours theirs m') (symbol : Symbol) :
    m[symbol]? = m'[symbol]? := by
  have hlength : ∀ slot slot' : Slot, m[symbol]? = some slot → m'[symbol]? = some slot' →
      ∀ n, slot.length = some n ↔ slot'.length = some n := fun slot slot' hslot hslot' n =>
    (h.length_iff symbol slot n hslot).trans (h'.length_iff symbol slot' n hslot').symm
  cases hours : ours[symbol]? with
  | some own =>
    obtain ⟨slot, hslot, haddress, hkind⟩ := h.kept symbol own hours
    obtain ⟨slot', hslot', haddress', hkind'⟩ := h'.kept symbol own hours
    rw [hslot, hslot', slot_ext (haddress.trans haddress'.symm) (hkind.trans hkind'.symm)
      (hlength slot slot' hslot hslot')]
  | none =>
    cases htheirs : theirs[symbol]? with
    | some other =>
      obtain ⟨slot, hslot, haddress, hkind⟩ := h.added symbol other hours htheirs
      obtain ⟨slot', hslot', haddress', hkind'⟩ := h'.added symbol other hours htheirs
      rw [hslot, hslot', slot_ext (haddress.trans haddress'.symm) (hkind.trans hkind'.symm)
        (hlength slot slot' hslot hslot')]
    | none =>
      have hneither : ¬ (symbol ∈ ours ∨ symbol ∈ theirs) := by
        rw [Std.TreeMap.mem_iff_isSome_getElem?, Std.TreeMap.mem_iff_isSome_getElem?,
          hours, htheirs]
        simp
      have hnone : ∀ m₀ : Storage, Joins ours theirs m₀ → m₀[symbol]? = none := fun m₀ h₀ =>
        Std.TreeMap.getElem?_eq_none (mt (h₀.mem_iff symbol).1 hneither)
      rw [hnone m h, hnone m' h']

theorem joins_of_getElem? (h : ∀ symbol : Symbol, m[symbol]? =
    match ours[symbol]? with
    | some own => some (own.meet theirs[symbol]?)
    | none => theirs[symbol]?.map Slot.forget) : Joins ours theirs m where
  mem_iff symbol := by
    simp only [Std.TreeMap.mem_iff_isSome_getElem?, h symbol]
    cases ours[symbol]? <;> cases theirs[symbol]? <;> simp
  kept symbol own hours := by
    rw [h symbol, hours]
    exact ⟨_, rfl, own.address_meet _, own.kind_meet _⟩
  added symbol other hours htheirs := by
    rw [h symbol, hours, htheirs]
    exact ⟨_, rfl, rfl, rfl⟩
  length_iff symbol slot n hslot := by
    rw [h symbol] at hslot
    cases hours : ours[symbol]? with
    | some own =>
      rw [hours] at hslot
      cases hslot
      simp [Slot.length_meet]
    | none =>
      rw [hours] at hslot
      obtain ⟨other, -, rfl⟩ := Option.map_eq_some_iff.1 hslot
      simp [Slot.forget]

theorem joins_join (ours theirs : Storage) : Joins ours theirs (ours.join theirs) :=
  joins_of_getElem? (getElem?_join ours theirs)

/-- **Joining is symbol by symbol, whatever the order.**  Our slots are visited in any order, those
of the other path are taken up in any order, and what comes out is what is known where the paths
meet: the same slots as for any other order. -/
theorem joins_sweep (ours theirs : Storage) (visits : List Symbol) (entries : List (Symbol × Slot))
    (hvisits : visits.Perm ours.keys) (hentries : entries.Perm theirs.toList) :
    Joins ours theirs (ours.sweep theirs visits entries) ∧
      (ours.sweep theirs visits entries).toList = (ours.join theirs).toList := by
  have hjoins : Joins ours theirs (ours.sweep theirs visits entries) :=
    joins_of_getElem?
      (getElem?_sweep (fun _ hmem => hvisits.mem_iff.2 (Std.TreeMap.mem_keys.2 hmem)) hentries)
  refine ⟨hjoins, Std.TreeMap.equiv_iff_toList_eq.1 (Std.TreeMap.Equiv.of_forall_constGet?_eq ?_)⟩
  exact hjoins.getElem?_eq (joins_join ours theirs)

/-- The slot of a string variable `name` of the top level, with the size of its buffer. -/
def stringSlot (name : String) (length : Option Nat) : Symbol × Slot :=
  (⟨name, .top⟩, ⟨.register (name ++ ".slot") (.ptr .bytes), .scalar .string, length⟩)

/-- Two paths agree on the buffer of `s` and not on that of `t`, and `u` is on one path only; visits
go backwards. -/
theorem joins_sweep_backwards :
    let ours : Storage := .ofList [stringSlot "s" (some 3), stringSlot "t" (some 5)]
    let theirs : Storage :=
      .ofList [stringSlot "s" (some 3), stringSlot "t" (some 4), stringSlot "u" (some 2)]
    let m := ours.sweep theirs ours.keys.reverse theirs.toList.reverse
    Joins ours theirs m ∧
      m.toList = [stringSlot "s" (some 3), stringSlot "t" none, stringSlot "u" none] := by
  intro ours theirs m
  obtain ⟨hjoins, -⟩ := joins_sweep ours theirs _ _ (List.reverse_perm _) (List.reverse_perm _)
  exact ⟨hjoins, by decide +kernel⟩

end Storage

end Pseudocode
