import Mathlib.Data.List.Perm.Subperm
import Pseudocode.Ir.Draft.Name
import Pseudocode.Ir.Value

/-!
Names of a function, and why they do not collide.

A function has three families of names.  Labels and slots are found by `freshName`, which looks for
the first numbered form of a hint that is not taken.  It always finds one: the numbered forms are
different from one another and from the hint, so not all of the first `taken.size` of them can be
taken together with the hint itself (`finds_freshName`).  Registers are counted, `t0`, `t1`, and so
on; they are never looked up, and need not be, since they have no dot in them and every name of
another family has one.

The name of a slot also tells whose slot it is: however it is numbered, it belongs to one variable
only (`SlotOf.unique`).
-/

namespace Pseudocode.Ir

namespace Draft

variable {n j k : Nat} {hint name x y : String} {taken : Std.TreeSet String}

/-! ### Numerals -/

theorem toString_nat_inj {m : Nat} (h : toString m = toString n) : m = n := by
  have hdigits : Nat.toDigits 10 m = Nat.toDigits 10 n := by
    rw [← Nat.toList_repr, ← Nat.toList_repr]
    exact congrArg String.toList h
  rw [← Nat.ofDigitChars_ten_toDigits (n := m), hdigits, Nat.ofDigitChars_ten_toDigits]

theorem isDigit_of_mem_toString {c : Char} (h : c ∈ (toString n).toList) : c.isDigit := by
  have h' : c ∈ Nat.toDigits 10 n := by
    rw [← Nat.toList_repr]
    exact h
  exact Nat.isDigit_of_mem_toDigits (by decide) (by decide) h'

theorem dot_notMem_toString (n : Nat) : '.' ∉ (toString n).toList := by
  intro h
  exact absurd (isDigit_of_mem_toString h) (by decide)

/-! ### Numbered names -/

theorem toList_numbered (hint : String) (k : Nat) :
    (numbered hint k).toList = hint.toList ++ '.' :: (toString k).toList := by
  simp [numbered]

theorem numbered_inj (h : numbered hint j = numbered hint k) : j = k := by
  have hlist := congrArg String.toList h
  rw [toList_numbered, toList_numbered] at hlist
  exact toString_nat_inj (String.toList_inj.mp (List.cons.inj (List.append_cancel_left hlist)).2)

theorem numbered_ne (hint : String) (k : Nat) : numbered hint k ≠ hint := by
  intro h
  have hlength := congrArg (fun s : String => s.toList.length) h
  simp only [toList_numbered, List.length_append, List.length_cons] at hlength
  omega

/-! ### The search for a free name -/

/-- The search stops at a free number, or has found every number it was allowed to try taken. -/
theorem firstFree_spec (taken : Std.TreeSet String) (hint : String) :
    ∀ tries k : Nat,
      (∃ j, firstFree taken hint tries k = k + j ∧
        (∀ i < j, taken.contains (numbered hint (k + i)) = true) ∧
        (taken.contains (numbered hint (k + j)) = false ∨ j = tries)) := by
  intro tries
  induction tries with
  | zero => intro k; exact ⟨0, rfl, by intro i hi; omega, Or.inr rfl⟩
  | succ tries ih =>
    intro k
    rw [firstFree]
    by_cases hk : taken.contains (numbered hint k) = true
    · rw [if_pos hk]
      obtain ⟨j, hj, hall, hend⟩ := ih (k + 1)
      refine ⟨j + 1, by omega, ?_, ?_⟩
      · intro i hi
        rcases Nat.eq_zero_or_pos i with rfl | hpos
        · exact hk
        · have hi' := hall (i - 1) (by omega)
          rwa [show k + 1 + (i - 1) = k + i by omega] at hi'
      · rcases hend with hfree | hspent
        · left
          rwa [show k + (j + 1) = k + 1 + j by omega]
        · right
          omega
    · rw [if_neg hk]
      exact ⟨0, rfl, by intro i hi; omega, Or.inl (Bool.eq_false_iff.mpr hk)⟩

/-- Different names that are all taken are no more than there are taken names. -/
theorem length_le_size {names : List String} (hnodup : names.Nodup)
    (hall : ∀ n ∈ names, taken.contains n = true) : names.length ≤ taken.size := by
  rw [← Std.TreeSet.length_toList]
  refine (List.subperm_of_subset hnodup fun n hn => ?_).length_le
  rw [Std.TreeSet.mem_toList, ← Std.TreeSet.contains_iff_mem]
  exact hall n hn

/-- Numbered forms of a taken hint that are taken as well are fewer than there are taken names. -/
theorem lt_size_of_taken (hhint : taken.contains hint = true)
    (hall : ∀ i < j, taken.contains (numbered hint (1 + i)) = true) : j < taken.size := by
  have hnodup : (hint :: (List.range j).map fun i => numbered hint (1 + i)).Nodup := by
    refine List.nodup_cons.mpr ⟨?_, ?_⟩
    · intro hmem
      obtain ⟨i, -, hi⟩ := List.mem_map.mp hmem
      exact numbered_ne hint (1 + i) hi
    · refine List.Pairwise.map _ (fun a b hab heq => hab ?_) List.nodup_range
      have := numbered_inj heq
      omega
  have htaken : ∀ n ∈ hint :: (List.range j).map fun i => numbered hint (1 + i),
    taken.contains n = true := by
    intro n hn
    rcases List.mem_cons.mp hn with rfl | hn
    · exact hhint
    · obtain ⟨i, hi, rfl⟩ := List.mem_map.mp hn
      exact hall i (List.mem_range.mp hi)
  have hle := length_le_size hnodup htaken
  simp only [List.length_cons, List.length_map, List.length_range] at hle
  omega

/-- What is found for a hint: the hint itself if it is free, and otherwise the numbered form of it
with the least number, from one on, that is free. -/
inductive Finds (taken : Std.TreeSet String) (hint : String) : String → Prop
  | hint (hfree : taken.contains hint = false) : Finds taken hint hint
  | numbered {k : Nat} (htaken : taken.contains hint = true) (hpos : 1 ≤ k)
    (hbound : k ≤ taken.size)
      (hfree : taken.contains (numbered hint k) = false)
      (hleast : ∀ j, 1 ≤ j → j < k → taken.contains (Draft.numbered hint j) = true) :
      Finds taken hint (numbered hint k)

/-- **The search ends**, after no more numbers than there are taken names. -/
theorem finds_freshName (taken : Std.TreeSet String) (hint : String) :
    Finds taken hint (freshName taken hint) := by
  rw [freshName]
  by_cases hhint : taken.contains hint = true
  · rw [if_pos hhint]
    obtain ⟨j, hj, hall, hend⟩ := firstFree_spec taken hint taken.size 1
    have hlt := lt_size_of_taken hhint hall
    rw [hj]
    refine .numbered hhint (by omega) (by omega) (hend.resolve_right (by omega)) fun i hpos hi => ?_
    have hi' := hall (i - 1) (by omega)
    rwa [show 1 + (i - 1) = i by omega] at hi'
  · rw [if_neg hhint]
    exact .hint (Bool.eq_false_iff.mpr hhint)

/-- **The name that is found is free.** -/
theorem freshName_free (taken : Std.TreeSet String) (hint : String) :
    taken.contains (freshName taken hint) = false := by
  have hfinds := finds_freshName taken hint
  generalize freshName taken hint = name at hfinds
  cases hfinds <;> assumption

/-- The name that is found is the hint or a numbered form of it. -/
theorem freshName_eq (taken : Std.TreeSet String) (hint : String) :
    freshName taken hint = hint ∨ ∃ k, freshName taken hint = numbered hint k := by
  have hfinds := finds_freshName taken hint
  generalize freshName taken hint = name at hfinds
  cases hfinds with
  | hint => exact Or.inl rfl
  | numbered => exact Or.inr ⟨_, rfl⟩

/-! ### Registers -/

/-- The register with a number. -/
def tempName (k : Nat) : String :=
  s!"t{k}"

/-- Is a name the name of a register? -/
def IsTemp (name : String) : Prop :=
  ∃ k, name = tempName k

theorem toList_tempName (k : Nat) : (tempName k).toList = 't' :: (toString k).toList := by
  show (toString "t" ++ toString k).toList = _
  rw [String.toList_append]
  rfl

theorem tempName_inj (h : tempName j = tempName k) : j = k := by
  have hlist := congrArg String.toList h
  rw [toList_tempName, toList_tempName] at hlist
  exact toString_nat_inj (String.toList_inj.mp (List.cons.inj hlist).2)

theorem dot_notMem_tempName (k : Nat) : '.' ∉ (tempName k).toList := by
  rw [toList_tempName]
  intro h
  rcases List.mem_cons.mp h with hc | hc
  · exact absurd hc (by decide)
  · exact dot_notMem_toString k hc

/-- A name with a dot in it is not the name of a register. -/
theorem not_isTemp_of_dot (h : '.' ∈ name.toList) : ¬ IsTemp name := by
  rintro ⟨k, rfl⟩
  exact dot_notMem_tempName k h

theorem dot_mem_freshName (h : '.' ∈ hint.toList) : '.' ∈ (freshName taken hint).toList := by
  rcases freshName_eq taken hint with hname | ⟨k, hname⟩
  · rw [hname]
    exact h
  · rw [hname, toList_numbered]
    simp

/-! ### Slots

A numbered name ends in a dot and digits, so the last dot of it tells the hint from the number; and
a name that is not numbered ends in a letter.
-/

/-- Is a name the name of a slot of the variable `x`? -/
def SlotOf (x name : String) : Prop :=
  name = x ++ ".slot" ∨ ∃ k, name = numbered (x ++ ".slot") k

theorem slotOf_freshName (taken : Std.TreeSet String) (x : String) :
    SlotOf x (freshName taken (x ++ ".slot")) :=
  freshName_eq taken (x ++ ".slot")

theorem append_slot_inj (h : x ++ ".slot" = y ++ ".slot") : x = y := by
  have hlist := congrArg String.toList h
  rw [String.toList_append, String.toList_append] at hlist
  exact String.toList_inj.mp (List.append_cancel_right hlist)

/-- Lists that agree from their last dots on are cut at the same place. -/
theorem eq_of_append_dot {l₁ l₂ d₁ d₂ : List Char} (h₁ : '.' ∉ d₁) (h₂ : '.' ∉ d₂)
    (h : l₁ ++ '.' :: d₁ = l₂ ++ '.' :: d₂) : l₁ = l₂ := by
  rcases List.append_eq_append_iff.mp h with ⟨m, hl, hd⟩ | ⟨m, hl, hd⟩
  · cases m with
    | nil => rw [hl, List.append_nil]
    | cons c m => exact absurd (by rw [(List.cons.inj hd).2]; simp) h₁
  · cases m with
    | nil => rw [hl, List.append_nil]
    | cons c m => exact absurd (by rw [(List.cons.inj hd).2]; simp) h₂

theorem numbered_ne_slot (hint x : String) (k : Nat) : numbered hint k ≠ x ++ ".slot" := by
  intro h
  have hlist := congrArg String.toList h
  rw [toList_numbered, String.toList_append] at hlist
  have hsplit :
    hint.toList ++ '.' :: (toString k).toList = x.toList ++ '.' :: ['s', 'l', 'o', 't'] := hlist
  have hhint := eq_of_append_dot (dot_notMem_toString k) (by decide) hsplit
  rw [hhint] at hsplit
  have hdigits := (List.cons.inj (List.append_cancel_left hsplit)).2
  have hmem : 's' ∈ (toString k).toList := by rw [hdigits]; simp
  exact absurd (isDigit_of_mem_toString hmem) (by decide)

theorem SlotOf.dotted (h : SlotOf x name) : '.' ∈ name.toList := by
  rcases h with rfl | ⟨k, rfl⟩
  · simp
  · rw [toList_numbered]
    simp

/-- A counted register is no slot. -/
theorem not_slotOf_tempName (x : String) (k : Nat) : ¬ SlotOf x (tempName k) :=
  fun h => dot_notMem_tempName k h.dotted

/-- **A slot belongs to one variable.** -/
theorem SlotOf.unique (hx : SlotOf x name) (hy : SlotOf y name) : x = y := by
  rcases hx with hx | ⟨j, hx⟩ <;> rcases hy with hy | ⟨k, hy⟩
  · exact append_slot_inj (hx.symm.trans hy)
  · exact absurd (hy.symm.trans hx) (numbered_ne_slot _ _ _)
  · exact absurd (hx.symm.trans hy) (numbered_ne_slot _ _ _)
  · have hlist := congrArg String.toList (hx.symm.trans hy)
    rw [toList_numbered, toList_numbered] at hlist
    exact append_slot_inj (String.toList_inj.mp
      (eq_of_append_dot (dot_notMem_toString j) (dot_notMem_toString k) hlist))

end Draft

/-! ### Registers that have come -/

/-- The value is not in a register from the `k`-th on. -/
def Value.Settled (k : Nat) (v : Value) : Prop :=
  ∀ name t, v = .register name t → ∀ i, k ≤ i → name ≠ Draft.tempName i

namespace Value.Settled

variable {k : Nat} {v : Value}

theorem next (k : Nat) (t : Ty) : (Value.register (Draft.tempName k) t).Settled (k + 1) := by
  intro name t' hv i hi heq
  rw [Value.register.injEq] at hv
  have hsame := Draft.tempName_inj (hv.1.trans heq)
  omega

theorem of_dot {name : String} {t : Ty} (hdot : '.' ∈ name.toList) :
    (Value.register name t).Settled k := by
  intro name' t' hv i _ heq
  rw [Value.register.injEq] at hv
  exact Draft.not_isTemp_of_dot hdot ⟨i, hv.1.trans heq⟩

end Value.Settled

end Pseudocode.Ir
