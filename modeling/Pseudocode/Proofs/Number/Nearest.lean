import Mathlib.Algebra.Order.Field.Basic
import Mathlib.Algebra.Order.Field.Power
import Mathlib.Tactic.Linarith
import Mathlib.Tactic.Ring
import Pseudocode.Number.Digits

/-!
Numerals are rounded to the nearest number.

A pattern up to infinity's stands for a whole number of steps of `2⁻¹⁰⁷⁴`.  Infinity stands for
`2¹⁰²⁴` here, the number that would come next, so that being nearest to infinity means being beyond
what is rounded to the greatest number.

A quotient is divided by a power of two so that what is left is below `2⁵³`, and at least `2⁵²`
unless the power is the least one (`lastPlace_spec`).  That is rounded to an integer.  A number of
steps is a multiple of the power, or it is less than `2⁵²` times the power and the quotient is not;
so an integer that is nearest makes the nearest pattern.
-/

namespace Pseudocode

namespace Double

/-- The pattern of infinity. -/
def infinity : Nat := 0x7FF0000000000000

/-- How many of the smallest steps a pattern is away from zero. -/
def steps (bits : Nat) : Nat :=
  if bits / 2 ^ 52 = 0 then bits else (2 ^ 52 + bits % 2 ^ 52) * 2 ^ (bits / 2 ^ 52 - 1)

/-- How many steps a number is away from what a pattern stands for. -/
def distance (x : ℚ) (bits : Nat) : ℚ :=
  |x * 2 ^ 1074 - steps bits|

/-- No other pattern is nearer to the number, and if one is as near, then this one is even. -/
structure Nearest (x : ℚ) (bits : Nat) : Prop where
  le_infinity : bits ≤ infinity
  nearest : ∀ other ≤ infinity, distance x bits ≤ distance x other
  even : ∀ other ≤ infinity, steps other ≠ steps bits → distance x other = distance x bits →
    bits % 2 = 0

/-! ### Rounding to an integer -/

/-- An integer is at most one half away, and even if it is that far. -/
structure Rounds (x : ℚ) (n : Nat) : Prop where
  close : |x - n| ≤ 1 / 2
  even : |x - n| = 1 / 2 → n % 2 = 0

theorem rounds_roundHalfEven (num : Nat) {den : Nat} (hden : 0 < den) :
    Rounds (num / den) (roundHalfEven num den) := by
  have hpos : (0 : ℚ) < den := by exact_mod_cast hden
  -- The distance is that of two integers, divided by `den`.
  have habs (n : Nat) : |(num : ℚ) / den - n| = ((|(num : Int) - den * n| : Int) : ℚ) / den := by
    rw [← mul_div_cancel_left₀ (n : ℚ) hpos.ne', ← sub_div, abs_div, abs_of_pos hpos]
    push_cast
    rfl
  have hdivMod := Nat.div_add_mod num den
  have hrest := Nat.mod_lt num hden
  have hround : (2 * |(num : Int) - den * roundHalfEven num den| ≤ den) ∧
      (2 * |(num : Int) - den * roundHalfEven num den| = den → roundHalfEven num den % 2 = 0) := by
    unfold roundHalfEven
    dsimp only
    generalize num / den = quotient, num % den = rest at hdivMod hrest ⊢
    split
    · next h =>
        rw [Bool.or_eq_true, Bool.and_eq_true, decide_eq_true_eq, beq_iff_eq, beq_iff_eq] at h
        have hdist : (num : Int) - den * ((quotient + 1 : Nat) : Int) = rest - den := by
          rw [← hdivMod]
          push_cast
          ring
        rw [hdist, abs_sub_comm, abs_of_nonneg (by omega)]
        omega
    · next h =>
        rw [Bool.or_eq_true, Bool.and_eq_true, decide_eq_true_eq, beq_iff_eq, beq_iff_eq] at h
        have hdist : (num : Int) - den * (quotient : Int) = rest := by
          rw [← hdivMod]
          push_cast
          ring
        rw [hdist, abs_of_nonneg (by omega)]
        omega
  constructor
  · rw [habs, div_le_div_iff₀ hpos two_pos, one_mul, mul_comm]
    exact_mod_cast hround.1
  · rw [habs, div_eq_div_iff hpos.ne' two_ne_zero, one_mul, mul_comm]
    exact_mod_cast hround.2

/-- No integer is nearer than one that has been rounded to. -/
theorem Rounds.nearest {x : ℚ} {n : Nat} (h : Rounds x n) (k : Nat) :
    |x - n| ≤ |x - k| ∧ (k ≠ n → |x - k| = |x - n| → n % 2 = 0) := by
  by_cases hk : k = n
  · exact ⟨by rw [hk], fun hne => absurd hk hne⟩
  · have hapart : (1 : ℚ) ≤ |(n : ℚ) - k| := by
      have hint : (1 : Int) ≤ |(n : Int) - k| := Int.one_le_abs (by omega)
      exact_mod_cast hint
    have htriangle := abs_sub_le (n : ℚ) x k
    rw [abs_sub_comm (n : ℚ) x] at htriangle
    have hclose := h.close
    exact ⟨by linarith, fun _ heq => h.even (by linarith)⟩

/-! ### Where the last place is -/

/-- Two powers of two that are not far apart have the quotient between them. -/
theorem between_powers {num den : Nat} (hnum : 0 < num) (hden : 0 < den) :
    (2 : ℚ) ^ ((num.log2 : Int) - den.log2 - 1) < num / den ∧
      (num : ℚ) / den < 2 ^ ((num.log2 : Int) - den.log2 + 1) := by
  have hpos : (0 : ℚ) < den := by exact_mod_cast hden
  have hlow (n : Nat) (h : 0 < n) : (2 : ℚ) ^ (n.log2 : Int) ≤ n := by
    exact_mod_cast Nat.log2_self_le (Nat.ne_of_gt h)
  have hhigh (n : Nat) : (n : ℚ) < 2 ^ ((n.log2 : Int) + 1) := by
    exact_mod_cast Nat.lt_log2_self (n := n)
  constructor
  · rw [lt_div_iff₀ hpos]
    calc (2 : ℚ) ^ ((num.log2 : Int) - den.log2 - 1) * den
        < 2 ^ ((num.log2 : Int) - den.log2 - 1) * 2 ^ ((den.log2 : Int) + 1) :=
          mul_lt_mul_of_pos_left (hhigh den) (zpow_pos two_pos _)
      _ = 2 ^ (num.log2 : Int) := by rw [← zpow_add₀ two_ne_zero]; congr 1; ring
      _ ≤ num := hlow num hnum
  · rw [div_lt_iff₀ hpos]
    calc (num : ℚ) < 2 ^ ((num.log2 : Int) + 1) := hhigh num
      _ = 2 ^ ((num.log2 : Int) - den.log2 + 1) * 2 ^ (den.log2 : Int) := by
          rw [← zpow_add₀ two_ne_zero]; congr 1; ring
      _ ≤ 2 ^ ((num.log2 : Int) - den.log2 + 1) * den :=
          mul_le_mul_of_nonneg_left (hlow den hden) (zpow_pos two_pos _).le

/-- Comparing with a power of two needs no division. -/
theorem lt_power_iff (num : Nat) {den : Nat} (hden : 0 < den) (guess : Int) :
    (if 0 ≤ guess then num < den <<< (guess.toNat + 52) else num <<< (-guess).toNat < den <<< 52) ↔
      (num : ℚ) / den < 2 ^ (guess + 52) := by
  have hpos : (0 : ℚ) < den := by exact_mod_cast hden
  rw [div_lt_iff₀ hpos, zpow_add₀ two_ne_zero, Nat.shiftLeft_eq, Nat.shiftLeft_eq, Nat.shiftLeft_eq]
  split
  · next h =>
      obtain ⟨k, rfl⟩ := Int.eq_ofNat_of_zero_le h
      rw [Int.toNat_natCast, pow_add, mul_comm den]
      exact_mod_cast Iff.rfl
  · next h =>
      obtain ⟨k, hk⟩ := Int.eq_ofNat_of_zero_le (show 0 ≤ -guess by omega)
      rw [hk, Int.toNat_natCast, show guess = -(k : Int) by omega, zpow_neg, mul_assoc,
        inv_mul_eq_div, lt_div_iff₀ (zpow_pos two_pos _), mul_comm den]
      exact_mod_cast Iff.rfl

theorem lastPlace_spec {num den : Nat} (hnum : 0 < num) (hden : 0 < den) :
    -1074 ≤ lastPlace num den ∧ (num : ℚ) / den < 2 ^ (lastPlace num den + 53) ∧
      (lastPlace num den = -1074 ∨ 2 ^ (lastPlace num den + 52) ≤ (num : ℚ) / den) := by
  have hmono {m n : Int} (h : m ≤ n) : (2 : ℚ) ^ m ≤ 2 ^ n := zpow_le_zpow_right₀ one_le_two h
  obtain ⟨habove, hbelow⟩ := between_powers hnum hden
  unfold lastPlace
  simp only [lt_power_iff num hden]
  generalize (num : ℚ) / den = x at *
  obtain ⟨guess, hguess⟩ : ∃ guess : Int, guess = (num.log2 : Int) - den.log2 - 52 := ⟨_, rfl⟩
  rw [← hguess]
  rw [show (num.log2 : Int) - den.log2 - 1 = guess + 51 by omega] at habove
  rw [show (num.log2 : Int) - den.log2 + 1 = guess + 53 by omega] at hbelow
  obtain ⟨place, hplace⟩ :
      ∃ place : Int, place = if x < 2 ^ (guess + 52) then guess - 1 else guess := ⟨_, rfl⟩
  have hbounds : x < 2 ^ (place + 53) ∧ 2 ^ (place + 52) ≤ x := by
    split at hplace
    · next h =>
        rw [show place + 53 = guess + 52 by omega, show place + 52 = guess + 51 by omega]
        exact ⟨h, habove.le⟩
    · next h =>
        rw [hplace]
        exact ⟨hbelow, not_lt.1 h⟩
  rw [← hplace]
  refine ⟨le_max_left .., hbounds.1.trans_le (hmono (by omega)), ?_⟩
  rcases max_choice (-1074) place with h | h
  · exact .inl h
  · rw [h]
    exact .inr hbounds.2

/-! ### Steps -/

theorem steps_of_place {place significand : Nat} (hle : significand ≤ 2 ^ 53)
    (h : place = 0 ∨ 2 ^ 52 ≤ significand) :
    steps (place * 2 ^ 52 + significand) = significand * 2 ^ place := by
  unfold steps
  by_cases hsmall : significand < 2 ^ 52
  · rw [h.resolve_right (by omega), if_pos (by omega)]
    omega
  · by_cases hcarry : significand = 2 ^ 53
    · -- The significand has grown to the next power of two, and carries into the exponent.
      rw [if_neg (by omega), show (place * 2 ^ 52 + significand) / 2 ^ 52 - 1 = place + 1 by omega,
        show 2 ^ 52 + (place * 2 ^ 52 + significand) % 2 ^ 52 = 2 ^ 52 by omega, hcarry,
        Nat.pow_succ]
      ring
    · rw [if_neg (by omega), show (place * 2 ^ 52 + significand) / 2 ^ 52 - 1 = place by omega,
        show 2 ^ 52 + (place * 2 ^ 52 + significand) % 2 ^ 52 = significand by omega]

theorem steps_lt (bits : Nat) : steps bits < 2 ^ 52 * 2 ^ (bits / 2 ^ 52) := by
  unfold steps
  split
  · next h =>
      rw [h]
      omega
  · next h =>
      obtain ⟨e, he⟩ := Nat.exists_eq_add_one_of_ne_zero h
      rw [he, Nat.add_sub_cancel, show 2 ^ 52 * 2 ^ (e + 1) = 2 ^ 53 * 2 ^ e by ring]
      exact Nat.mul_lt_mul_of_pos_right (by omega) (Nat.two_pow_pos e)

theorem steps_mono {bits bits' : Nat} (h : bits ≤ bits') : steps bits ≤ steps bits' := by
  rcases (Nat.div_le_div_right h : bits / 2 ^ 52 ≤ bits' / 2 ^ 52).eq_or_lt with he | hlt
  · unfold steps
    rw [he]
    split
    · exact h
    · exact Nat.mul_le_mul_right _ (by omega)
  · refine (steps_lt bits).le.trans ?_
    unfold steps
    rw [if_neg (by omega)]
    exact Nat.mul_le_mul (Nat.le_add_right ..) (Nat.pow_le_pow_right two_pos (by omega))

/-- What a pattern stands for is a multiple of a power of two, or it is small beside it. -/
theorem steps_cases (bits place : Nat) :
    (∃ k, steps bits = k * 2 ^ place) ∨ place ≠ 0 ∧ steps bits < 2 ^ 52 * 2 ^ place := by
  by_cases hplace : place ≤ bits / 2 ^ 52 - 1
  · left
    unfold steps
    split
    · exact ⟨bits, by rw [show place = 0 by omega, Nat.pow_zero, Nat.mul_one]⟩
    · refine ⟨(2 ^ 52 + bits % 2 ^ 52) * 2 ^ (bits / 2 ^ 52 - 1 - place), ?_⟩
      rw [Nat.mul_assoc, ← Nat.pow_add, Nat.sub_add_cancel hplace]
  · refine .inr ⟨by omega, (steps_lt bits).trans_le ?_⟩
    exact Nat.mul_le_mul_left _ (Nat.pow_le_pow_right two_pos (by omega))

/-! ### The nearest number -/

/-- Counted in steps, a number is rounded to a significand of fifty-three bits, or of fewer in the
least place. -/
structure Significand (x : ℚ) (place significand : Nat) : Prop where
  below : x < 2 ^ 53 * 2 ^ place
  above : place = 0 ∨ 2 ^ 52 * 2 ^ place ≤ x
  rounds : Rounds (x / 2 ^ place) significand

namespace Significand

variable {x : ℚ} {place significand : Nat}

theorem bounds (h : Significand x place significand) :
    significand ≤ 2 ^ 53 ∧ (place = 0 ∨ 2 ^ 52 ≤ significand) := by
  have hpow : (0 : ℚ) < 2 ^ place := pow_pos two_pos place
  obtain ⟨hlow, hhigh⟩ := abs_le.1 h.rounds.close
  constructor
  · have hx := (div_lt_iff₀ hpow).2 h.below
    have hlt : (significand : ℚ) < ((2 ^ 53 + 1 : Nat) : ℚ) := by push_cast; linarith
    exact Nat.le_of_lt_succ (by exact_mod_cast hlt)
  · refine h.above.imp_right fun hx => ?_
    rw [← le_div_iff₀ hpow] at hx
    have hlt : ((2 ^ 52 : Nat) : ℚ) < ((significand + 1 : Nat) : ℚ) := by push_cast; linarith
    exact Nat.le_of_lt_succ (by exact_mod_cast hlt)

/-- Putting place and significand together gives the nearest pattern, if patterns go on beyond
infinity. -/
theorem nearest (h : Significand x place significand) (bits : Nat) :
    |x - steps (place * 2 ^ 52 + significand)| ≤ |x - steps bits| ∧
      (steps bits ≠ steps (place * 2 ^ 52 + significand) →
        |x - steps bits| = |x - steps (place * 2 ^ 52 + significand)| →
        (place * 2 ^ 52 + significand) % 2 = 0) := by
  have hpow : (0 : ℚ) < 2 ^ place := pow_pos two_pos place
  have hscale (k : Nat) : |x - (k * 2 ^ place : Nat)| = |x / 2 ^ place - k| * 2 ^ place := by
    rw [← abs_of_pos hpow, ← abs_mul, abs_of_pos hpow, sub_mul, div_mul_cancel₀ _ hpow.ne']
    push_cast
    rfl
  rw [steps_of_place h.bounds.1 h.bounds.2]
  rcases steps_cases bits place with ⟨k, hk⟩ | ⟨hne, hlt⟩
  · obtain ⟨hnearest, heven⟩ := h.rounds.nearest k
    rw [hk, hscale, hscale]
    refine ⟨mul_le_mul_of_nonneg_right hnearest hpow.le, fun hne heq => ?_⟩
    have := heven (fun hk => hne (by rw [hk])) (mul_right_cancel₀ hpow.ne' heq)
    omega
  · -- The number is beyond `2 ^ 52` times the power, which is nearer to it than what lies before.
    have habove := h.above.resolve_left hne
    have hbits : (steps bits : ℚ) < 2 ^ 52 * 2 ^ place := by exact_mod_cast hlt
    have hfar : |x - (2 ^ 52 * 2 ^ place : Nat)| < |x - steps bits| := by
      push_cast
      rw [abs_of_nonneg (by linarith), abs_of_nonneg (by linarith)]
      linarith
    have hnear : |x - (significand * 2 ^ place : Nat)| ≤ |x - (2 ^ 52 * 2 ^ place : Nat)| := by
      rw [hscale, hscale]
      exact mul_le_mul_of_nonneg_right (h.rounds.nearest (2 ^ 52)).1 hpow.le
    exact ⟨(hnear.trans_lt hfar).le, fun _ heq => absurd heq (hnear.trans_lt hfar).ne'⟩

/-- What is put together beyond infinity comes from a number beyond infinity. -/
theorem infinity_le (h : Significand x place significand)
    (hgt : infinity < place * 2 ^ 52 + significand) : (steps infinity : ℚ) ≤ x := by
  have hle := h.bounds.1
  have hsteps : steps infinity ≤ 2 ^ 52 * 2 ^ place := by
    rw [← steps_of_place (by omega) (.inr (Nat.le_refl _))]
    exact steps_mono (by unfold infinity at *; omega)
  refine le_trans ?_ (h.above.resolve_left (by unfold infinity at *; omega))
  exact_mod_cast hsteps

end Significand

theorem nearest_of_significand {x : ℚ} {place significand : Nat}
    (h : Significand (x * 2 ^ 1074) place significand) :
    Nearest x (min (place * 2 ^ 52 + significand) infinity) := by
  rcases le_or_gt (place * 2 ^ 52 + significand) infinity with hle | hgt
  · rw [min_eq_left hle]
    exact ⟨hle, fun other _ => (h.nearest other).1, fun other _ => (h.nearest other).2⟩
  · rw [min_eq_right hgt.le]
    refine ⟨Nat.le_refl _, fun other hother => ?_, fun _ _ _ _ => by decide⟩
    have hbeyond := h.infinity_le hgt
    have hbefore : (steps other : ℚ) ≤ steps infinity := by exact_mod_cast steps_mono hother
    unfold distance
    generalize x * 2 ^ 1074 = y at hbeyond ⊢
    rw [abs_of_nonneg (by linarith), abs_of_nonneg (by linarith)]
    linarith

theorem rounds_significand (num : Nat) {den : Nat} (hden : 0 < den) (place : Int) :
    Rounds (num / den / 2 ^ place) (if 0 ≤ place then roundHalfEven num (den <<< place.toNat)
      else roundHalfEven (num <<< (-place).toNat) den) := by
  split
  · next h =>
      obtain ⟨k, rfl⟩ := Int.eq_ofNat_of_zero_le h
      have hround := rounds_roundHalfEven num (Nat.mul_pos hden (Nat.two_pow_pos k))
      rw [Nat.cast_mul, Nat.cast_pow, Nat.cast_ofNat, ← div_div] at hround
      rwa [Int.toNat_natCast, Nat.shiftLeft_eq, zpow_natCast]
  · next h =>
      obtain ⟨k, hk⟩ := Int.eq_ofNat_of_zero_le (show 0 ≤ -place by omega)
      have hround := rounds_roundHalfEven (num * 2 ^ k) hden
      rw [Nat.cast_mul, Nat.cast_pow, Nat.cast_ofNat, mul_div_right_comm] at hround
      rwa [hk, Int.toNat_natCast, Nat.shiftLeft_eq, show place = -(k : Int) by omega, zpow_neg,
        div_inv_eq_mul, zpow_natCast]

/-- How a pattern is put together. -/
theorem ofRatio_eq {num den : Nat} (hnum : num ≠ 0) (hden : den ≠ 0) : ∃ place significand,
    (ofRatio num den).bits.toNat = min (place * 2 ^ 52 + significand) infinity ∧
      Significand ((num : ℚ) / den * 2 ^ 1074) place significand := by
  have hpow : (0 : ℚ) < 2 ^ 1074 := pow_pos two_pos 1074
  obtain ⟨hleast, hbelow, habove⟩ :=
    lastPlace_spec (Nat.pos_of_ne_zero hnum) (Nat.pos_of_ne_zero hden)
  have hround := rounds_significand num (Nat.pos_of_ne_zero hden) (lastPlace num den)
  obtain ⟨place, hplace⟩ := Int.eq_ofNat_of_zero_le (show 0 ≤ lastPlace num den + 1074 by omega)
  have hscale (k : Nat) : (2 : ℚ) ^ (lastPlace num den + k) = 2 ^ k * 2 ^ place / 2 ^ 1074 := by
    rw [show lastPlace num den + k = k + place - 1074 by omega, zpow_sub₀ two_ne_zero,
      zpow_add₀ two_ne_zero]
    rfl
  have hone := hscale 0
  rw [Nat.cast_zero, add_zero, pow_zero, one_mul] at hone
  rw [hone, div_div_eq_mul_div] at hround
  refine ⟨place, _, ?_, ?_, ?_, hround⟩
  · have hlt : infinity < 2 ^ 64 := by decide
    rw [ofRatio, if_neg (by simp [hnum, hden])]
    dsimp only
    rw [hplace, Int.toNat_natCast, Nat.shiftLeft_eq _ 52]
    exact UInt64.toNat_ofNat_of_lt' ((min_le_right ..).trans_lt hlt)
  · rw [← lt_div_iff₀ hpow, ← hscale]
    exact hbelow
  · refine habove.imp (fun h => by omega) fun h => ?_
    rw [← div_le_iff₀ hpow, ← hscale]
    exact h

/-- **A quotient is rounded to the number that is nearest to it**, and to the even one if two of
them are. -/
theorem nearest_ofRatio (num den : Nat) : Nearest (num / den) (ofRatio num den).bits.toNat := by
  by_cases hzero : num = 0 ∨ den = 0
  · have hquotient : (num : ℚ) / den = 0 := by rcases hzero with h | h <;> simp [h]
    rw [hquotient, show ofRatio num den = zero by rcases hzero with h | h <;> simp [ofRatio, h]]
    refine ⟨by decide, fun other _ => ?_, fun _ _ _ _ => rfl⟩
    simp [distance, zero, steps]
  · obtain ⟨hnum, hden⟩ := not_or.1 hzero
    obtain ⟨place, significand, hbits, hsignificand⟩ := ofRatio_eq hnum hden
    rw [hbits]
    exact nearest_of_significand hsignificand

end Double

/-! ### Numerals -/

theorem Digits.value_append (before after : List Char) :
    value (before ++ after) = value before * 10 ^ after.length + value after := by
  have hfold (start : Nat) : after.foldl (fun n c => 10 * n + (c.toNat - '0'.toNat)) start =
      start * 10 ^ after.length + value after := by
    unfold value
    induction after generalizing start with
    | nil => simp
    | cons c cs ih =>
      rw [List.foldl_cons, List.foldl_cons, ih, ih (10 * 0 + _), List.length_cons, Nat.pow_succ]
      ring
  rw [value, List.foldl_append, hfold]
  rfl

/-- **A numeral with a point is the number that is nearest to what its digits say.** -/
theorem Digits.nearest_pointed (before after : List Char) :
    Double.Nearest (value before + value after / 10 ^ after.length)
    (pointed before after).bits.toNat := by
  have hpow : (0 : ℚ) < 10 ^ after.length := pow_pos (by norm_num) _
  have h := Double.nearest_ofRatio (value (before ++ after)) (10 ^ after.length)
  rw [value_append, Nat.cast_add, Nat.cast_mul, Nat.cast_pow, Nat.cast_ofNat, add_div,
    mul_div_cancel_right₀ _ hpow.ne'] at h
  rw [← value_append] at h
  exact h

end Pseudocode
