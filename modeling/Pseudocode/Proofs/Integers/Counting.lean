import Pseudocode.Proofs.Integers.Correctness

/-!
What a counting loop counts.

`FOR i = A TO B` sets its variable to `A`, and then runs its body and adds one, again and again
while the variable is not beyond `B`.  The test comes after the addition, and numbers are words of
32 bits, so there is one number for which the test comes too late.  As long as that number is
neither the first nor the last, the loop counts from the first to the last, or it runs once if the
last is less than the first (`repeatWhile_counts`).  Is it the last, no number is beyond it and the
loop does not end (`repeatWhile_forever`); is it the first, the loop goes on with the least of all
numbers.
-/

namespace Pseudocode

variable {i : String} {shape : Shape} {bound : Expr} {σ : Store} {out : Output} {v b : Int32}
  {n : Nat}

/-! ### Numbers in order -/

/-- The integers from one to another, in order. -/
def integers (first last : Int) : List Int :=
  (List.range (last - first + 1).toNat).map fun k : Nat => first + k

/-- Numbers printed, each on a line of its own. -/
def linesOf (numbers : List Int) : Output :=
  numbers.flatMap fun n => [.number (.ofInt n), .lineBreak]

theorem integers_self (n : Int) : integers n n = [n] := by
  simp [integers]

theorem integers_eq_cons {first last : Int} (h : first ≤ last) :
    integers first last = first :: integers (first + 1) last := by
  have hcount : (last - first + 1).toNat = (last - (first + 1) + 1).toNat + 1 := by omega
  unfold integers
  rw [hcount, List.range_succ_eq_map, List.map_cons, List.map_map, List.cons.injEq]
  refine ⟨by simp, List.map_congr_left fun k _ => ?_⟩
  simp
  omega

theorem toInt_succ (h : v.toInt < 2147483647) : (v + 1).toInt = v.toInt + 1 := by
  have := v.le_toInt
  rw [Int32.toInt_add]
  exact Int.bmod_eq_of_le (by simp; omega) (by simp; omega)

/-! ### Expressions of constants -/

/-- Is the expression made of integers, operators and signs alone? -/
def Expr.isFixed : Expr → Bool
  | .constant (.int _) _ => true
  | .binary _ lhs rhs _ => lhs.isFixed && rhs.isFixed
  | .negate operand _ => operand.isFixed
  | _ => false

theorem Expr.isPlain_of_isFixed {e : Expr} (h : e.isFixed) : e.isPlain := by
  fun_induction isFixed e with
  | case1 => rfl
  | case2 op lhs rhs shape ihl ihr =>
    rw [Bool.and_eq_true] at h
    simp only [isPlain, ihl h.1, ihr h.2, Bool.and_true]
  | case3 operand shape ih => exact ih h
  | case4 => simp at h

theorem Expr.eval_of_isFixed {e : Expr} (h : e.isFixed) (σ τ : Store) : e.eval σ = e.eval τ := by
  fun_induction isFixed e with
  | case1 => rfl
  | case2 op lhs rhs shape ihl ihr =>
    rw [Bool.and_eq_true] at h
    rw [eval, eval, ihl h.1, ihr h.2]
  | case3 operand shape ih => rw [eval, eval, ih h]
  | case4 => simp at h

/-! ### The loop -/

/-- What the loop does before it tests: it prints its variable and adds one to it. -/
def countOnce (i : String) (shape : Shape) (n : Nat) (σ : Store) (out : Output) : Progress :=
  (execAll n [.output (.var i shape)] σ out).andThen (increment i)

theorem countOnce_eq (hσ : σ i = some v) :
    countOnce i shape n σ out = .done (σ.set i (v + 1)) (out ++ [.number v, .lineBreak]) := by
  have hprint :
    execAll n [.output (.var i shape)] σ out = .done σ (out ++ [.number v, .lineBreak]) := by
    simp [execAll, Stmt.exec, Expr.eval, hσ, Progress.withValue, Progress.andThen]
  rw [countOnce, hprint]
  simp only [Progress.andThen, increment, hσ, Progress.withValue]

theorem notBeyond_set (hbound : ∀ σ, bound.eval σ = some b) :
    notBeyond i bound (σ.set i v) = some (truthWord (v.toInt ≤ b.toInt)) := by
  simp [notBeyond, Store.set_same, hbound, BinaryOp.result?, Int32.le_iff_toInt_le]

/-- **One turn of the loop.** -/
theorem repeatWhile_turn (hbound : ∀ σ, bound.eval σ = some b) (hσ : σ i = some v) (k : Nat) :
    repeatWhile (countOnce i shape n) (notBeyond i bound) (k + 1) σ out =
      if (v + 1).toInt ≤ b.toInt then
        repeatWhile (countOnce i shape n) (notBeyond i bound) k (σ.set i (v + 1))
        (out ++ [.number v, .lineBreak])
      else .done (σ.set i (v + 1)) (out ++ [.number v, .lineBreak]) := by
  rw [repeatWhile, countOnce_eq hσ]
  simp only [Progress.andThen, notBeyond_set hbound, Progress.withValue, truthWord_ne_zero,
    decide_eq_true_eq]

/-- **The loop counts**, if the greatest of all numbers is neither the first nor the last. -/
theorem repeatWhile_counts (shape : Shape) (n : Nat) (out : Output)
    (hbound : ∀ σ, bound.eval σ = some b)
    (hσ : σ i = some v) (hmax : max v.toInt b.toInt < 2147483647) {k : Nat}
    (hk : max v.toInt b.toInt - v.toInt < k) :
    ∃ σ', repeatWhile (countOnce i shape n) (notBeyond i bound) k σ out =
      .done σ' (out ++ linesOf (integers v.toInt (max v.toInt b.toInt))) := by
  induction k generalizing v σ out with
  | zero => omega
  | succ k ih =>
    have hsucc := toInt_succ (v := v) (by omega)
    have hword : [Printed.number v, .lineBreak] = linesOf [v.toInt] := by simp [linesOf]
    rw [repeatWhile_turn hbound hσ, hsucc, hword]
    by_cases hle : v.toInt + 1 ≤ b.toInt
    · rw [if_pos hle]
      obtain ⟨σ', hrest⟩ := ih (v := v + 1) (σ := σ.set i (v + 1)) (out ++ linesOf [v.toInt])
        (σ.set_same i _) (by omega) (by omega)
      have hall : max v.toInt b.toInt = max (v + 1).toInt b.toInt := by omega
      have hcons : integers v.toInt (max (v + 1).toInt b.toInt) =
          v.toInt :: integers (v + 1).toInt (max (v + 1).toInt b.toInt) := by
        rw [hsucc]
        exact integers_eq_cons (by omega)
      exact ⟨σ', by rw [hrest, hall, hcons]; simp [linesOf]⟩
    · rw [if_neg hle]
      have hone : max v.toInt b.toInt = v.toInt := by omega
      exact ⟨_, by rw [hone, integers_self]⟩

/-- **The loop does not end**, if the greatest of all numbers is the last. -/
theorem repeatWhile_forever (shape : Shape) (n : Nat) (out : Output)
    (hbound : ∀ σ, bound.eval σ = some b)
    (hσ : σ i = some v) (hb : b.toInt = 2147483647) (k : Nat) :
    ∃ out', repeatWhile (countOnce i shape n) (notBeyond i bound) k σ out = .unfinished out' := by
  induction k generalizing v σ out with
  | zero => exact ⟨out, rfl⟩
  | succ k ih =>
    have hle : (v + 1).toInt ≤ b.toInt := by
      have := (v + 1).toInt_lt
      omega
    rw [repeatWhile_turn hbound hσ, if_pos hle]
    exact ih _ (σ.set_same i _)

/-! ### The program -/

/-- Is the program `FOR i = A TO B`, `OUTPUT i`, `NEXT i`, with expressions of constants that have
the values `a` and `b`? -/
def Program.countsFromTo (a b : Int32) : Program → Bool
  | [.forLoop init bound [.output (.var i _)]] =>
  init.binds == [i] && init.value.isFixed && bound.isFixed &&
      init.value.eval .empty == some a && bound.eval .empty == some b
  | _ => false

section

variable {p : Program} {a : Int32} {tokens : List Token}

/-- Such a program runs the loop above. -/
theorem exec_of_countsFromTo (h : p.countsFromTo a b) : allPlain p = true ∧
    armsBoundAll [] p = true ∧
    ∃ i shape bound, (∀ σ, Expr.eval σ bound = some b) ∧ ∀ n, Program.exec p n =
      repeatWhile (countOnce i shape n) (notBeyond i bound) n (Store.empty.set i a) [] := by
  unfold Program.countsFromTo at h
  split at h
  case h_2 => cases h
  case h_1 init bound i shape =>
    simp only [Bool.and_eq_true, beq_iff_eq] at h
    obtain ⟨⟨⟨⟨hbinds, hfirst⟩, hlast⟩, ha⟩, hb⟩ := h
    refine ⟨?_, rfl, i, shape, bound, fun σ => (Expr.eval_of_isFixed hlast σ .empty).trans hb,
      fun n => ?_⟩
    · simp [allPlain, Stmt.isPlain, Expr.isPlain_of_isFixed hfirst, Expr.isPlain_of_isFixed hlast,
        Expr.isPlain]
    · obtain ⟨kind, htarget⟩ : ∃ kind, init.target = .var i kind := by
        unfold Assignment.binds at hbinds
        cases htarget : init.target with
        | var name kind => simp_all
        | element name index ty => simp [htarget] at hbinds
      have hinit : init.exec .empty [] = .done (Store.empty.set i a) [] := by
        simp [Assignment.exec, htarget, ha, Progress.withValue]
      have hname : init.target.name = i := by rw [htarget]; rfl
      show ((init.exec .empty []).andThen _).andThen (execAll n []) = _
      rw [hinit, hname]
      exact Progress.andThen_done _

theorem terminates_of_countsFromTo (h : p.countsFromTo a b)
    (hmax : max a.toInt b.toInt < 2147483647) :
    p.Terminates (linesOf (integers a.toInt (max a.toInt b.toInt))) := by
  obtain ⟨-, -, i, shape, bound, hbound, hexec⟩ := exec_of_countsFromTo h
  have hcount : max a.toInt b.toInt - a.toInt < (max a.toInt b.toInt - a.toInt + 1).toNat := by
    omega
  obtain ⟨σ', hdone⟩ := repeatWhile_counts shape _ [] hbound (Store.empty.set_same i a) hmax hcount
  exact ⟨_, σ', (hexec _).trans hdone⟩

theorem not_terminates_of_countsFromTo (h : p.countsFromTo a b) (hb : b.toInt = 2147483647) :
    ¬ p.Terminates out := by
  obtain ⟨-, -, i, shape, bound, hbound, hexec⟩ := exec_of_countsFromTo h
  rintro ⟨n, σ', hdone⟩
  obtain ⟨out', hunfinished⟩ :=
    repeatWhile_forever shape n [] hbound (Store.empty.set_same i a) hb n
  rw [hexec, hunfinished] at hdone
  cases hdone

/-- The number after the greatest is the least. -/
theorem terminates_of_wraps (h : p.countsFromTo a b) (ha : a.toInt = 2147483647)
    (hb : b.toInt < 2147483647) :
    p.Terminates (linesOf (a.toInt :: integers (-2147483648) b.toInt)) := by
  obtain ⟨-, -, i, shape, bound, hbound, hexec⟩ := exec_of_countsFromTo h
  have hnext : (a + 1).toInt = -2147483648 := by rw [Int32.toInt_add, ha]; decide
  have hleast := b.le_toInt
  have hmax : max (a + 1).toInt b.toInt = b.toInt := by omega
  have hcount : max (a + 1).toInt b.toInt - (a + 1).toInt < (b.toInt + 2147483649).toNat := by omega
  obtain ⟨σ', hdone⟩ := repeatWhile_counts shape ((b.toInt + 2147483649).toNat + 1)
    [.number a, .lineBreak] hbound ((Store.empty.set i a).set_same i (a + 1)) (by omega) hcount
  refine ⟨(b.toInt + 2147483649).toNat + 1, σ', ?_⟩
  rw [hexec, repeatWhile_turn hbound (Store.empty.set_same i a), if_pos (by omega), List.nil_append,
    hdone, hmax, hnext]
  simp [linesOf]

/-- **What a counting loop prints.**  Take the code of a program that counts from `a` to `b` and
prints what it counts. If neither of the two is the greatest of all numbers, the code ends, having
printed the numbers from `a` to the greater of the two, each once and in order.  If `b` is the
greatest of all numbers it does not end; and if only `a` is, it goes on from the least of all
numbers to `b`. -/
theorem counting_loop_counts (hparse : parse tokens = .ok p) (hp : p.countsFromTo a b)
    (name sourceName target : String) :
    ∃ m main, (generate name sourceName target p).1 = .ok m ∧ m.function? "main" = some main ∧
      (max a.toInt b.toInt < 2147483647 →
        main.Returns m (.word 0) (linesOf (integers a.toInt (max a.toInt b.toInt)))) ∧
      (b.toInt = 2147483647 → ∀ d out, ¬ main.Returns m d out) ∧
      (a.toInt = 2147483647 → b.toInt < 2147483647 →
        main.Returns m (.word 0) (linesOf (a.toInt :: integers (-2147483648) b.toInt))) := by
  obtain ⟨hplain, harms, -⟩ := exec_of_countsFromTo hp
  obtain ⟨m, main, hgenerate, hmain, hmirrors⟩ :=
    mirrors_of_parse hparse hplain harms name sourceName target
  refine ⟨m, main, hgenerate, hmain, ?_, ?_, ?_⟩
  · intro hmax
    exact (hmirrors.returns_iff _ _).2 ⟨rfl, terminates_of_countsFromTo hp hmax⟩
  · intro hgreatest d out hreturns
    exact not_terminates_of_countsFromTo hp hgreatest ((hmirrors.returns_iff d out).1 hreturns).2
  · intro hgreatest hless
    exact (hmirrors.returns_iff _ _).2 ⟨rfl, terminates_of_wraps hp hgreatest hless⟩

end

/-- A loop that counts past zero, with bounds that are to be calculated. -/
def countPastZero : String :=
  "FOR i = 2 - 3 TO -(7 / 2) + 4\nOUTPUT i\nNEXT i\n"

theorem countPastZero_counts : ∃ p, parse (scan countPastZero).tokens = .ok p ∧
    p.countsFromTo (-1) 1 ∧
    ∃ m main, (generate "count" "count.pc" "none" p).1 = .ok m ∧ m.function? "main" = some main ∧
      main.Returns m (.word 0) (linesOf [-1, 0, 1]) := by
  have hok : (parse (scan countPastZero).tokens).toOption.map (Program.countsFromTo (-1) 1) =
    some true := by
    decide +kernel
  obtain ⟨p, hp, hcounts⟩ := Option.map_eq_some_iff.mp hok
  have hparse := eq_ok_of_toOption hp
  obtain ⟨m, main, hgenerate, hmain, hreturns, -⟩ :=
    counting_loop_counts hparse hcounts "count" "count.pc" "none"
  exact ⟨p, hparse, hcounts, m, main, hgenerate, hmain, hreturns (by decide)⟩

/-- A loop that counts to the greatest of all numbers. -/
def countToGreatest : String :=
  "FOR i = 2147483647 TO 2147483647\nOUTPUT i\nNEXT i\n"

/-- **A loop that counts to the greatest of all numbers does not end.** -/
theorem not_countToGreatest_returns : ∃ p, parse (scan countToGreatest).tokens = .ok p ∧
    p.countsFromTo 2147483647 2147483647 ∧
    ∃ m main, (generate "count" "count.pc" "none" p).1 = .ok m ∧ m.function? "main" = some main ∧
      ∀ d out, ¬ main.Returns m d out := by
  have hok : (parse (scan countToGreatest).tokens).toOption.map
    (Program.countsFromTo 2147483647 2147483647) =
      some true := by decide +kernel
  obtain ⟨p, hp, hcounts⟩ := Option.map_eq_some_iff.mp hok
  have hparse := eq_ok_of_toOption hp
  obtain ⟨hplain, harms, -⟩ := exec_of_countsFromTo hcounts
  obtain ⟨m, main, hgenerate, hmain, hmirrors⟩ :=
    mirrors_of_parse hparse hplain harms "count" "count.pc" "none"
  refine ⟨p, hparse, hcounts, m, main, hgenerate, hmain, fun d out hreturns => ?_⟩
  exact not_terminates_of_countsFromTo hcounts (by decide)
    ((hmirrors.returns_iff d out).1 hreturns).2

end Pseudocode
