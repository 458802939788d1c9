import Pseudocode.Proofs.Grammar.Reasons

/-!
Expressions that are read.

Every function of the reader takes some tokens off the input, and what it gives for them has a
derivation by the rules of the grammar and fits the session.  Reading an expression binds nothing,
so the session is the same for all of its parts, and every node is built by a function whose nodes
fit.  The proof follows the grammar line by line.
-/

namespace Pseudocode.Grammar

open Analysis Phrase

variable {input : Input} {blames : Prop} {s : Session} {scope : Scope} {α : Type}

/-- What is read at the cursor is related to the tokens that are taken, and the session is left as
it is. -/
def Takes (blames : Prop) (s : Session) (D : List Kind → α → Prop) (c : Cursor input)
    {P : Cursor input → Prop} (m : Analysis (α × { d : Cursor input // P d })) : Prop :=
  Looks input blames s m fun r => ∃ ts, c.kinds = ts ++ r.2.val.kinds ∧ D ts r.1

/-- What is read at the cursor is derived by a rule from the tokens that are taken, and fits the
session. -/
def TakesExpr (blames : Prop) (s : Session) (scope : Scope) (D : List Kind → Bare.Expr → Prop)
    (c : Cursor input)
    {P : Cursor input → Prop} (m : Analysis (Expr × { d : Cursor input // P d })) : Prop :=
  Takes blames s (fun ts e => D ts e.bare ∧ e.Fits input blames s scope) c m

section

/-! Only an atom comes back to an expression, and then with fewer tokens left.  So the lines of the
grammar are taken one by one, up to `n` tokens, given what is known of expressions of fewer. -/

variable {n : Nat} (hs : blames → s.Sound input.all scope)
  (hexpr : ∀ d : Cursor input, d.left < n →
    TakesExpr blames s scope Expression d (expression scope d))

include hexpr

theorem moreArguments_takes (c : Cursor input) (hc : c.left < n) :
    Takes blames s (fun ts args => (∃ us, ts = us ++ [.mark .rightParen] ∧
      MoreArguments us (bareArguments args)) ∧
      ∀ arg ∈ args, arg.Fits input blames s scope) c (moreArguments scope c) := by
  unfold Takes
  rw [moreArguments]
  refine (hexpr c hc).bind ?_
  rintro ⟨arg, c₁, h₁⟩ ⟨ts, hts, harg, hfits⟩
  cases hskip : c₁.skip? (.mark .comma) with
  | some found =>
    obtain ⟨c₂, h₂⟩ := found
    simp only [hskip]
    refine (moreArguments_takes c₂ (by omega)).bind ?_
    rintro ⟨args, c₃, h₃⟩ ⟨_, hus, ⟨us, rfl, hargs⟩, hall⟩
    refine .pure ⟨(ts ++ .mark .comma :: us) ++ [.mark .rightParen], ?_, ⟨_, rfl, .more harg hargs⟩,
      List.forall_mem_cons.2 ⟨hfits, hall⟩⟩
    simp [hts, Cursor.kinds_of_skip? hskip, hus]
  | none =>
    simp only [hskip]
    refine Looks.expect.bind ?_
    rintro ⟨c₂, h₂⟩ hclose
    refine .pure ⟨ts ++ [.mark .rightParen], ?_, ⟨_, rfl, .one harg⟩, by simpa using hfits⟩
    simp [hts, hclose]
termination_by c.left

theorem arguments_takes (c : Cursor input) (hc : c.left < n) :
    Takes blames s (fun ts args => (∃ us, ts = us ++ [.mark .rightParen] ∧
      Arguments us (bareArguments args)) ∧
      ∀ arg ∈ args, arg.Fits input blames s scope) c (arguments scope c) := by
  unfold Takes
  rw [arguments]
  cases hskip : c.skip? (.mark .rightParen) with
  | some c₁ =>
    exact .pure ⟨[.mark .rightParen], Cursor.kinds_of_skip? hskip, ⟨[], rfl, .none⟩, by simp⟩
  | none =>
    refine (moreArguments_takes hexpr c hc).mono ?_
    rintro r ⟨ts, hts, ⟨us, rfl, hargs⟩, hall⟩
    exact ⟨_, hts, ⟨us, rfl, .some hargs⟩, hall⟩

include hs

theorem atom_takes (c : Cursor input) (hc : c.left ≤ n) :
    TakesExpr blames s scope Atom c (atom scope c) := by
  have hline : ∃ t ∈ input.all, t.line = c.peek.line := ⟨_, Input.peek_mem c, rfl⟩
  unfold TakesExpr Takes
  rw [atom]
  cases hconstant : c.step? constant? with
  | some found =>
    obtain ⟨constant, c₁⟩ := found
    obtain ⟨hkinds, htest⟩ := Cursor.kinds_of_step? hconstant
    exact (looks_constant (Input.peek_mem c) htest).bind fun e he => .pure ⟨_, hkinds, he⟩
  | none =>
    cases hparen : c.skip? (.mark .leftParen) with
    | some found =>
      obtain ⟨c₁, h₁⟩ := found
      refine (hexpr c₁ (by omega)).bind ?_
      rintro ⟨e, c₂, h₂⟩ ⟨ts, hts, he, hfits⟩
      refine Looks.expect.bind ?_
      rintro ⟨c₃, h₃⟩ hclose
      refine .pure ⟨_, ?_, .parens he, hfits⟩
      simp [Cursor.kinds_of_skip? hparen, hts, hclose]
    | none =>
      refine Looks.expectName.bind ?_
      rintro ⟨name, c₁, h₁⟩ ⟨hkinds, hname⟩
      cases hcall : c₁.skip? (.mark .leftParen) with
      | some found =>
        obtain ⟨c₂, h₂⟩ := found
        simp only [hcall]
        refine (arguments_takes hexpr c₂ (by omega)).bind ?_
        rintro ⟨args, c₃, h₃⟩ ⟨_, hts, ⟨us, rfl, hargs⟩, hall⟩
        refine Looks.env.bind ?_
        rintro _ rfl
        refine (looks_call hs hall hline).bind ?_
        rintro e ⟨he, hfits⟩
        have hatom : Atom (.name name :: .mark .leftParen :: (us ++ [.mark .rightParen])) e.bare :=
          he ▸ .call name hargs
        refine .pure ⟨_, ?_, hatom, hfits⟩
        simp [hkinds, Cursor.kinds_of_skip? hcall, hts]
      | none =>
        simp only [hcall]
        cases hindex : c₁.skip? (.mark .leftBracket) with
        | some found =>
          obtain ⟨c₂, h₂⟩ := found
          refine (hexpr c₂ (by omega)).bind ?_
          rintro ⟨index, c₃, h₃⟩ ⟨ts, hts, hi, hfits⟩
          refine Looks.expect.bind ?_
          rintro ⟨c₄, h₄⟩ hclose
          refine Looks.env.bind ?_
          rintro _ rfl
          refine (looks_readElement hs hname hfits hline).bind ?_
          rintro e ⟨he, hfits⟩
          have hatom :
            Atom (.name name :: .mark .leftBracket :: (ts ++ [.mark .rightBracket])) e.bare :=
            he ▸ .element name hi
          refine .pure ⟨_, ?_, hatom, hfits⟩
          simp [hkinds, Cursor.kinds_of_skip? hindex, hts, hclose]
        | none =>
          refine Looks.env.bind ?_
          rintro _ rfl
          exact .pure ⟨[.name name], hkinds, .var name, fits_readVar hs hname⟩

theorem signed_takes (c : Cursor input) (hc : c.left ≤ n) :
    TakesExpr blames s scope Signed c (signed scope c) := by
  unfold TakesExpr Takes
  rw [signed]
  cases hskip : c.skip? (.mark .minus) with
  | none =>
    refine (atom_takes hs hexpr c hc).mono ?_
    rintro r ⟨ts, hts, he, hfits⟩
    exact ⟨ts, hts, .atom he, hfits⟩
  | some found =>
    obtain ⟨c₁, h₁⟩ := found
    refine (signed_takes c₁ (by omega)).bind ?_
    rintro ⟨operand, c₂, h₂⟩ ⟨ts, hts, hoperand, hfits⟩
    refine (looks_negated hs hfits ⟨_, Input.peek_mem c, rfl⟩).bind ?_
    rintro e ⟨he, hfits⟩
    refine .pure ⟨.mark .minus :: ts, ?_, he ▸ .minus hoperand, hfits⟩
    simp [Cursor.kinds_of_skip? hskip, hts]
termination_by c.left

theorem productRest_takes (lhs : Expr) (c : Cursor input) (hc : c.left ≤ n) {ts : List Kind}
    (hlhs : Product ts lhs.bare) (hfits : lhs.Fits input blames s scope) :
    TakesExpr blames s scope (fun us e => Product (ts ++ us) e) c (productRest scope lhs c) := by
  unfold TakesExpr Takes
  rw [productRest]
  cases hop : operator? multiplications c with
  | none => exact .pure ⟨[], rfl, by simpa using hlhs, hfits⟩
  | some found =>
    obtain ⟨⟨op, line⟩, c₁, h₁⟩ := found
    obtain ⟨m, hm, hkinds⟩ := kinds_of_operator? hop
    refine (signed_takes hs hexpr c₁ (by omega)).bind ?_
    rintro ⟨rhs, c₂, h₂⟩ ⟨us, hus, hrhs, hright⟩
    refine (looks_combine hs hfits hright (line_of_operator? hop)).bind ?_
    rintro e ⟨he, hfits⟩
    have hboth : Product (ts ++ .mark m :: us) e.bare :=
      he ▸ .step hlhs (lookup_multiplications.1 hm) hrhs
    refine (productRest_takes e c₂ (by omega) hboth hfits).bind ?_
    rintro ⟨e, c₃, h₃⟩ ⟨vs, hvs, hall, hfits⟩
    refine .pure ⟨.mark m :: us ++ vs, ?_, by simpa using hall, hfits⟩
    simp [hkinds, hus, hvs]
termination_by c.left

theorem product_takes (c : Cursor input) (hc : c.left ≤ n) :
    TakesExpr blames s scope Product c (product scope c) := by
  unfold TakesExpr Takes
  rw [product]
  refine (signed_takes hs hexpr c hc).bind ?_
  rintro ⟨lhs, c₁, h₁⟩ ⟨ts, hts, hlhs, hfits⟩
  refine (productRest_takes hs hexpr lhs c₁ (by omega) (.signed hlhs) hfits).bind ?_
  rintro ⟨e, c₂, h₂⟩ ⟨us, hus, hall⟩
  exact .pure ⟨ts ++ us, by simp [hts, hus], hall⟩

theorem sumRest_takes (lhs : Expr) (c : Cursor input) (hc : c.left ≤ n) {ts : List Kind}
    (hlhs : Sum ts lhs.bare) (hfits : lhs.Fits input blames s scope) :
    TakesExpr blames s scope (fun us e => Sum (ts ++ us) e) c (sumRest scope lhs c) := by
  unfold TakesExpr Takes
  rw [sumRest]
  cases hop : operator? additions c with
  | none => exact .pure ⟨[], rfl, by simpa using hlhs, hfits⟩
  | some found =>
    obtain ⟨⟨op, line⟩, c₁, h₁⟩ := found
    obtain ⟨m, hm, hkinds⟩ := kinds_of_operator? hop
    refine (product_takes hs hexpr c₁ (by omega)).bind ?_
    rintro ⟨rhs, c₂, h₂⟩ ⟨us, hus, hrhs, hright⟩
    refine (looks_combine hs hfits hright (line_of_operator? hop)).bind ?_
    rintro e ⟨he, hfits⟩
    have hboth : Sum (ts ++ .mark m :: us) e.bare := he ▸ .step hlhs (lookup_additions.1 hm) hrhs
    refine (sumRest_takes e c₂ (by omega) hboth hfits).bind ?_
    rintro ⟨e, c₃, h₃⟩ ⟨vs, hvs, hall, hfits⟩
    refine .pure ⟨.mark m :: us ++ vs, ?_, by simpa using hall, hfits⟩
    simp [hkinds, hus, hvs]
termination_by c.left

theorem sum_takes (c : Cursor input) (hc : c.left ≤ n) :
    TakesExpr blames s scope Sum c (sum scope c) := by
  unfold TakesExpr Takes
  rw [sum]
  refine (product_takes hs hexpr c hc).bind ?_
  rintro ⟨lhs, c₁, h₁⟩ ⟨ts, hts, hlhs, hfits⟩
  refine (sumRest_takes hs hexpr lhs c₁ (by omega) (.product hlhs) hfits).bind ?_
  rintro ⟨e, c₂, h₂⟩ ⟨us, hus, hall⟩
  exact .pure ⟨ts ++ us, by simp [hts, hus], hall⟩

theorem comparison_takes (c : Cursor input) (hc : c.left ≤ n) :
    TakesExpr blames s scope Expression c (expression scope c) := by
  unfold TakesExpr Takes
  rw [expression]
  refine (sum_takes hs hexpr c hc).bind ?_
  rintro ⟨lhs, c₁, h₁⟩ ⟨ts, hts, hlhs, hfits⟩
  cases hop : operator? comparisons c₁ with
  | none =>
    simp only [hop]
    exact .pure ⟨ts, hts, .sum hlhs, hfits⟩
  | some found =>
    obtain ⟨⟨op, line⟩, c₂, h₂⟩ := found
    obtain ⟨m, hm, hkinds⟩ := kinds_of_operator? hop
    simp only [hop]
    refine (sum_takes hs hexpr c₂ (by omega)).bind ?_
    rintro ⟨rhs, c₃, h₃⟩ ⟨us, hus, hrhs, hright⟩
    refine (looks_combine hs hfits hright (line_of_operator? hop)).bind ?_
    rintro e ⟨he, hfits⟩
    refine .pure
      ⟨ts ++ .mark m :: us, ?_, he ▸ .comparison hlhs (lookup_comparisons.1 hm) hrhs, hfits⟩
    simp [hts, hkinds, hus]

end

/-- **An expression that is read is derived from its tokens and fits the session**, or is rejected
for a reason. -/
theorem expression_takes (hs : blames → s.Sound input.all scope) (c : Cursor input) :
    TakesExpr blames s scope Expression c (expression scope c) :=
  comparison_takes hs (fun d _ => expression_takes hs d) c (Nat.le_refl _)
termination_by c.left

end Pseudocode.Grammar
