import Pseudocode.Proofs.Layout.Matching

/-!
Tokens are read in the same way in two inputs.

Every function of the reader is in step with itself at cursors that go together, in a scope whose
names are bound in the same way for both.  The proof goes through the functions in their order: they
come back to expressions and to statements with fewer tokens left, so what is known of shorter
inputs is a hypothesis of each lemma until the recursion is closed.

The declaration of a subroutine looks only into the scope of that subroutine.  So it is read in step
also where the names of the top level are bound in another way (`subroutineStatement_inStep`).
-/

namespace Pseudocode.Grammar

open Analysis

variable {input input' : Input} {k : Pairing input input'} {scope : Scope}

/-! ### Expressions -/

theorem operator?_beside {c : Cursor input} {d : Cursor input'} (h : k.Beside c d)
    (table : List (Mark × BinaryOp)) :
    (operator? table c = none ∧ operator? table d = none) ∨
    ∃ op line line' c₁ d₁, k.Lines line line' ∧
      operator? table c = some ((op, line), c₁) ∧ operator? table d = some ((op, line'), d₁) ∧
        k.Beside c₁.val d₁.val := by
  unfold operator?
  rcases h.cases with ⟨kind, c₁, d₁, -, hc, hd, hnext, hcstep, hdstep⟩ | ⟨hc, hd⟩
  · rw [hcstep, hdstep, Cursor.kind_of_kinds hc, Cursor.kind_of_kinds hd]
    cases kind with
    | mark m =>
      cases hm : table.lookup m with
      | none => exact .inl ⟨by simp [hm], by simp [hm]⟩
      | some op => exact .inr ⟨op, _, _, c₁, d₁, k.lines h, by simp [hm], by simp [hm], hnext⟩
    | _ => exact .inl ⟨rfl, rfl⟩
  · rw [hc.step? (by intro t ht; rw [ht]), hd.step? (by intro t ht; rw [ht])]
    exact .inl ⟨rfl, rfl⟩

theorem constant?_beside {c : Cursor input} {d : Cursor input'} (h : k.Beside c d) :
    (c.step? constant? = none ∧ d.step? constant? = none) ∨ ∃ m n c₁ d₁,
      c.step? constant? = some (m, c₁) ∧ d.step? constant? = some (n, d₁) ∧ InStep k (· = ·) m n ∧
        k.Beside c₁.val d₁.val := by
  rcases h.cases with ⟨kind, c₁, d₁, -, hc, hd, hnext, hcstep, hdstep⟩ | ⟨hc, hd⟩
  · rw [hcstep, hdstep]
    unfold constant?
    rw [Cursor.kind_of_kinds hc, Cursor.kind_of_kinds hd]
    cases kind with
    | int value =>
      refine .inr ?_
      dsimp only
      cases word? value with
      | none =>
        exact ⟨_, _, c₁, d₁, rfl, rfl,
          .throw (k.blames_token (F := fun t => .wideLiteral t.lexeme) (fun _ _ => rfl) h), hnext⟩
      | some word => exact ⟨_, _, c₁, d₁, rfl, rfl, .pure rfl, hnext⟩
    | double value => exact .inr ⟨_, _, c₁, d₁, rfl, rfl, .pure rfl, hnext⟩
    | string text => exact .inr ⟨_, _, c₁, d₁, rfl, rfl, .pure rfl, hnext⟩
    | _ => exact .inl ⟨rfl, rfl⟩
  · have hother : ∀ t : Token, t.kind = .newline → constant? t = none := by
      intro t ht
      unfold constant?
      rw [ht]
    exact .inl ⟨hc.step? hother, hd.step? hother⟩

section

variable {n : Nat} (hscope : k.Shares scope)
  (hexpr : ∀ (c : Cursor input) (d : Cursor input'), c.left < n →
  k.Beside c d → InStep k k.Alongside (expression scope c) (expression scope d))

include hexpr

theorem moreArguments_inStep (c : Cursor input) (d : Cursor input') (hc : c.left < n)
    (h : k.Beside c d) : InStep k k.Alongside (moreArguments scope c) (moreArguments scope d) := by
  rw [moreArguments, moreArguments]
  refine (hexpr c d hc h).bind ?_
  rintro ⟨arg, c₁, h₁⟩ ⟨_, d₁, h₁'⟩ ⟨rfl, harg⟩
  dsimp only at harg ⊢
  rcases harg.skip? (.mark .comma) (by decide) with
    ⟨hcs, hds⟩ | ⟨⟨c₂, h₂⟩, ⟨d₂, h₂'⟩, hcs, hds, hnext⟩
  · rw [hcs, hds]
    refine (inStep_expect harg (by decide) _).bind ?_
    rintro ⟨c₂, h₂⟩ ⟨d₂, h₂'⟩ hclose
    exact .pure ⟨rfl, hclose⟩
  · rw [hcs, hds]
    refine (moreArguments_inStep c₂ d₂ (by omega) hnext).bind ?_
    rintro ⟨args, c₃, h₃⟩ ⟨_, d₃, h₃'⟩ ⟨rfl, hrest⟩
    exact .pure ⟨rfl, hrest⟩
termination_by c.left

theorem arguments_inStep (c : Cursor input) (d : Cursor input') (hc : c.left < n)
    (h : k.Beside c d) : InStep k k.Alongside (arguments scope c) (arguments scope d) := by
  rw [arguments, arguments]
  rcases h.skip? (.mark .rightParen) (by decide) with ⟨hcs, hds⟩ | ⟨c₁, d₁, hcs, hds, hnext⟩
  · rw [hcs, hds]
    exact moreArguments_inStep hexpr c d hc h
  · rw [hcs, hds]
    exact .pure ⟨rfl, hnext⟩

include hscope

theorem atom_inStep (c : Cursor input) (d : Cursor input') (hc : c.left ≤ n) (h : k.Beside c d) :
    InStep k k.Alongside (atom scope c) (atom scope d) := by
  rw [atom, atom]
  rcases constant?_beside h with ⟨hcs, hds⟩ | ⟨m, n, c₁, d₁, hcs, hds, hconstant, hnext⟩
  case inr =>
    rw [hcs, hds]
    refine hconstant.bind ?_
    rintro e _ rfl
    exact .pure ⟨rfl, hnext⟩
  rw [hcs, hds]
  rcases h.skip? (.mark .leftParen) (by decide) with
    ⟨hcp, hdp⟩ | ⟨⟨c₁, h₁⟩, ⟨d₁, h₁'⟩, hcp, hdp, hnext⟩
  case inr =>
    rw [hcp, hdp]
    refine (hexpr c₁ d₁ (by omega) hnext).bind ?_
    rintro ⟨e, c₂, h₂⟩ ⟨_, d₂, h₂'⟩ ⟨rfl, he⟩
    refine (inStep_expect he (by decide) _).bind ?_
    rintro ⟨c₃, h₃⟩ ⟨d₃, h₃'⟩ hclose
    exact .pure ⟨rfl, hclose⟩
  rw [hcp, hdp]
  refine (inStep_expectName h _).bind ?_
  rintro ⟨name, c₁, h₁⟩ ⟨_, d₁, h₁'⟩ ⟨rfl, hname⟩
  dsimp only at hname ⊢
  rcases hname.skip? (.mark .leftParen) (by decide) with
    ⟨hcc, hdc⟩ | ⟨⟨c₂, h₂⟩, ⟨d₂, h₂'⟩, hcc, hdc, hnext⟩
  case inr =>
    rw [hcc, hdc]
    refine (arguments_inStep hexpr c₂ d₂ (by omega) hnext).bind ?_
    rintro ⟨args, c₃, h₃⟩ ⟨_, d₃, h₃'⟩ ⟨rfl, hrest⟩
    refine inStep_env.bind fun env env' henv => ?_
    rw [henv.call]
    refine (inStep_check (env.blamesLine_call name args) (k.lines h)).bind ?_
    rintro e _ rfl
    exact .pure ⟨rfl, hrest⟩
  rw [hcc, hdc]
  rcases hname.skip? (.mark .leftBracket) (by decide) with
    ⟨hci, hdi⟩ | ⟨⟨c₂, h₂⟩, ⟨d₂, h₂'⟩, hci, hdi, hnext⟩
  case inr =>
    rw [hci, hdi]
    refine (hexpr c₂ d₂ (by omega) hnext).bind ?_
    rintro ⟨index, c₃, h₃⟩ ⟨_, d₃, h₃'⟩ ⟨rfl, hindex⟩
    refine (inStep_expect hindex (by decide) _).bind ?_
    rintro ⟨c₄, h₄⟩ ⟨d₄, h₄'⟩ hclose
    refine inStep_env.bind fun env env' henv => ?_
    rw [henv.readElement hscope]
    refine (inStep_check (env.blamesLine_readElement _ index) (k.lines h)).bind ?_
    rintro e _ rfl
    exact .pure ⟨rfl, hclose⟩
  rw [hci, hdi]
  refine inStep_env.bind fun env env' henv => ?_
  rw [henv.readVar hscope]
  exact .pure ⟨rfl, hname⟩

theorem signed_inStep (c : Cursor input) (d : Cursor input') (hc : c.left ≤ n) (h : k.Beside c d) :
    InStep k k.Alongside (signed scope c) (signed scope d) := by
  rw [signed, signed]
  rcases h.skip? (.mark .minus) (by decide) with ⟨hcs, hds⟩ | ⟨⟨c₁, h₁⟩, ⟨d₁, h₁'⟩, hcs, hds, hnext⟩
  · rw [hcs, hds]
    exact atom_inStep hscope hexpr c d hc h
  · rw [hcs, hds]
    refine (signed_inStep c₁ d₁ (by omega) hnext).bind ?_
    rintro ⟨operand, c₂, h₂⟩ ⟨_, d₂, h₂'⟩ ⟨rfl, hoperand⟩
    refine (inStep_check operand.blamesLine_negated (k.lines h)).bind ?_
    rintro e _ rfl
    exact .pure ⟨rfl, hoperand⟩
termination_by c.left

theorem productRest_inStep (lhs : Expr) (c : Cursor input) (d : Cursor input') (hc : c.left ≤ n)
    (h : k.Beside c d) :
    InStep k k.Alongside (productRest scope lhs c) (productRest scope lhs d) := by
  rw [productRest, productRest]
  rcases operator?_beside h multiplications with ⟨hco, hdo⟩ | ⟨op, line, line', ⟨c₁, h₁⟩, ⟨d₁, h₁'⟩,
    hline, hco, hdo, hnext⟩
  · rw [hco, hdo]
    exact .pure ⟨rfl, h⟩
  · rw [hco, hdo]
    refine (signed_inStep hscope hexpr c₁ d₁ (by omega) hnext).bind ?_
    rintro ⟨rhs, c₂, h₂⟩ ⟨_, d₂, h₂'⟩ ⟨rfl, hrhs⟩
    refine (inStep_check (lhs.blamesLine_combine rhs op) hline).bind ?_
    rintro e _ rfl
    refine (productRest_inStep e c₂ d₂ (by omega) hrhs).bind ?_
    rintro ⟨all, c₃, h₃⟩ ⟨_, d₃, h₃'⟩ ⟨rfl, hrest⟩
    exact .pure ⟨rfl, hrest⟩
termination_by c.left

theorem product_inStep (c : Cursor input) (d : Cursor input') (hc : c.left ≤ n) (h : k.Beside c d) :
    InStep k k.Alongside (product scope c) (product scope d) := by
  rw [product, product]
  refine (signed_inStep hscope hexpr c d hc h).bind ?_
  rintro ⟨lhs, c₁, h₁⟩ ⟨_, d₁, h₁'⟩ ⟨rfl, hlhs⟩
  refine (productRest_inStep hscope hexpr lhs c₁ d₁ (by omega) hlhs).bind ?_
  rintro ⟨e, c₂, h₂⟩ ⟨_, d₂, h₂'⟩ ⟨rfl, hrest⟩
  exact .pure ⟨rfl, hrest⟩

theorem sumRest_inStep (lhs : Expr) (c : Cursor input) (d : Cursor input') (hc : c.left ≤ n)
    (h : k.Beside c d) : InStep k k.Alongside (sumRest scope lhs c) (sumRest scope lhs d) := by
  rw [sumRest, sumRest]
  rcases operator?_beside h additions with ⟨hco, hdo⟩ | ⟨op, line, line', ⟨c₁, h₁⟩, ⟨d₁, h₁'⟩,
    hline, hco, hdo, hnext⟩
  · rw [hco, hdo]
    exact .pure ⟨rfl, h⟩
  · rw [hco, hdo]
    refine (product_inStep hscope hexpr c₁ d₁ (by omega) hnext).bind ?_
    rintro ⟨rhs, c₂, h₂⟩ ⟨_, d₂, h₂'⟩ ⟨rfl, hrhs⟩
    refine (inStep_check (lhs.blamesLine_combine rhs op) hline).bind ?_
    rintro e _ rfl
    refine (sumRest_inStep e c₂ d₂ (by omega) hrhs).bind ?_
    rintro ⟨all, c₃, h₃⟩ ⟨_, d₃, h₃'⟩ ⟨rfl, hrest⟩
    exact .pure ⟨rfl, hrest⟩
termination_by c.left

theorem sum_inStep (c : Cursor input) (d : Cursor input') (hc : c.left ≤ n) (h : k.Beside c d) :
    InStep k k.Alongside (sum scope c) (sum scope d) := by
  rw [sum, sum]
  refine (product_inStep hscope hexpr c d hc h).bind ?_
  rintro ⟨lhs, c₁, h₁⟩ ⟨_, d₁, h₁'⟩ ⟨rfl, hlhs⟩
  refine (sumRest_inStep hscope hexpr lhs c₁ d₁ (by omega) hlhs).bind ?_
  rintro ⟨e, c₂, h₂⟩ ⟨_, d₂, h₂'⟩ ⟨rfl, hrest⟩
  exact .pure ⟨rfl, hrest⟩

theorem comparison_inStep (c : Cursor input) (d : Cursor input') (hc : c.left ≤ n)
    (h : k.Beside c d) : InStep k k.Alongside (expression scope c) (expression scope d) := by
  rw [expression, expression]
  refine (sum_inStep hscope hexpr c d hc h).bind ?_
  rintro ⟨lhs, c₁, h₁⟩ ⟨_, d₁, h₁'⟩ ⟨rfl, hlhs⟩
  dsimp only at hlhs ⊢
  rcases operator?_beside hlhs comparisons with ⟨hco, hdo⟩ | ⟨op, line, line', ⟨c₂, h₂⟩, ⟨d₂, h₂'⟩,
    hline, hco, hdo, hnext⟩
  · rw [hco, hdo]
    exact .pure ⟨rfl, hlhs⟩
  · rw [hco, hdo]
    refine (sum_inStep hscope hexpr c₂ d₂ (by omega) hnext).bind ?_
    rintro ⟨rhs, c₃, h₃⟩ ⟨_, d₃, h₃'⟩ ⟨rfl, hrest⟩
    refine (inStep_check (lhs.blamesLine_combine rhs op) hline).bind ?_
    rintro e _ rfl
    exact .pure ⟨rfl, hrest⟩

end

/-- **Expressions are read in the same way.** -/
theorem expression_inStep (hscope : k.Shares scope) (c : Cursor input) (d : Cursor input')
    (h : k.Beside c d) : InStep k k.Alongside (expression scope c) (expression scope d) :=
  comparison_inStep hscope (fun c₁ d₁ _ h₁ => expression_inStep hscope c₁ d₁ h₁) c d
    (Nat.le_refl _) h
termination_by c.left

/-! ### Statements without a body -/

section

variable (hscope : k.Shares scope) {c : Cursor input} {d : Cursor input'} (h : k.Beside c d)

include hscope h

theorem condition_inStep : InStep k k.Alongside (condition scope c) (condition scope d) := by
  refine (expression_inStep hscope c d h).bind ?_
  rintro ⟨e, c₁⟩ ⟨_, d₁⟩ ⟨rfl, he⟩
  exact (inStep_check (e.blamesLine_requireNumeric _) (k.lines h)).bind fun _ _ _ => .pure ⟨rfl, he⟩

theorem index_inStep {line line' : Nat} (hline : k.Lines line line') :
    InStep k k.Alongside (index scope line c) (index scope line' d) := by
  refine (expression_inStep hscope c d h).bind ?_
  rintro ⟨e, c₁, h₁⟩ ⟨_, d₁, h₁'⟩ ⟨rfl, he⟩
  refine (inStep_check (e.blamesLine_requireNumeric _) hline).bind fun _ _ _ => ?_
  refine (inStep_expect he (by decide) _).bind ?_
  rintro ⟨c₂, h₂⟩ ⟨d₂, h₂'⟩ hclose
  exact .pure ⟨rfl, hclose⟩

theorem assignment_inStep : InStep k k.Alongside (assignment scope c) (assignment scope d) := by
  refine (inStep_expectName h _).bind ?_
  rintro ⟨name, c₁, h₁⟩ ⟨_, d₁, h₁'⟩ ⟨rfl, hname⟩
  dsimp only at hname ⊢
  rcases hname.skip? (.mark .leftBracket) (by decide) with
    ⟨hcs, hds⟩ | ⟨⟨c₂, h₂⟩, ⟨d₂, h₂'⟩, hcs, hds, hnext⟩
  · rw [hcs, hds]
    refine (inStep_expect hname (by decide) _).bind ?_
    rintro ⟨c₂, h₂⟩ ⟨d₂, h₂'⟩ hassign
    refine (expression_inStep hscope c₂ d₂ hassign).bind ?_
    rintro ⟨value, c₃, h₃⟩ ⟨_, d₃, h₃'⟩ ⟨rfl, hvalue⟩
    refine (inStep_check value.blamesLine_requireResolved (k.lines h)).bind fun _ _ _ => ?_
    exact (inStep_bindSymbol _ _).bind fun _ _ _ => .pure ⟨rfl, hvalue⟩
  · rw [hcs, hds]
    refine (inStep_requireBound hscope (k.lines h)).bind
      fun _ _ _ => (index_inStep hscope hnext (k.lines h)).bind ?_
    rintro ⟨i, c₃, h₃⟩ ⟨_, d₃, h₃'⟩ ⟨rfl, hindex⟩
    refine (inStep_expect hindex (by decide) _).bind ?_
    rintro ⟨c₄, h₄⟩ ⟨d₄, h₄'⟩ hassign
    refine (expression_inStep hscope c₄ d₄ hassign).bind ?_
    rintro ⟨value, c₅, h₅⟩ ⟨_, d₅, h₅'⟩ ⟨rfl, hvalue⟩
    refine (inStep_check value.blamesLine_requireResolved (k.lines h)).bind fun _ _ _ => ?_
    refine inStep_env.bind fun env env' henv => ?_
    rw [henv.shape _ hscope]
    exact .guard Iff.rfl (h.mismatch _) fun _ => .pure ⟨rfl, hvalue⟩

theorem arrayDeclaration_inStep :
    InStep k k.Alongside (arrayDeclaration scope c) (arrayDeclaration scope d) := by
  refine (inStep_expectType h).bind ?_
  rintro ⟨ty, c₁, h₁⟩ ⟨_, d₁, h₁'⟩ ⟨rfl, hty⟩
  refine (inStep_expectName hty _).bind ?_
  rintro ⟨name, c₂, h₂⟩ ⟨_, d₂, h₂'⟩ ⟨rfl, hname⟩
  refine (inStep_expect hname (by decide) _).bind ?_
  rintro ⟨c₃, h₃⟩ ⟨d₃, h₃'⟩ hopen
  refine (expression_inStep hscope c₃ d₃ hopen).bind ?_
  rintro ⟨size, c₄, h₄⟩ ⟨_, d₄, h₄'⟩ ⟨rfl, hsize⟩
  refine (inStep_check (size.blamesLine_requireNumeric _) (k.lines hopen)).bind fun _ _ _ => ?_
  refine (inStep_expect hsize (by decide) _).bind ?_
  rintro ⟨c₅, h₅⟩ ⟨d₅, h₅'⟩ hclose
  exact (inStep_bindSymbol _ _).bind fun _ _ _ => .pure ⟨rfl, hclose⟩

theorem returnStatement_inStep :
    InStep k k.Alongside (returnStatement scope c) (returnStatement scope d) := by
  refine (inStep_expect h (by decide) _).bind ?_
  rintro ⟨c₁, h₁⟩ ⟨d₁, h₁'⟩ hword
  refine .guard Iff.rfl (h.fault _ fun _ => rfl) fun _ => ?_
  refine (expression_inStep hscope c₁ d₁ hword).bind ?_
  rintro ⟨e, c₂, h₂⟩ ⟨_, d₂, h₂'⟩ ⟨rfl, he⟩
  exact (inStep_check e.blamesLine_requireResolved (k.lines h)).bind fun _ _ _ => .pure ⟨rfl, he⟩

theorem outputStatement_inStep :
    InStep k k.Alongside (outputStatement scope c) (outputStatement scope d) := by
  refine (inStep_expect h (by decide) _).bind ?_
  rintro ⟨c₁, h₁⟩ ⟨d₁, h₁'⟩ hword
  refine (expression_inStep hscope c₁ d₁ hword).bind ?_
  rintro ⟨e, c₂, h₂⟩ ⟨_, d₂, h₂'⟩ ⟨rfl, he⟩
  exact (inStep_check e.blamesLine_requireResolved (k.lines h)).bind fun _ _ _ => .pure ⟨rfl, he⟩

theorem inputStatement_inStep :
    InStep k k.Alongside (inputStatement scope c) (inputStatement scope d) := by
  refine (inStep_expect h (by decide) _).bind ?_
  rintro ⟨c₁, h₁⟩ ⟨d₁, h₁'⟩ hword
  refine (inStep_expectName hword _).bind ?_
  rintro ⟨name, c₂, h₂⟩ ⟨_, d₂, h₂'⟩ ⟨rfl, hname⟩
  refine (inStep_requireBound hscope (k.lines hword)).bind fun _ _ _ => inStep_env.bind
    fun env env' henv => ?_
  rw [henv.shape _ hscope]
  dsimp only at hname ⊢
  rcases hname.skip? (.mark .leftBracket) (by decide) with
    ⟨hcs, hds⟩ | ⟨⟨c₃, h₃⟩, ⟨d₃, h₃'⟩, hcs, hds, hnext⟩
  · rw [hcs, hds]
    exact .pure ⟨rfl, hname⟩
  · rw [hcs, hds]
    refine (index_inStep hscope hnext (k.lines hword)).bind ?_
    rintro ⟨i, c₄, h₄⟩ ⟨_, d₄, h₄'⟩ ⟨rfl, hindex⟩
    exact .pure ⟨rfl, hindex⟩

theorem expressionStatement_inStep :
    InStep k k.Alongside (expressionStatement scope c) (expressionStatement scope d) := by
  refine (expression_inStep hscope c d h).bind ?_
  rintro ⟨e, c₁⟩ ⟨_, d₁⟩ ⟨rfl, he⟩
  exact (inStep_check e.blamesLine_requireResolved (k.lines h)).bind fun _ _ _ => .pure ⟨rfl, he⟩

end

/-! ### The heads of subroutines and loops -/

theorem moreParams_inStep (seen : List Param) (c : Cursor input) (d : Cursor input')
    (h : k.Beside c d) : InStep k k.Alongside (moreParams seen c) (moreParams seen d) := by
  rw [moreParams, moreParams]
  refine (inStep_expectType h).bind ?_
  rintro ⟨ty, c₁, h₁⟩ ⟨_, d₁, h₁'⟩ ⟨rfl, hty⟩
  refine (inStep_expectName (c := c₁) (d := d₁) hty _).bind ?_
  rintro ⟨name, c₂, h₂⟩ ⟨_, d₂, h₂'⟩ ⟨rfl, hname⟩
  refine .guard Iff.rfl (Pairing.Beside.fault hty _ fun _ => rfl) fun _ => ?_
  dsimp only at hname ⊢
  rcases hname.skip? (.mark .comma) (by decide) with
    ⟨hcs, hds⟩ | ⟨⟨c₃, h₃⟩, ⟨d₃, h₃'⟩, hcs, hds, hnext⟩
  · rw [hcs, hds]
    exact .pure ⟨rfl, hname⟩
  · rw [hcs, hds]
    refine (moreParams_inStep _ c₃ d₃ hnext).bind ?_
    rintro ⟨all, c₄, h₄⟩ ⟨_, d₄, h₄'⟩ ⟨rfl, hrest⟩
    exact .pure ⟨rfl, hrest⟩
termination_by c.left

theorem params_inStep {c : Cursor input} {d : Cursor input'} (h : k.Beside c d) :
    InStep k k.Alongside (params c) (params d) := by
  rw [params, params]
  have hpeek := h.peek (.mark .rightParen) (by decide) (by decide)
  by_cases hclose : c.peek.kind = .mark .rightParen
  · rw [if_pos hclose, if_pos (hpeek.1 hclose)]
    exact .pure ⟨rfl, h⟩
  · rw [if_neg hclose, if_neg fun hd => hclose (hpeek.2 hd)]
    refine (moreParams_inStep [] c d h).bind ?_
    rintro ⟨all, c₁, h₁⟩ ⟨_, d₁, h₁'⟩ ⟨rfl, hrest⟩
    exact .pure ⟨rfl, hrest⟩

/-- Two heads that are the same, with cursors behind a line break. -/
def Headed (k : Pairing input input') {α : Type} {P : Cursor input → Prop}
    {P' : Cursor input' → Prop}
    (r : α × { c : Cursor input // P c }) (r' : α × { d : Cursor input' // P' d }) : Prop :=
  r.1 = r'.1 ∧ k.Behind r.2.val r'.2.val

/-- The readings go on behind a line break, unless one of the inputs has ended before it. -/
def HeadInStep (k : Pairing input input') {α : Type} {P : Cursor input → Prop}
    {P' : Cursor input' → Prop}
    (m : Analysis (α × { c : Cursor input // P c }))
    (n : Analysis (α × { d : Cursor input' // P' d })) : Prop :=
  InStepUpTo k (Headed k) (fun r => r.2.val.Spent) (fun r => r.2.val.Spent) m n

theorem subroutineHead_inStep {c : Cursor input} {d : Cursor input'} (h : k.Beside c d) :
    HeadInStep k (subroutineHead scope c) (subroutineHead scope d) := by
  refine (inStep_expectType h).bind ?_
  rintro ⟨ty, c₁, h₁⟩ ⟨_, d₁, h₁'⟩ ⟨rfl, hty⟩
  refine (inStep_expect hty (by decide) _).bind ?_
  rintro ⟨c₂, h₂⟩ ⟨d₂, h₂'⟩ hword
  cases scope with
  | subroutine outer =>
    exact fun _ _ _ => .neither (Pairing.Beside.fault hty _ fun _ => rfl)
  | top =>
    refine (inStep_expectName hword _).bind ?_
    rintro ⟨name, c₃, h₃⟩ ⟨_, d₃, h₃'⟩ ⟨rfl, hname⟩
    refine (inStep_expect hname (by decide) _).bind ?_
    rintro ⟨c₄, h₄⟩ ⟨d₄, h₄'⟩ hopen
    refine (params_inStep hopen).bind ?_
    rintro ⟨all, c₅, h₅⟩ ⟨_, d₅, h₅'⟩ ⟨rfl, hparams⟩
    refine (inStep_expect hparams (by decide) _).bind ?_
    rintro ⟨c₆, h₆⟩ ⟨d₆, h₆'⟩ hclose
    refine (inStep_register name ty).bind fun _ _ _ => (inStep_bindParams name all).bind
      fun _ _ _ => ?_
    exact (inStep_expectBreak hclose _).give (fun _ _ hbreak => .pure ⟨rfl, hbreak⟩)
      (fun _ hspent => ⟨_, rfl, hspent⟩)
      fun _ hspent => ⟨_, rfl, hspent⟩

theorem forHead_inStep (hscope : k.Shares scope) {c : Cursor input} {d : Cursor input'}
    (h : k.Beside c d) : HeadInStep k (forHead scope c) (forHead scope d) := by
  refine (inStep_expect h (by decide) _).bind ?_
  rintro ⟨c₁, h₁⟩ ⟨d₁, h₁'⟩ hword
  refine .require (by rw [hword.atLoopVariable]) (hword.fault _ fun _ => rfl) ?_
  refine (assignment_inStep hscope hword).bind ?_
  rintro ⟨init, c₂, h₂⟩ ⟨_, d₂, h₂'⟩ ⟨rfl, hinit⟩
  refine .require Iff.rfl (hword.mismatch _) ?_
  refine (inStep_expect hinit (by decide) _).bind ?_
  rintro ⟨c₃, h₃⟩ ⟨d₃, h₃'⟩ hto
  refine (condition_inStep hscope hto).bind ?_
  rintro ⟨bound, c₄, h₄⟩ ⟨_, d₄, h₄'⟩ ⟨rfl, hbound⟩
  exact (inStep_expectBreak hbound _).give (fun _ _ hbreak => .pure ⟨rfl, hbreak⟩)
    (fun _ hspent => ⟨_, rfl, hspent⟩)
    fun _ hspent => ⟨_, rfl, hspent⟩

theorem forTail_inStep (counter : String) {c : Cursor input} {d : Cursor input'}
    (h : k.Beside c d) :
    InStep k (fun c₁ d₁ => k.Beside c₁.val d₁.val) (forTail counter c) (forTail counter d) := by
  refine (inStep_expect h (by decide) _).bind ?_
  rintro ⟨c₁, h₁⟩ ⟨d₁, h₁'⟩ hword
  refine (inStep_expectName hword _).bind ?_
  rintro ⟨named, c₂, h₂⟩ ⟨_, d₂, h₂'⟩ ⟨rfl, hname⟩
  exact .guard Iff.rfl (hword.fault _ fun _ => rfl) fun _ => .pure hname

/-! ### Statements with a body -/

/-- A body that has not even begun is not closed. -/
theorem block_rejects {c : Cursor input} (h : c.Spent) (closers : List Keyword) (closer : Keyword) :
    Rejects (block scope closers closer c) := by
  have hkinds := h.skipNewlines
  unfold Rejects
  rw [block]
  generalize c.skipNewlines = start at hkinds
  obtain ⟨c₁, h₁⟩ := start
  dsimp only at hkinds ⊢
  have hclose : ¬ (closers.any fun k => c₁.peek.kind == .keyword k) = true := by
    rw [Cursor.kind_peek, hkinds]
    simp [h.stop]
  rw [if_neg hclose, if_pos (Cursor.atEnd_iff.2 hkinds)]
  exact Rejects.bind (ends_reject trivial) _

section

variable {n : Nat} (hstatement : ∀ (scope : Scope), k.Shares scope →
  ∀ (c : Cursor input) (d : Cursor input'),
  c.left < n → k.Beside c d → InStep k k.Alongside (statement scope c) (statement scope d))

include hstatement

theorem block_inStep (hscope : k.Shares scope) {closers : List Keyword} {closer : Keyword}
    (c : Cursor input) (d : Cursor input') (hc : c.left < n) (h : k.Behind c d) :
    InStep k k.Alongside (block scope closers closer c) (block scope closers closer d) := by
  have hskip := k.skips h
  rw [block, block]
  generalize c.skipNewlines = start at hskip
  generalize d.skipNewlines = start' at hskip
  obtain ⟨c₁, h₁⟩ := start
  obtain ⟨d₁, h₁'⟩ := start'
  dsimp only at hskip ⊢
  rcases hskip with ⟨hbeside, hend⟩ | ⟨hnil, hapart⟩
  case inr =>
    -- Nothing is left of the first input, so its block is not closed.
    have hclose : ¬ (closers.any fun w => c₁.peek.kind == .keyword w) = true := by
      simp [Cursor.kind_peek, hnil, k.stop]
    rw [if_neg hclose, if_pos (Cursor.atEnd_iff.2 hnil)]
    exact .of_fails (fun _ => rfl) hapart
  have hany : (closers.any fun w => c₁.peek.kind == .keyword w) = closers.any
    fun w => d₁.peek.kind == .keyword w := by
    refine congrArg _ (funext fun w => ?_)
    rw [Bool.eq_iff_iff, beq_iff_eq, beq_iff_eq]
    exact hbeside.peek _ (by simp) (by simp)
  rw [hany, hend]
  by_cases hclose : (closers.any fun w => d₁.peek.kind == .keyword w) = true
  · rw [if_pos hclose, if_pos hclose]
    exact .pure ⟨rfl, hbeside⟩
  rw [if_neg hclose, if_neg hclose]
  refine .guard Iff.rfl (hbeside.fault _ fun _ => rfl) fun _ => ?_
  refine (hstatement scope hscope c₁ d₁ (by omega) hbeside).bind ?_
  rintro ⟨st, c₂, h₂⟩ ⟨_, d₂, h₂'⟩ ⟨rfl, hst⟩
  refine (inStep_expectBreak (c := c₂) (d := d₂) hst _).bind ?_
    (fun _ hspent => (block_rejects hspent _ _).bind _)
    fun _ hspent => (block_rejects hspent _ _).bind _
  rintro ⟨c₃, h₃⟩ ⟨d₃, h₃'⟩ hbreak
  refine (block_inStep hscope c₃ d₃ (by omega) hbreak).bind ?_
  rintro ⟨rest, c₄, h₄⟩ ⟨_, d₄, h₄'⟩ ⟨rfl, hrest⟩
  exact .pure ⟨rfl, hrest⟩
termination_by c.left

/-- A subroutine looks into no scope but its own. -/
theorem subroutine_inStep (c : Cursor input) (d : Cursor input') (hc : c.left ≤ n)
    (h : k.Beside c d) (hne : ¬ c.AtBreak)
    (hsub : (c.secondKind? == some (.keyword .subroutine)) = true) :
    InStep k k.Alongside (declaration scope c) (declaration scope d) := by
  have hsub' := hsub
  rw [h.secondKind? hne (by decide)] at hsub'
  rw [declaration, declaration, if_pos hsub, if_pos hsub']
  refine (subroutineHead_inStep h).bind ?_ (fun _ hspent => (block_rejects hspent _ _).bind _)
    fun _ hspent => (block_rejects hspent _ _).bind _
  rintro ⟨⟨ty, name, all⟩, c₁, h₁⟩ ⟨_, d₁, h₁'⟩ ⟨rfl, hhead⟩
  refine (block_inStep hstatement (k.subroutines name) c₁ d₁ (by omega) hhead).bind ?_
  rintro ⟨body, c₂, h₂⟩ ⟨_, d₂, h₂'⟩ ⟨rfl, hbody⟩
  refine (inStep_expect hbody (by decide) _).bind ?_
  rintro ⟨c₃, h₃⟩ ⟨d₃, h₃'⟩ hclose
  exact .pure ⟨rfl, hclose⟩

theorem declaration_inStep (hscope : k.Shares scope) (c : Cursor input) (d : Cursor input')
    (hc : c.left ≤ n) (h : k.Beside c d) (hne : ¬ c.AtBreak) :
    InStep k k.Alongside (declaration scope c) (declaration scope d) := by
  by_cases hsub : (c.secondKind? == some (.keyword .subroutine)) = true
  · exact subroutine_inStep hstatement c d hc h hne hsub
  · have hsub' := hsub
    rw [h.secondKind? hne (by decide)] at hsub'
    rw [declaration, declaration, if_neg hsub, if_neg hsub']
    exact arrayDeclaration_inStep hscope h

theorem arm_inStep (hscope : k.Shares scope) (c : Cursor input) (d : Cursor input')
    (hc : c.left ≤ n)
    (h : k.Beside c d) (hchain : ∀ (c₁ : Cursor input) (d₁ : Cursor input'), c₁.left < c.left →
      k.Beside c₁ d₁ → InStep k k.Alongside (conditional scope c₁) (conditional scope d₁)) :
    InStep k k.Alongside (conditional scope c) (conditional scope d) := by
  rw [conditional, conditional]
  refine (inStep_expect h (by decide) _).bind ?_
  rintro ⟨c₁, h₁⟩ ⟨d₁, h₁'⟩ hif
  refine (condition_inStep hscope (c := c₁) (d := d₁) hif).bind ?_
  rintro ⟨test, c₂, h₂⟩ ⟨_, d₂, h₂'⟩ ⟨rfl, htest⟩
  refine (inStep_expect (c := c₂) (d := d₂) htest (by decide) _).bind ?_
  rintro ⟨c₃, h₃⟩ ⟨d₃, h₃'⟩ hthen
  refine (inStep_expectBreak (c := c₃) (d := d₃) hthen _).bind ?_
    (fun _ hspent => (block_rejects hspent _ _).bind _)
    fun _ hspent => (block_rejects hspent _ _).bind _
  rintro ⟨c₄, h₄⟩ ⟨d₄, h₄'⟩ hbreak
  refine (block_inStep hstatement hscope c₄ d₄ (by omega) hbreak).bind ?_
  rintro ⟨body, c₅, h₅⟩ ⟨_, d₅, h₅'⟩ ⟨rfl, hbody⟩
  dsimp only at hbody ⊢
  rcases hbody.skip? (.keyword .endIf) (by decide) with
    ⟨hcs, hds⟩ | ⟨⟨c₆, h₆⟩, ⟨d₆, h₆'⟩, hcs, hds, hend⟩
  case inr =>
    rw [hcs, hds]
    exact .pure ⟨rfl, hend⟩
  rw [hcs, hds]
  refine (inStep_expect hbody (by decide) _).bind ?_
  rintro ⟨c₆, h₆⟩ ⟨d₆, h₆'⟩ helse
  dsimp only at helse ⊢
  have hnext : c₆.peek.kind = .keyword .ifWord ↔ d₆.peek.kind = .keyword .ifWord :=
    helse.peek _ (by decide) (by decide)
  by_cases hchained : c₆.peek.kind = .keyword .ifWord
  · rw [if_pos hchained, if_pos (hnext.1 hchained)]
    refine (hchain c₆ d₆ (by omega) helse).bind ?_
    rintro ⟨⟨nextTest, nextBody, rest⟩, c₇, h₇⟩ ⟨_, d₇, h₇'⟩ ⟨rfl, hrest⟩
    exact .pure ⟨rfl, hrest⟩
  · rw [if_neg hchained, if_neg fun hd => hchained (hnext.2 hd)]
    refine (inStep_expectBreak (c := c₆) (d := d₆) helse _).bind ?_
      (fun _ hspent => (block_rejects hspent _ _).bind _)
      fun _ hspent => (block_rejects hspent _ _).bind _
    rintro ⟨c₇, h₇⟩ ⟨d₇, h₇'⟩ hbreak'
    refine (block_inStep hstatement hscope c₇ d₇ (by omega) hbreak').bind ?_
    rintro ⟨last, c₈, h₈⟩ ⟨_, d₈, h₈'⟩ ⟨rfl, hlast⟩
    refine (inStep_expect hlast (by decide) _).bind ?_
    rintro ⟨c₉, h₉⟩ ⟨d₉, h₉'⟩ hclose
    exact .pure ⟨rfl, hclose⟩

theorem conditional_inStep (hscope : k.Shares scope) (c : Cursor input) (d : Cursor input')
    (hc : c.left ≤ n)
    (h : k.Beside c d) : InStep k k.Alongside (conditional scope c) (conditional scope d) :=
  arm_inStep hstatement hscope c d hc h fun c₁ d₁ _ h₁ => conditional_inStep hscope c₁ d₁
    (by omega) h₁
termination_by c.left

theorem whileStatement_inStep (hscope : k.Shares scope) (c : Cursor input) (d : Cursor input')
    (hc : c.left ≤ n)
    (h : k.Beside c d) :
    InStep k k.Alongside (whileStatement scope c) (whileStatement scope d) := by
  rw [whileStatement, whileStatement]
  refine (inStep_expect h (by decide) _).bind ?_
  rintro ⟨c₁, h₁⟩ ⟨d₁, h₁'⟩ hwhile
  refine (condition_inStep hscope (c := c₁) (d := d₁) hwhile).bind ?_
  rintro ⟨test, c₂, h₂⟩ ⟨_, d₂, h₂'⟩ ⟨rfl, htest⟩
  refine (inStep_expect (c := c₂) (d := d₂) htest (by decide) _).bind ?_
  rintro ⟨c₃, h₃⟩ ⟨d₃, h₃'⟩ hdo
  refine (inStep_expectBreak (c := c₃) (d := d₃) hdo _).bind ?_
    (fun _ hspent => (block_rejects hspent _ _).bind _)
    fun _ hspent => (block_rejects hspent _ _).bind _
  rintro ⟨c₄, h₄⟩ ⟨d₄, h₄'⟩ hbreak
  refine (block_inStep hstatement hscope c₄ d₄ (by omega) hbreak).bind ?_
  rintro ⟨body, c₅, h₅⟩ ⟨_, d₅, h₅'⟩ ⟨rfl, hbody⟩
  refine (inStep_expect hbody (by decide) _).bind ?_
  rintro ⟨c₆, h₆⟩ ⟨d₆, h₆'⟩ hclose
  exact .pure ⟨rfl, hclose⟩

theorem forStatement_inStep (hscope : k.Shares scope) (c : Cursor input) (d : Cursor input')
    (hc : c.left ≤ n)
    (h : k.Beside c d) : InStep k k.Alongside (forStatement scope c) (forStatement scope d) := by
  rw [forStatement, forStatement]
  refine (forHead_inStep hscope h).bind ?_ (fun _ hspent => (block_rejects hspent _ _).bind _)
    fun _ hspent => (block_rejects hspent _ _).bind _
  rintro ⟨⟨init, bound⟩, c₁, h₁⟩ ⟨_, d₁, h₁'⟩ ⟨rfl, hhead⟩
  refine (block_inStep hstatement hscope c₁ d₁ (by omega) hhead).bind ?_
  rintro ⟨body, c₂, h₂⟩ ⟨_, d₂, h₂'⟩ ⟨rfl, hbody⟩
  refine (forTail_inStep _ hbody).bind ?_
  rintro ⟨c₃, h₃⟩ ⟨d₃, h₃'⟩ hnext
  exact .pure ⟨rfl, hnext⟩

theorem anyStatement_inStep (hscope : k.Shares scope) (c : Cursor input) (d : Cursor input')
    (hc : c.left ≤ n)
    (h : k.Beside c d) : InStep k k.Alongside (statement scope c) (statement scope d) := by
  rcases h.cases with ⟨kind, c₁, d₁, hkind, hck, hdk, -⟩ | ⟨hcbreak, hdbreak⟩
  · have hne : ¬ c.AtBreak := fun hat => hkind (hat _ _ hck)
    rw [statement, statement, Cursor.kind_of_kinds hck, Cursor.kind_of_kinds hdk]
    cases kind with
    | keyword w =>
      cases w with
      | ifWord =>
        refine InStep.bind (conditional_inStep hstatement hscope c d hc h) ?_
        rintro ⟨⟨test, body, rest⟩, c₁⟩ ⟨_, d₁⟩ ⟨rfl, hread⟩
        exact inStep_told (.pure ⟨rfl, hread⟩)
      | whileWord => exact inStep_told (whileStatement_inStep hstatement hscope c d hc h)
      | forWord => exact inStep_told (forStatement_inStep hstatement hscope c d hc h)
      | int => exact inStep_told (declaration_inStep hstatement hscope c d hc h hne)
      | double => exact inStep_told (declaration_inStep hstatement hscope c d hc h hne)
      | returnWord => exact inStep_told (returnStatement_inStep hscope h)
      | output => exact inStep_told (outputStatement_inStep hscope h)
      | input => exact inStep_told (inputStatement_inStep hscope h)
      | _ => exact inStep_told (expressionStatement_inStep hscope h)
    | name text =>
      dsimp only
      rw [h.atAssignment hne]
      by_cases hassign : d.atAssignment = true
      · rw [if_pos hassign, if_pos hassign]
        refine InStep.bind (assignment_inStep hscope h) ?_
        rintro ⟨a, c₁⟩ ⟨_, d₁⟩ ⟨rfl, hread⟩
        exact inStep_told (.pure ⟨rfl, hread⟩)
      · rw [if_neg hassign, if_neg hassign]
        exact inStep_told (expressionStatement_inStep hscope h)
    | _ => exact inStep_told (expressionStatement_inStep hscope h)
  · -- No statement begins here: what is asked for is an expression.
    have hother : ∀ {input : Input} {c : Cursor input}, c.AtBreak → input.stop.kind = .eof →
        statement scope c = expressionStatement scope c >>= fun read => do
          tell (.reduced read.1.label c.peek.line)
          return (read.1, read.2) := by
      intro input c hbreak hstop
      rw [statement]
      rcases hbreak.peek hstop with hpeek | hpeek
      · rw [hpeek]
      · rw [hpeek]
    rw [hother hcbreak k.stop, hother hdbreak k.stop']
    exact inStep_told (expressionStatement_inStep hscope h)

end

/-- **Statements are read in the same way.** -/
theorem statement_inStep {scope : Scope} (hscope : k.Shares scope) (c : Cursor input)
    (d : Cursor input')
    (h : k.Beside c d) : InStep k k.Alongside (statement scope c) (statement scope d) :=
  anyStatement_inStep (fun _ hshares c₁ d₁ _ h₁ => statement_inStep hshares c₁ d₁ h₁) hscope c d
    (Nat.le_refl _) h
termination_by c.left

/-- **A subroutine is read in the same way**, whatever is bound at the top level. -/
theorem subroutineStatement_inStep {c : Cursor input} {d : Cursor input'} (h : k.Beside c d)
    {first : Kind} {ty : Ty}
    {rest : List Kind} (hty : Phrase.TypeName first ty)
    (hkinds : c.kinds = first :: .keyword .subroutine :: rest) :
    InStep k k.Alongside (statement .top c) (statement .top d) := by
  have hsub : (c.secondKind? == some (.keyword .subroutine)) = true := by
    rw [Cursor.secondKind?_eq, hkinds]
    rfl
  have hne : ¬ c.AtBreak := fun hat => absurd (hat _ _ hkinds) (by cases hty <;> decide)
  have hdeclaration : InStep k k.Alongside (declaration .top c) (declaration .top d) :=
    subroutine_inStep (fun _ hshares c₁ d₁ _ h₁ => statement_inStep hshares c₁ d₁ h₁) c d
      (Nat.le_refl _) h hne hsub
  have hpeek := Cursor.kind_of_kinds hkinds
  have hpeek' : d.peek.kind = first :=
    (h.peek first (by cases hty <;> decide) (by cases hty <;> decide)).1 hpeek
  rw [statement, statement, hpeek, hpeek']
  cases hty with
  | int => exact inStep_told hdeclaration
  | double => exact inStep_told hdeclaration

end Pseudocode.Grammar
