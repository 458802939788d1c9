import Pseudocode.Proofs.Grammar.Complete.Expressions

/-!
Programs that are derived are read.

Statements are followed like expressions: a predicate for each kind of phrase and a lemma for each
rule.  A statement is read up to the end of its line, and a block up to one of the keywords that
close it, which no statement begins with.

Both directions together are `parse_follows_grammar`: what is read is derived, and what is derived
is read as its tree unless the program is rejected for a reason that the grammar does not speak of.
-/

namespace Pseudocode

open Phrase

variable {input : Input} {scope : Scope} {c : Cursor input} {ts us vs : List Kind} {k : Kind}
  {ty : Ty}
  {e : Bare.Expr} {target : Bare.Target} {st : Bare.Stmt} {body sts : List Bare.Stmt}
  {rest : Bare.ElsePart}

/-! ### First tokens of statements -/

/-- Can a statement begin with a token of this kind? -/
def Kind.startsStatement : Kind → Bool
  | .keyword .ifWord | .keyword .whileWord | .keyword .forWord | .keyword .int | .keyword .double
  | .keyword .returnWord | .keyword .output | .keyword .input => true
  | k => k.startsExpression

/-- The tokens begin with one of a kind that a statement can begin with. -/
def StartsStatement (ts : List Kind) : Prop :=
  ∃ k ks, ts = k :: ks ∧ k.startsStatement = true

theorem StartsExpression.startsStatement (h : StartsExpression ts) : StartsStatement ts := by
  obtain ⟨k, ks, rfl, hk⟩ := h
  refine ⟨k, ks, rfl, ?_⟩
  cases k with
  | keyword w => cases hk
  | _ => exact hk

theorem Phrase.Conditional.starts {condition : Bare.Expr} (h : Conditional ts condition body rest) :
    ∃ ks, ts = .keyword .ifWord :: ks := by
  cases h
  exact ⟨_, rfl⟩

theorem Phrase.Statement.starts (h : Statement ts st) : StartsStatement ts := by
  cases h with
  | expr he => exact he.starts.startsStatement
  | assign hplace _ => cases hplace <;> exact ⟨_, _, rfl, rfl⟩
  | array _ hty _ => cases hty <;> exact ⟨_, _, rfl, rfl⟩
  | ifThen h =>
    obtain ⟨ks, rfl⟩ := h.starts
    exact ⟨_, _, rfl, rfl⟩
  | subroutine _ _ hty _ _ => cases hty <;> exact ⟨_, _, rfl, rfl⟩
  | _ => exact ⟨_, _, rfl, rfl⟩

/-- The line ends here. -/
def EndsLine (us : List Kind) : Prop :=
  ∀ k, us.head? = some k → k = .newline

theorem EndsLine.stops (h : EndsLine us) : Stops us := by
  intro k hk
  rw [h k hk]
  rfl

theorem endsLine_breaks (n : Nat) : EndsLine (breaks n) := by
  intro k hk
  cases n with
  | zero => cases hk
  | succ n =>
    cases hk
    rfl

theorem endsLine_newline (us : List Kind) : EndsLine (.newline :: us) := by
  intro k hk
  cases hk
  rfl

namespace Grammar

open Analysis

section

variable (input : Input)

def StatementReads (ts : List Kind) (st : Bare.Stmt) : Prop :=
  ∀ (scope : Scope) (c : Cursor input) (us : List Kind), c.kinds = ts ++ us → EndsLine us →
    ReadsAs (statement scope c) (fun found => found.bare = st) us

def ConditionalReads (ts : List Kind) (condition : Bare.Expr) (body : List Bare.Stmt)
    (rest : Bare.ElsePart) : Prop :=
  ∀ (scope : Scope) (c : Cursor input) (us : List Kind), c.kinds = ts ++ us →
    ReadsAs (conditional scope c)
      (fun arm => arm.1.bare = condition ∧ bareAll arm.2.1 = body ∧ arm.2.2.bare = rest) us

/-- With line breaks before it, and up to a closing keyword. -/
def BlockReads (ts : List Kind) (body : List Bare.Stmt) : Prop :=
  ∀ (scope : Scope) (closers : List Keyword) (closer : Keyword) (c : Cursor input) (n : Nat)
    (k : Keyword) (us : List Kind), c.kinds = breaks n ++ (ts ++ .keyword k :: us) → k ∈ closers →
    (∀ w ∈ closers, (Kind.keyword w).startsStatement = false) →
    ReadsAs (block scope closers closer c) (fun found => bareAll found = body) (.keyword k :: us)

/-- What follows an arm, with what is known of how its parts are read. -/
inductive RestReads : List Kind → Bare.ElsePart → Prop where
  | none : RestReads [.keyword .endIf] .none
  | body {ts : List Kind} {body : List Bare.Stmt} (n) : BlockReads input ts body →
      RestReads (.keyword .elseWord :: (breaks (n + 1) ++ ts ++ [.keyword .endIf])) (.body body)
  | elseIf {ts : List Kind} {condition} {body : List Bare.Stmt} {rest : Bare.ElsePart} :
      (∃ ks, ts = .keyword .ifWord :: ks) → ConditionalReads input ts condition body rest →
      RestReads (.keyword .elseWord :: ts) (.elseIf condition body rest)

end

/-! ### Statements without a body -/

theorem condition_read (he : Expression ts e) (hc : c.kinds = ts ++ us) (hus : Stops us) :
    ReadsAs (condition scope c) (fun found => found.bare = e) us := by
  refine (he.reads scope c us hc hus).bind ?_
  intro found c₁ hfound hc₁ _
  exact (ends_requireNumeric (lenient_shown _)).bind fun _ _ => .pure ⟨hfound, hc₁⟩

theorem index_read (he : Expression ts e) {line : Nat}
    (hc : c.kinds = ts ++ .mark .rightBracket :: us) :
    ReadsAs (index scope line c) (fun found => found.bare = e) us := by
  refine (he.reads scope c _ hc (.cons rfl)).bind fun found c₁ hfound hc₁ _ => ?_
  refine (ends_requireNumeric (lenient_shown _)).bind fun _ _ => expect_read hc₁ fun c₂ hc₂ _ => ?_
  exact .pure ⟨hfound, hc₂⟩

theorem assignment_read (hplace : Assignable ts target) (he : Expression us e)
    (hc : c.kinds = ts ++ .mark .assign :: (us ++ vs)) (hvs : Stops vs) :
    ReadsAs (assignment scope c) (fun found => found.target.bare = target ∧
      found.value.bare = e) vs := by
  cases hplace with
  | var name =>
    refine expectName_read hc fun c₁ hc₁ _ => ?_
    dsimp only
    rw [Cursor.skip?_eq_none (by simp [hc₁])]
    refine expect_read hc₁ fun c₂ hc₂ _ => ?_
    refine (he.reads scope c₂ vs hc₂ hvs).bind fun value c₃ hvalue hc₃ _ => ?_
    refine (ends_requireResolved (lenient_shown _)).bind fun _ _ => ends_bindSymbol.bind
      fun _ _ => ?_
    exact .pure ⟨⟨rfl, hvalue⟩, hc₃⟩
  | @element ts index name hindex =>
    refine expectName_read hc fun c₁ hc₁ _ => ?_
    dsimp only
    obtain ⟨⟨c₂, h₂⟩, hskip, hc₂⟩ := Cursor.skip?_of_kinds hc₁
    rw [hskip]
    refine (ends_requireBound (lenient_shown _)).bind fun _ _ => ?_
    refine (index_read hindex (by simpa using hc₂)).bind fun i c₃ hi hc₃ _ => ?_
    refine expect_read hc₃ fun c₄ hc₄ _ => ?_
    refine (he.reads scope c₄ vs hc₄ hvs).bind fun value c₅ hvalue hc₅ _ => ?_
    refine (ends_requireResolved (lenient_shown _)).bind fun _ _ => ends_env.bind fun env _ => ?_
    refine .check (fun _ => trivial) fun _ => .pure ⟨⟨?_, hvalue⟩, hc₅⟩
    exact congrArg (Bare.Target.element _) hi

theorem statementReads_output (he : Expression ts e) :
    StatementReads input (.keyword .output :: ts) (.output e) := by
  intro scope c us hc hus
  rw [statement, Cursor.kind_of_kinds hc]
  refine ends_told (expect_read hc fun c₁ hc₁ _ => ?_)
  refine (he.reads scope c₁ us hc₁ hus.stops).bind fun found c₂ hfound hc₂ _ => ?_
  refine (ends_requireResolved (lenient_shown _)).bind fun _ _ => .pure ⟨?_, hc₂⟩
  exact congrArg Bare.Stmt.output hfound

theorem statementReads_ret (he : Expression ts e) :
    StatementReads input (.keyword .returnWord :: ts) (.ret e) := by
  intro scope c us hc hus
  rw [statement, Cursor.kind_of_kinds hc]
  refine ends_told (expect_read hc fun c₁ hc₁ _ => ?_)
  refine .check (fun _ => c.mem_kinds (by simp [hc]))
    fun _ => (he.reads scope c₁ us hc₁ hus.stops).bind fun found c₂ hfound hc₂ _ => ?_
  refine (ends_requireResolved (lenient_shown _)).bind fun _ _ => .pure ⟨?_, hc₂⟩
  exact congrArg Bare.Stmt.ret hfound

theorem statementReads_input (hplace : Assignable ts target) :
    StatementReads input (.keyword .input :: ts) (.input target) := by
  intro scope c us hc hus
  rw [statement, Cursor.kind_of_kinds hc]
  refine ends_told (expect_read hc fun c₁ hc₁ _ => ?_)
  cases hplace with
  | var name =>
    refine expectName_read hc₁ fun c₂ hc₂ _ => ?_
    dsimp only
    refine (ends_requireBound (lenient_shown _)).bind fun _ _ => ends_env.bind fun env _ => ?_
    rw [Cursor.skip?_eq_none (hc₂ ▸ hus.stops.noBracket.2)]
    exact .pure ⟨rfl, hc₂⟩
  | element name hindex =>
    refine expectName_read hc₁ fun c₂ hc₂ _ => ?_
    dsimp only
    obtain ⟨⟨c₃, h₃⟩, hskip, hc₃⟩ := Cursor.skip?_of_kinds hc₂
    refine (ends_requireBound (lenient_shown _)).bind fun _ _ => ends_env.bind fun env _ => ?_
    rw [hskip]
    refine (index_read hindex (by simpa using hc₃)).bind fun i c₄ hi hc₄ _ => ?_
    exact .pure ⟨congrArg (fun i => Bare.Stmt.input (.element _ i)) hi, hc₄⟩

theorem statementReads_array {size : Bare.Expr} (name : String) (hty : TypeName k ty)
    (hsize : Expression ts size) :
    StatementReads input (k :: .name name :: .mark .leftBracket :: (ts ++ [.mark .rightBracket]))
      (.array ty name size) := by
  intro scope c us hc hus
  have hdeclaration :
    ReadsAs (declaration scope c) (fun found => found.bare = .array ty name size) us := by
    rw [declaration, if_neg (by rw [Cursor.secondKind?_eq, hc]; simp)]
    refine expectType_read hty hc fun c₁ hc₁ _ => ?_
    refine expectName_read hc₁ fun c₂ hc₂ _ => ?_
    refine expect_read hc₂ fun c₃ hc₃ _ => ?_
    refine (hsize.reads scope c₃ (.mark .rightBracket :: us) (by simpa using hc₃) (.cons rfl)).bind
      fun found c₄ hfound hc₄ _ => ?_
    refine (ends_requireNumeric (lenient_shown _)).bind fun _ _ => expect_read hc₄
      fun c₅ hc₅ _ => ?_
    refine ends_bindSymbol.bind fun _ _ => .pure ⟨?_, hc₅⟩
    exact congrArg (Bare.Stmt.array _ _) hfound
  rw [statement, Cursor.kind_of_kinds hc]
  cases hty <;> exact ends_told hdeclaration

theorem statementReads_expr (hstop : input.stop.kind = .eof) (he : Expression ts e) :
    StatementReads input ts (.expr e) := by
  intro scope c us hc hus
  have hexpression :
    ReadsAs (expressionStatement scope c) (fun found => found.bare = .expr e) us := by
    refine (he.reads scope c us hc hus.stops).bind ?_
    intro found c₁ hfound hc₁ _
    refine (ends_requireResolved (lenient_shown _)).bind fun _ _ => .pure ⟨?_, hc₁⟩
    exact congrArg Bare.Stmt.expr hfound
  have hassign : ¬ c.atAssignment = true := by
    rw [Cursor.atAssignment_eq hstop, hc, he.notAssigned us (fun h => nomatch hus _ h)
      fun h => nomatch hus _ h]
    simp
  obtain ⟨k, ks, rfl, hk⟩ := he.starts
  rw [statement, Cursor.kind_of_kinds hc]
  cases k with
  | name text =>
    simp only [hassign]
    exact ends_told hexpression
  | keyword w => cases hk
  | _ => exact ends_told hexpression

theorem statementReads_assign (hstop : input.stop.kind = .eof) (hplace : Assignable ts target)
    (he : Expression us e) :
    StatementReads input (ts ++ .mark .assign :: us) (.assign target e) := by
  intro scope c vs hc hvs
  rw [List.append_assoc] at hc
  have hassign : c.atAssignment = true := by
    rw [Cursor.atAssignment_eq hstop, hc]
    exact hplace.assigns _
  have hname : ∃ name, c.peek.kind = .name name := by
    cases hplace with
    | var name => exact ⟨name, Cursor.kind_of_kinds hc⟩
    | element name _ => exact ⟨name, Cursor.kind_of_kinds hc⟩
  obtain ⟨name, hname⟩ := hname
  rw [statement, hname]
  simp only [hassign, if_true]
  refine (assignment_read hplace he hc hvs.stops).bind ?_
  rintro a c₁ ⟨htarget, hvalue⟩ hc₁ _
  refine ends_told (.pure ⟨?_, hc₁⟩)
  show Bare.Stmt.assign a.target.bare a.value.bare = _
  rw [htarget, hvalue]

/-! ### The heads of subroutines and loops -/

theorem moreParams_read {new : List Param} (hword : .keyword .subroutine ∈ input.kinds)
    (h : MoreParams ts new) :
    ∀ (seen : List Param) (c : Cursor input) (us : List Kind), c.kinds = ts ++ us →
      us.head? ≠ some (.mark .comma) →
      ReadsAs (moreParams seen c) (fun all => all = seen ++ new) us := by
  induction h with
  | one name hty =>
    intro seen c us hc hus
    rw [moreParams]
    refine expectType_read hty hc fun c₁ hc₁ _ => ?_
    refine expectName_read hc₁ fun c₂ hc₂ _ => ?_
    dsimp only
    refine .check (fun _ => hword) fun _ => ?_
    rw [Cursor.skip?_eq_none (hc₂ ▸ hus)]
    exact .pure ⟨rfl, hc₂⟩
  | more name hty hmore ih =>
    intro seen c us hc hus
    rw [moreParams]
    refine expectType_read hty hc fun c₁ hc₁ _ => ?_
    refine expectName_read hc₁ fun c₂ hc₂ _ => ?_
    dsimp only
    obtain ⟨⟨c₃, h₃⟩, hskip, hc₃⟩ := Cursor.skip?_of_kinds hc₂
    refine .check (fun _ => hword) fun _ => ?_
    rw [hskip]
    refine (ih _ c₃ us hc₃ hus).bind fun all c₄ hall hc₄ _ => ?_
    exact .pure ⟨hall.trans (List.append_assoc _ _ _), hc₄⟩

theorem params_read {all : List Param} (hword : .keyword .subroutine ∈ input.kinds)
    (h : Params ts all) (hc : c.kinds = ts ++ .mark .rightParen :: us) :
    ReadsAs (params c) (fun found => found = all) (.mark .rightParen :: us) := by
  rw [params]
  cases h with
  | none =>
    rw [if_pos (Cursor.kind_of_kinds hc)]
    exact .pure ⟨rfl, hc⟩
  | some hmore =>
    have hpeek : c.peek.kind ≠ .mark .rightParen := by
      cases hmore with
      | one name hty => cases hty <;> rw [Cursor.kind_of_kinds hc] <;> simp
      | more name hty _ => cases hty <;> rw [Cursor.kind_of_kinds hc] <;> simp
    rw [if_neg hpeek]
    refine (moreParams_read hword hmore [] c _ hc (by simp)).bind fun found c₁ hfound hc₁ _ => ?_
    exact .pure ⟨hfound, hc₁⟩

theorem subroutineHead_read {all : List Param} {name : String} (hty : TypeName k ty)
    (hparams : Params ts all)
    (hc : c.kinds = k :: .keyword .subroutine :: .name name :: .mark .leftParen ::
      (ts ++ .mark .rightParen :: .newline :: us)) :
    ReadsAs (subroutineHead scope c) (fun head => head = (ty, name, all)) us := by
  have hword : .keyword .subroutine ∈ input.kinds := c.mem_kinds (by simp [hc])
  refine expectType_read hty hc fun c₁ hc₁ _ => ?_
  refine expect_read hc₁ fun c₂ hc₂ _ => ?_
  cases scope with
  | subroutine outer =>
    exact (ends_reject (Q := fun _ => False) hword).bind fun _ hfalse => hfalse.elim
  | top =>
    refine expectName_read hc₂ fun c₃ hc₃ _ => ?_
    refine expect_read hc₃ fun c₄ hc₄ _ => ?_
    refine (params_read hword hparams hc₄).bind ?_
    rintro _ c₅ rfl hc₅ _
    refine expect_read hc₅ fun c₆ hc₆ _ => ?_
    refine ends_register.bind fun _ _ => (ends_bindParams _).bind fun _ _ => expect_read hc₆
      fun c₇ hc₇ _ => ?_
    exact .pure ⟨rfl, hc₇⟩

theorem forHead_read {first bound : Bare.Expr} {counter : String} (hfirst : Expression ts first)
    (hbound : Expression us bound)
    (hc : c.kinds = .keyword .forWord :: .name counter :: .mark .assign ::
      (ts ++ .keyword .toWord :: (us ++ .newline :: vs))) :
    ReadsAs (forHead scope c) (fun head => head.1.target.bare = .var counter ∧
      head.1.value.bare = first ∧ head.2.bare = bound) vs := by
  refine expect_read hc fun c₁ hc₁ _ => ?_
  have hstart : (c₁.atName && c₁.secondKind? == some (.mark .assign)) = true := by
    rw [Cursor.secondKind?_eq, hc₁, Cursor.atName, Cursor.kind_of_kinds hc₁]
    rfl
  refine .require (fun hno => absurd hstart hno) fun _ => ?_
  refine (assignment_read (.var counter) hfirst hc₁ (.cons rfl)).bind ?_
  rintro init c₂ ⟨htarget, hvalue⟩ hc₂ _
  refine .require (fun _ => trivial) fun _ => expect_read hc₂ fun c₃ hc₃ _ => ?_
  refine (condition_read hbound hc₃ (.cons rfl)).bind fun found c₄ hfound hc₄ _ => ?_
  refine expect_read hc₄ fun c₅ hc₅ _ => ?_
  exact .pure ⟨⟨htarget, hvalue, hfound⟩, hc₅⟩

theorem forTail_read {counter named : String} (hc : c.kinds = .keyword .next :: .name named :: us) :
    Ends (SourceError.Shown input.kinds) (forTail counter c) fun d => d.val.kinds = us := by
  refine expect_read hc fun c₁ hc₁ _ => ?_
  refine expectName_read hc₁ fun c₂ hc₂ _ => ?_
  exact .check (fun _ => c.mem_kinds (by simp [hc])) fun _ => .pure hc₂

/-! ### Statements with a body -/

theorem blockReads_nil : BlockReads input [] [] := by
  intro scope closers closer c n k us hc hk _
  have hstart := Cursor.skipNewlines_of_kinds hc (by simp)
  rw [block]
  generalize c.skipNewlines = start at hstart
  obtain ⟨c₁, h₁⟩ := start
  dsimp only at hstart ⊢
  rw [if_pos (by rw [Cursor.kind_of_kinds hstart]; simpa using hk)]
  exact .pure ⟨rfl, hstart⟩

theorem blockReads_cons {rest : List Bare.Stmt} (m : Nat) (hstarts : StartsStatement ts)
    (hst : StatementReads input ts st) (hrest : BlockReads input us rest) :
    BlockReads input (ts ++ breaks (m + 1) ++ us) (st :: rest) := by
  intro scope closers closer c n k vs hc hk hclosers
  obtain ⟨k', ks, rfl, hk'⟩ := hstarts
  have hc' : c.kinds = breaks n ++
    (k' :: ks ++ .newline :: (breaks m ++ (us ++ .keyword k :: vs))) := by
    rw [hc]
    simp [breaks_succ]
  have hnewline : k' ≠ .newline := by
    rintro rfl
    cases hk'
  have hstart := Cursor.skipNewlines_of_kinds hc' (by simpa using hnewline)
  rw [block]
  generalize c.skipNewlines = start at hstart
  obtain ⟨c₁, h₁⟩ := start
  dsimp only at hstart ⊢
  have hopen : ¬ (closers.any fun w => c₁.peek.kind == .keyword w) = true := by
    rw [Cursor.kind_of_kinds hstart, List.any_eq_true]
    rintro ⟨w, hw, heq⟩
    rw [beq_iff_eq.mp heq, hclosers w hw] at hk'
    cases hk'
  have hmore : ¬ c₁.atEnd = true := by
    rw [Cursor.atEnd_iff, hstart]
    simp
  rw [if_neg hopen]
  refine .check (fun hend => absurd hend hmore) fun _ => ?_
  refine (hst scope c₁ _ hstart (endsLine_newline _)).bind fun found c₂ hfound hc₂ _ => ?_
  refine expect_read hc₂ fun c₃ hc₃ _ => ?_
  refine (hrest scope closers closer c₃ m k vs hc₃ hk hclosers).bind fun body c₄ hbody hc₄ _ => ?_
  refine .pure ⟨?_, hc₄⟩
  show found.bare :: bareAll body = _
  rw [hfound, hbody]

theorem statementReads_whileLoop {condition : Bare.Expr} (n : Nat)
    (hcondition : Expression ts condition) (hbody : BlockReads input us body) :
    StatementReads input
      (.keyword .whileWord ::
        (ts ++ .keyword .doWord :: (breaks (n + 1) ++ us ++ [.keyword .endWhile])))
      (.whileLoop condition body) := by
  intro scope c vs hc hvs
  have hc' : c.kinds = .keyword .whileWord :: (ts ++ .keyword .doWord :: .newline ::
      (breaks n ++ (us ++ .keyword .endWhile :: vs))) := by
    rw [hc]
    simp [breaks_succ]
  rw [statement, Cursor.kind_of_kinds hc']
  simp only [whileStatement]
  refine ends_told (expect_read hc' fun c₁ hc₁ _ => ?_)
  refine (condition_read hcondition hc₁ (.cons rfl)).bind fun test c₂ htest hc₂ _ => ?_
  refine expect_read hc₂ fun c₃ hc₃ _ => ?_
  refine expect_read hc₃ fun c₄ hc₄ _ => ?_
  refine (hbody scope [.endWhile] .endWhile c₄ n .endWhile vs hc₄ (by simp) (by simp; rfl)).bind
    fun found c₅ hfound hc₅ _ => ?_
  refine expect_read hc₅ fun c₆ hc₆ _ => ?_
  refine .pure ⟨?_, hc₆⟩
  show Bare.Stmt.whileLoop test.bare (bareAll found) = _
  rw [htest, hfound]

theorem statementReads_forLoop {first bound : Bare.Expr} (counter named : String) (n : Nat)
    (hfirst : Expression ts first) (hbound : Expression us bound)
    (hbody : BlockReads input vs body) :
    StatementReads input
    (.keyword .forWord :: .name counter :: .mark .assign :: (ts ++ .keyword .toWord ::
        (us ++ (breaks (n + 1) ++ vs ++ [.keyword .next, .name named]))))
      (.forLoop (.var counter) first bound body) := by
  intro scope c ws hc hws
  have hc' : c.kinds = .keyword .forWord :: .name counter :: .mark .assign ::
    (ts ++ .keyword .toWord ::
      (us ++ .newline :: (breaks n ++ (vs ++ .keyword .next :: .name named :: ws)))) := by
    rw [hc]
    simp [breaks_succ]
  rw [statement, Cursor.kind_of_kinds hc']
  simp only [forStatement]
  refine ends_told ((forHead_read hfirst hbound hc').bind ?_)
  rintro ⟨init, limit⟩ c₁ ⟨htarget, hvalue, hlimit⟩ hc₁ _
  refine (hbody scope [.next] .next c₁ n .next _ hc₁ (by simp) (by simp; rfl)).bind
    fun found c₂ hfound hc₂ _ => ?_
  refine (forTail_read hc₂).bind ?_
  rintro ⟨c₃, h₃⟩ hc₃
  refine .pure ⟨?_, hc₃⟩
  show Bare.Stmt.forLoop init.target.bare init.value.bare limit.bare (bareAll found) = _
  rw [htarget, hvalue, hlimit, hfound]

theorem statementReads_subroutine {params : List Param} (name : String) (n : Nat)
    (hty : TypeName k ty) (hparams : Params ts params) (hbody : BlockReads input us body) :
    StatementReads input
    (k :: .keyword .subroutine :: .name name :: .mark .leftParen :: (ts ++ .mark .rightParen ::
        (breaks (n + 1) ++ us ++ [.keyword .endSubroutine])))
      (.subroutine name params body ty) := by
  intro scope c vs hc hvs
  have hc' : c.kinds = k :: .keyword .subroutine :: .name name :: .mark .leftParen ::
      (ts ++ .mark .rightParen :: .newline ::
        (breaks n ++ (us ++ .keyword .endSubroutine :: vs))) := by
    rw [hc]
    simp [breaks_succ]
  have hdeclaration :
      ReadsAs (declaration scope c)
      (fun found => found.bare = .subroutine name params body ty) vs := by
    rw [declaration, if_pos (by rw [Cursor.secondKind?_eq, hc']; rfl)]
    refine (subroutineHead_read hty hparams hc').bind ?_
    rintro _ c₁ rfl hc₁ _
    refine (hbody _ [.endSubroutine] .endSubroutine c₁ n .endSubroutine vs hc₁ (by simp)
      (by simp; rfl)).bind fun found c₂ hfound hc₂ _ => ?_
    refine expect_read hc₂ fun c₃ hc₃ _ => ?_
    refine .pure ⟨?_, hc₃⟩
    show Bare.Stmt.subroutine name params (bareAll found) ty = _
    rw [hfound]
  rw [statement, Cursor.kind_of_kinds hc']
  cases hty <;> exact ends_told hdeclaration

theorem statementReads_ifThen {condition : Bare.Expr} (hstart : ∃ ks, ts = .keyword .ifWord :: ks)
    (h : ConditionalReads input ts condition body rest) :
    StatementReads input ts (.ifThen condition body rest) := by
  intro scope c us hc _
  have hpeek : c.peek.kind = .keyword .ifWord := by
    obtain ⟨ks, rfl⟩ := hstart
    exact Cursor.kind_of_kinds hc
  rw [statement, hpeek]
  refine (h scope c us hc).bind ?_
  rintro ⟨test, found, part⟩ c₁ ⟨htest, hfound, hpart⟩ hc₁ _
  refine ends_told (.pure ⟨?_, hc₁⟩)
  show Bare.Stmt.ifThen test.bare (bareAll found) part.bare = _
  rw [htest, hfound, hpart]

/-- What follows an arm begins with a keyword that closes its body. -/
theorem RestReads.closes (h : RestReads input vs rest) :
    ∃ k ks, vs = .keyword k :: ks ∧ k ∈ [Keyword.elseWord, .endIf] := by
  cases h <;> exact ⟨_, _, rfl, by simp⟩

theorem conditionalReads_arm {condition : Bare.Expr} (n : Nat)
    (hcondition : Expression ts condition)
    (hbody : BlockReads input us body) (hrest : RestReads input vs rest) :
    ConditionalReads input
    (.keyword .ifWord :: (ts ++ .keyword .thenWord :: (breaks (n + 1) ++ us ++ vs)))
      condition body rest := by
  intro scope c ws hc
  obtain ⟨k, ks, hvs, hk⟩ := hrest.closes
  have hc' : c.kinds = .keyword .ifWord :: (ts ++ .keyword .thenWord :: .newline ::
      (breaks n ++ (us ++ .keyword k :: (ks ++ ws)))) := by
    rw [hc, hvs]
    simp [breaks_succ]
  rw [conditional]
  refine expect_read hc' fun c₁ hc₁ _ => ?_
  refine (condition_read hcondition hc₁ (.cons rfl)).bind fun test c₂ htest hc₂ _ => ?_
  refine expect_read hc₂ fun c₃ hc₃ _ => ?_
  refine expect_read hc₃ fun c₄ hc₄ _ => ?_
  refine (hbody scope [.elseWord, .endIf] .endIf c₄ n k _ hc₄ hk (by simp; exact ⟨rfl, rfl⟩)).bind
    fun found c₅ hfound hc₅ _ => ?_
  have hleft : c₅.kinds = vs ++ ws := by
    rw [hvs]
    exact hc₅
  dsimp only
  cases hrest with
  | none =>
    obtain ⟨⟨c₆, h₆⟩, hskip, hc₆⟩ := Cursor.skip?_of_kinds hleft
    rw [hskip]
    exact .pure ⟨⟨htest, hfound, rfl⟩, hc₆⟩
  | body m hlast =>
    rename_i last body'
    rw [Cursor.skip?_eq_none (by simp [hleft])]
    refine expect_read hleft fun c₆ hc₆ _ => ?_
    have hc₆' : c₆.kinds = .newline :: (breaks m ++ (last ++ .keyword .endIf :: ws)) := by
      rw [show c₆.kinds = _ from hc₆]
      simp [breaks_succ]
    dsimp only
    rw [if_neg (by rw [Cursor.kind_of_kinds hc₆']; simp)]
    refine expect_read hc₆' fun c₇ hc₇ _ => ?_
    refine (hlast scope [.endIf] .endIf c₇ m .endIf ws hc₇ (by simp) (by simp; rfl)).bind
      fun final c₈ hfinal hc₈ _ => ?_
    refine expect_read hc₈ fun c₉ hc₉ _ => ?_
    exact .pure ⟨⟨htest, hfound, congrArg Bare.ElsePart.body hfinal⟩, hc₉⟩
  | elseIf hstart hnext =>
    obtain ⟨ks', rfl⟩ := hstart
    rw [Cursor.skip?_eq_none (by simp [hleft])]
    refine expect_read hleft fun c₆ hc₆ _ => ?_
    dsimp only
    rw [if_pos (Cursor.kind_of_kinds hc₆)]
    refine (hnext scope c₆ ws hc₆).bind ?_
    rintro ⟨test', found', part⟩ c₇ ⟨htest', hfound', hpart⟩ hc₇ _
    refine .pure ⟨⟨htest, hfound, ?_⟩, hc₇⟩
    show Bare.ElsePart.elseIf test'.bare (bareAll found') part.bare = _
    rw [htest', hfound', hpart]

end Grammar

/-! ### Derivations of statements -/

namespace Phrase

open Grammar

mutual

/-- **A statement that is derived is read.** -/
theorem Statement.reads (hstop : input.stop.kind = .eof) :
    ∀ {ts : List Kind} {st : Bare.Stmt}, Statement ts st → StatementReads input ts st
  | _, _, .expr he => statementReads_expr hstop he
  | _, _, .assign hplace he => statementReads_assign hstop hplace he
  | _, _, .array name hty hsize => statementReads_array name hty hsize
  | _, _, .output he => statementReads_output he
  | _, _, .input hplace => statementReads_input hplace
  | _, _, .ret he => statementReads_ret he
  | _, _, .ifThen h => statementReads_ifThen h.starts (h.reads hstop)
  | _, _, .whileLoop n he hb => statementReads_whileLoop n he (hb.reads hstop)
  | _, _, .forLoop counter named n hfirst hbound hb =>
    statementReads_forLoop counter named n hfirst hbound (hb.reads hstop)
  | _, _, .subroutine name n hty hparams hb =>
    statementReads_subroutine name n hty hparams (hb.reads hstop)

theorem Conditional.reads (hstop : input.stop.kind = .eof) :
    ∀ {ts : List Kind} {condition : Bare.Expr} {body : List Bare.Stmt} {rest : Bare.ElsePart},
      Conditional ts condition body rest → ConditionalReads input ts condition body rest
  | _, _, _, _, .arm n he hb hr => conditionalReads_arm n he (hb.reads hstop) (hr.reads hstop)

theorem Rest.reads (hstop : input.stop.kind = .eof) :
    ∀ {ts : List Kind} {rest : Bare.ElsePart}, Rest ts rest → RestReads input ts rest
  | _, _, .none => .none
  | _, _, .body n hb => .body n (hb.reads hstop)
  | _, _, .elseIf h => .elseIf h.starts (h.reads hstop)

theorem Block.reads (hstop : input.stop.kind = .eof) :
    ∀ {ts : List Kind} {body : List Bare.Stmt}, Block ts body → BlockReads input ts body
  | _, _, .nil => blockReads_nil
  | _, _, .cons n hst hb => blockReads_cons n hst.starts (hst.reads hstop) (hb.reads hstop)

end

end Phrase

/-! ### Programs -/

namespace Grammar

open Analysis

theorem statements_breaks {n : Nat} (hc : c.kinds = breaks n) :
    Ends (SourceError.Shown input.kinds) (statements c) fun found => bareAll found = [] := by
  have hkinds : c.kinds = breaks n ++ [] := by rw [hc, List.append_nil]
  have hstart := Cursor.skipNewlines_of_kinds hkinds (by simp)
  rw [statements]
  generalize c.skipNewlines = start at hstart
  obtain ⟨c₁, h₁⟩ := start
  dsimp only at hstart ⊢
  rw [if_pos (Cursor.atEnd_iff.2 hstart)]
  exact .pure rfl

/-- A program is read statement by statement. -/
theorem statements_cons (hstop : input.stop.kind = .eof) {rest : List Bare.Stmt}
    (hst : Statement ts st) {m : Nat}
    (hc : c.kinds = breaks m ++ (ts ++ us)) (hus : EndsLine us) (hlast : us = [] → rest = [])
    (hmore : ∀ (d : Cursor input) vs, us = .newline :: vs → d.kinds = vs →
      Ends (SourceError.Shown input.kinds) (statements d) fun found => bareAll found = rest) :
    Ends (SourceError.Shown input.kinds) (statements c) fun found => bareAll found =
    st :: rest := by
  obtain ⟨k, ks, rfl, hk⟩ := hst.starts
  have hnewline : k ≠ .newline := by
    rintro rfl
    cases hk
  have hstart := Cursor.skipNewlines_of_kinds hc (by simpa using hnewline)
  rw [statements]
  generalize c.skipNewlines = start at hstart
  obtain ⟨c₁, h₁⟩ := start
  dsimp only at hstart ⊢
  rw [if_neg (by rw [Cursor.atEnd_iff, hstart]; simp)]
  refine (hst.reads hstop .top c₁ us hstart hus).bind fun found c₂ hfound hc₂ _ => ?_
  dsimp only
  by_cases hend : c₂.atEnd = true
  · rw [if_pos hend]
    rw [Cursor.atEnd_iff, hc₂] at hend
    refine .pure ?_
    show [found.bare] = _
    rw [hfound, hlast hend]
  · rw [if_neg hend]
    cases hvs : us with
    | nil => exact absurd (Cursor.atEnd_iff.2 (hc₂.trans hvs)) hend
    | cons k' vs =>
      obtain rfl : k' = .newline := hus k' (by rw [hvs]; rfl)
      refine expect_read (hc₂.trans hvs) fun c₃ hc₃ _ => ?_
      refine (hmore c₃ vs hvs hc₃).bind fun others hothers => .pure ?_
      show found.bare :: bareAll others = _
      rw [hfound, hothers]

theorem statements_lines (hstop : input.stop.kind = .eof) (h : Lines ts sts) :
    ∀ (c : Cursor input) (m n : Nat), c.kinds = breaks m ++ (ts ++ breaks n) →
      Ends (SourceError.Shown input.kinds) (statements c) fun found => bareAll found = sts := by
  induction h with
  | one hst =>
    intro c m n hc
    refine statements_cons hstop hst hc (endsLine_breaks n) (fun _ => rfl) fun d vs hvs hd => ?_
    cases n with
    | zero => cases hvs
    | succ n =>
      rw [breaks_succ, List.cons.injEq] at hvs
      exact statements_breaks (hd.trans hvs.2.symm)
  | @more ts us st rest k hst _ ih =>
    intro c m n hc
    have hc' : c.kinds = breaks m ++ (ts ++ .newline :: (breaks k ++ (us ++ breaks n))) := by
      rw [hc]
      simp [breaks_succ]
    refine statements_cons hstop hst hc' (endsLine_newline _) (fun hnil => nomatch hnil)
      fun d vs hvs hd => ?_
    rw [List.cons.injEq] at hvs
    exact ih d k n (hd.trans hvs.2.symm)

/-- A program that is derived is read, or there is something in it that it is rejected for. -/
theorem statements_shown (hstop : input.stop.kind = .eof) (h : Phrase.Program c.kinds sts) :
    Ends (SourceError.Shown input.kinds) (statements c) fun found => bareAll found = sts := by
  generalize hc : c.kinds = ts at h
  cases h with
  | empty m n => exact statements_breaks (n := m + n) (by rw [hc]; simp [breaks])
  | lines m n hlines => exact statements_lines hstop hlines c m n (by rw [hc, List.append_assoc])

/-- **A program that is derived is read.** -/
theorem statements_read (hstop : input.stop.kind = .eof) (h : Phrase.Program c.kinds sts) :
    Ends SourceError.BeyondGrammar (statements c) fun found => bareAll found = sts :=
  Triple.mono (statements_shown hstop h) (fun _ => id) (fun _ _ => id) fun _ he => he.beyondGrammar

end Grammar

theorem rest_start {tokens : List Token} {stop : Token} (htokens : ∀ t ∈ tokens, t.kind ≠ .eof)
    (hstop : stop.kind = .eof) :
    (Cursor.start (.ofTokens (tokens ++ [stop]))).rest = tokens ∧
    (Input.ofTokens (tokens ++ [stop])).stop = stop := by
  have htake : (tokens ++ [stop]).takeWhile (fun t => t.kind != .eof) = tokens := by
    rw [List.takeWhile_append_of_pos (by simpa using htokens)]
    simp [hstop]
  have hfind : (tokens ++ [stop]).find? (fun t => t.kind == .eof) = some stop := by
    rw [List.find?_append, List.find?_eq_none.mpr (by simpa using htokens)]
    simp [hstop]
  constructor
  · show ((tokens ++ [stop]).takeWhile fun t => t.kind != .eof).toArray.toList.drop 0 = _
    rw [htake]
    rfl
  · show ((tokens ++ [stop]).find? fun t => t.kind == .eof).getD _ = stop
    rw [hfind]
    rfl

theorem kinds_start {tokens : List Token} {stop : Token} (htokens : ∀ t ∈ tokens, t.kind ≠ .eof)
    (hstop : stop.kind = .eof) :
    (Cursor.start (.ofTokens (tokens ++ [stop]))).kinds = tokens.map Token.kind ∧
      (Input.ofTokens (tokens ++ [stop])).stop.kind = .eof := by
  obtain ⟨hrest, hend⟩ := rest_start htokens hstop
  rw [Cursor.kinds, hrest, hend]
  exact ⟨rfl, hstop⟩

/-- **The grammar is followed.**  What is read of the tokens before the end is derived by the rules,
as the tree that is given.  And what is derived is read as its tree, or the program is rejected for
a reason that the grammar does not speak of: an undefined name, a fault of types, or one of the five
faults of `BeyondGrammar`. -/
theorem parse_follows_grammar {tokens : List Token} {stop : Token}
    (htokens : ∀ t ∈ tokens, t.kind ≠ .eof) (hstop : stop.kind = .eof) :
    (∀ p, parse (tokens ++ [stop]) = .ok p → Phrase.Program (tokens.map Token.kind) (bareAll p)) ∧
      ∀ tree, Phrase.Program (tokens.map Token.kind) tree →
        (∀ position fault, parse (tokens ++ [stop]) = .error (.grammar position fault) →
          fault.BeyondGrammar) ∧ ∀ p, parse (tokens ++ [stop]) = .ok p → bareAll p = tree := by
  obtain ⟨hkinds, hend⟩ := kinds_start htokens hstop
  constructor
  · intro p hp
    rw [← hkinds]
    exact program_of_parse hp
  · intro tree htree
    rw [← hkinds] at htree
    have hread := Grammar.statements_read hend htree {} trivial
    exact ⟨fun position fault hfault => hread.2 _ hfault, fun p hp => hread.1 p _ (Prod.ext hp rfl)⟩

/-- A chain of arms after a target with an index, with brackets and signs in the expressions. -/
def indexedChain : List Kind :=
  [.newline, .keyword .int, .name "a", .mark .leftBracket, .int 3, .mark .rightBracket, .newline,
    .newline,
   .name "a", .mark .leftBracket, .int 1, .mark .rightBracket, .mark .assign,
   .mark .minus, .int 2, .mark .star, .mark .leftParen, .int 3, .mark .minus, .int 1,
   .mark .rightParen, .newline,
   .keyword .ifWord, .name "a", .mark .leftBracket, .int 1, .mark .rightBracket,
   .mark .less, .int 0,
   .keyword .thenWord, .newline, .keyword .elseWord, .keyword .ifWord, .int 1, .keyword .thenWord,
   .newline, .name "a", .mark .leftBracket, .int 0, .mark .rightBracket, .newline,
   .keyword .elseWord, .newline, .newline, .keyword .endIf]

theorem indexedChain_follows_grammar :
    ∃ p, parse (indexedChain.map (⟨.start, ·, ""⟩) ++ [⟨.start, .eof, ""⟩]) = .ok p ∧
      p.map Stmt.label = ["array declaration", "assignment", "IF"] ∧
      Phrase.Program indexedChain (bareAll p) := by
  have hok : (parse (indexedChain.map (⟨.start, ·, ""⟩) ++ [⟨.start, .eof, ""⟩])).toOption.map
    (List.map Stmt.label) =
      some ["array declaration", "assignment", "IF"] := by decide +kernel
  obtain ⟨p, hp, hlabels⟩ := Option.map_eq_some_iff.mp hok
  have hparse := eq_ok_of_toOption hp
  exact ⟨p, hparse, hlabels, (parse_follows_grammar (by decide) rfl).1 p hparse⟩

end Pseudocode
