import Pseudocode.Proofs.Grammar.Statements
import Pseudocode.Proofs.Grammar.Targets

/-!
Expressions that are derived are read.

A derivation says what the reader will do, given what follows: the tokens of an expression are read
as its tree, as long as the next token cannot continue an expression.  The reader may still reject
the program, for a reason that the grammar does not speak of (`BeyondGrammar`), but not because of a
token that it did not expect.

For each kind of phrase there is a predicate that says how it is read, and for each rule a lemma
that gives the predicate of the whole from those of its parts.  Derivations are then followed by
structural recursion.  Since operators associate to the left, what is said of a sum is how the
reader goes on after it, and not where it stops.
-/

namespace Pseudocode

variable {k : Kind} {m : Mark} {op : BinaryOp} {e arg lhs rhs : Bare.Expr} {ts : List Kind}
  {args : List Bare.Expr}

/-- The grammar does not speak of this fault. -/
def SyntaxFault.BeyondGrammar : SyntaxFault → Prop
  | .returnOutside => True
  | .nestedSubroutine _ => True
  | .nextMismatch _ _ => True
  | .duplicateParam _ => True
  | .wideLiteral _ => True
  | _ => False

/-- The error is no departure from the grammar. -/
def SourceError.BeyondGrammar : SourceError → Prop
  | .grammar _ fault => fault.BeyondGrammar
  | _ => True

/-- What the error says has something to do with the text: there is what it could be about. -/
def SourceError.Shown (ks : List Kind) : SourceError → Prop
  | .undefinedSubroutine name _ => [.name name, .mark .leftParen] <:+: ks
  | .grammar _ .returnOutside => .keyword .returnWord ∈ ks
  | .grammar _ (.nestedSubroutine _) => .keyword .subroutine ∈ ks
  | .grammar _ (.duplicateParam _) => .keyword .subroutine ∈ ks
  | .grammar _ (.nextMismatch _ _) => .keyword .next ∈ ks
  | .grammar _ (.wideLiteral _) => ∃ value, .int value ∈ ks ∧ Grammar.word? value = none
  | e => e.OfValues

theorem SourceError.Shown.beyondGrammar {ks : List Kind} {e : SourceError} (h : e.Shown ks) :
    e.BeyondGrammar := by
  cases e with
  | grammar position fault => cases fault <;> trivial
  | _ => trivial

theorem lenient_shown (ks : List Kind) : Lenient (SourceError.Shown ks) := by
  intro e h
  cases e with
  | grammar position fault => exact h.elim
  | undefinedSubroutine name line => exact h.elim
  | _ => trivial

/-! ### What follows -/

/-- No bracket opens here. -/
def NoBracket (us : List Kind) : Prop :=
  us.head? ≠ some (.mark .leftParen) ∧ us.head? ≠ some (.mark .leftBracket)

/-- None of these signs stands here. -/
def NoSign (signs : Mark → BinaryOp → Prop) (us : List Kind) : Prop :=
  ∀ m op, signs m op → us.head? ≠ some (.mark m)

/-- Can a token of this kind continue an expression? -/
def Kind.continues : Kind → Bool
  | .mark .rightParen | .mark .rightBracket | .mark .comma | .mark .assign => false
  | .mark _ => true
  | _ => false

/-- Nothing that stands here can continue an expression. -/
def Stops (us : List Kind) : Prop :=
  ∀ k, us.head? = some k → k.continues = false

namespace Stops

variable {us : List Kind}

theorem cons (h : k.continues = false) : Stops (k :: us) := by
  intro k' hk'
  cases hk'
  exact h

theorem noBracket (h : Stops us) : NoBracket us :=
  ⟨fun hhead => (nomatch h _ hhead), fun hhead => (nomatch h _ hhead)⟩

theorem noSign (h : Stops us) :
    NoSign Phrase.Compares us ∧ NoSign Phrase.Adds us ∧ NoSign Phrase.Multiplies us := by
  refine ⟨?_, ?_, ?_⟩ <;> intro m op hm hhead <;> cases hm <;> exact nomatch h _ hhead

end Stops

namespace Grammar

open Analysis Phrase

variable {input : Input} {scope : Scope} {α : Type}

/-- What is read satisfies `R`, and these kinds are left. -/
abbrev ReadsAs {P : Cursor input → Prop} (m : Analysis (α × { d : Cursor input // P d }))
    (R : α → Prop) (us : List Kind) : Prop :=
  Ends (SourceError.Shown input.kinds) m fun r => R r.1 ∧ r.2.val.kinds = us

theorem ReadsAs.bind {β : Type} {P : Cursor input → Prop}
    {m : Analysis (α × { d : Cursor input // P d })}
    {R : α → Prop} {us : List Kind} {f : α × { d : Cursor input // P d } → Analysis β}
    {Q : β → Prop} (hm : ReadsAs m R us)
    (hf : ∀ a d, R a → d.kinds = us →
      ∀ hd, Ends (SourceError.Shown input.kinds) (f (a, ⟨d, hd⟩)) Q) :
    Ends (SourceError.Shown input.kinds) (m >>= f) Q :=
  Ends.bind hm fun r h => hf r.1 r.2.val h.1 h.2 r.2.property

section

variable (input)

def ExpressionReads (ts : List Kind) (e : Bare.Expr) : Prop :=
  ∀ (scope : Scope) (c : Cursor input) (us : List Kind), c.kinds = ts ++ us → Stops us →
    ReadsAs (expression scope c) (fun found => found.bare = e) us

/-- However the reader goes on after these tokens. -/
def SumReads (ts : List Kind) (e : Bare.Expr) : Prop :=
  ∀ (scope : Scope) (c : Cursor input) (us vs : List Kind) (R : Expr → Prop), c.kinds = ts ++ us →
    NoBracket us → NoSign Multiplies us →
    (∀ (lhs : Expr) (d : Cursor input), lhs.bare = e → d.kinds = us →
      ReadsAs (sumRest scope lhs d) R vs) →
    ReadsAs (sum scope c) R vs

def ProductReads (ts : List Kind) (e : Bare.Expr) : Prop :=
  ∀ (scope : Scope) (c : Cursor input) (us vs : List Kind) (R : Expr → Prop), c.kinds = ts ++ us →
    NoBracket us →
    (∀ (lhs : Expr) (d : Cursor input), lhs.bare = e → d.kinds = us →
      ReadsAs (productRest scope lhs d) R vs) →
    ReadsAs (product scope c) R vs

def SignedReads (ts : List Kind) (e : Bare.Expr) : Prop :=
  ∀ (scope : Scope) (c : Cursor input) (us : List Kind), c.kinds = ts ++ us → NoBracket us →
    ReadsAs (signed scope c) (fun found => found.bare = e) us

def AtomReads (ts : List Kind) (e : Bare.Expr) : Prop :=
  ∀ (scope : Scope) (c : Cursor input) (us : List Kind), c.kinds = ts ++ us → NoBracket us →
    ReadsAs (atom scope c) (fun found => found.bare = e) us

def ArgumentsRead (ts : List Kind) (args : List Bare.Expr) : Prop :=
  ∀ (scope : Scope) (c : Cursor input) (us : List Kind), c.kinds = ts ++ .mark .rightParen :: us →
    ReadsAs (arguments scope c) (fun found => bareArguments found = args) us

def MoreArgumentsRead (ts : List Kind) (args : List Bare.Expr) : Prop :=
  ∀ (scope : Scope) (c : Cursor input) (us : List Kind), c.kinds = ts ++ .mark .rightParen :: us →
    ReadsAs (moreArguments scope c) (fun found => bareArguments found = args) us

end

theorem noBracket_sign (h : Compares m op ∨ Adds m op ∨ Multiplies m op) (us : List Kind) :
    NoBracket (.mark m :: us) := by
  rcases h with h | h | h <;> cases h <;> simp [NoBracket]

theorem noSign_of_disjoint {signs signs' : Mark → BinaryOp → Prop}
    (hapart : ∀ {m op op'}, signs m op → ¬ signs' m op') (h : signs m op) (us : List Kind) :
    NoSign signs' (.mark m :: us) := by
  intro m' op' hm' hhead
  cases hhead
  exact hapart h hm'

/-! ### Atoms -/

theorem step?_constant?_eq_none {c : Cursor input} {ks : List Kind} (hc : c.kinds = k :: ks)
    (hk : k.constant? = none) : c.step? constant? = none := by
  obtain ⟨d, hpeek, -, hstep⟩ := Cursor.step?_of_kinds hc
  rw [hstep, constant?_eq_none (hpeek ▸ hk)]
  rfl

theorem atomReads_constant (hk : k.constant? = some e) : AtomReads input [k] e := by
  intro scope c us hc _
  obtain ⟨d, rfl, hd, hstep⟩ := Cursor.step?_of_kinds hc
  obtain ⟨m, hm, hends⟩ := constant?_of_kind hk
  rw [atom, hstep, hm]
  refine (hends _ fun value hvalue hword => ⟨value, ?_, hword⟩).bind fun found hfound => .pure
    ⟨hfound, hd⟩
  exact c.mem_kinds (by simp [hc, hvalue])

theorem atomReads_var (name : String) : AtomReads input [.name name] (.var name) := by
  intro scope c us hc hus
  rw [atom, step?_constant?_eq_none hc rfl, Cursor.skip?_eq_none (by simp [hc])]
  refine expectName_read hc fun c₁ hc₁ _ => ?_
  dsimp only
  rw [Cursor.skip?_eq_none (hc₁ ▸ hus.1), Cursor.skip?_eq_none (hc₁ ▸ hus.2)]
  exact ends_env.bind fun env _ => .pure ⟨rfl, hc₁⟩

theorem atomReads_element (name : String) (he : ExpressionReads input ts e) :
    AtomReads input (.name name :: .mark .leftBracket :: (ts ++ [.mark .rightBracket]))
    (.element name e) := by
  intro scope c us hc _
  rw [atom, step?_constant?_eq_none hc rfl, Cursor.skip?_eq_none (by simp [hc])]
  refine expectName_read hc fun c₁ hc₁ _ => ?_
  obtain ⟨⟨c₂, h₂⟩, hskip, hc₂⟩ := Cursor.skip?_of_kinds hc₁
  dsimp only
  rw [Cursor.skip?_eq_none (by simp [hc₁]), hskip]
  refine (he scope c₂ (.mark .rightBracket :: us) (by simpa using hc₂) (.cons rfl)).bind
    fun index c₃ hindex hc₃ _ => ?_
  refine expect_read hc₃ fun c₄ hc₄ _ => ?_
  refine ends_env.bind fun env _ => (ends_readElement (lenient_shown _)).bind fun found hfound => ?_
  exact .pure ⟨by rw [hfound, hindex], hc₄⟩

theorem atomReads_call (name : String) (hargs : ArgumentsRead input ts args) :
    AtomReads input (.name name :: .mark .leftParen :: (ts ++ [.mark .rightParen]))
    (.call name args) := by
  intro scope c us hc _
  have hcalled : [.name name, .mark .leftParen] <:+: input.kinds :=
    (List.prefix_append _ _).isInfix.trans (hc ▸ c.kinds_suffix).isInfix
  rw [atom, step?_constant?_eq_none hc rfl, Cursor.skip?_eq_none (by simp [hc])]
  refine expectName_read hc fun c₁ hc₁ _ => ?_
  obtain ⟨⟨c₂, h₂⟩, hskip, hc₂⟩ := Cursor.skip?_of_kinds hc₁
  dsimp only
  rw [hskip]
  refine (hargs scope c₂ us (by simpa using hc₂)).bind fun found c₃ hfound hc₃ _ => ?_
  refine ends_env.bind fun env _ => (ends_call (lenient_shown _) hcalled).bind fun e he => ?_
  exact .pure ⟨by rw [he, hfound], hc₃⟩

theorem atomReads_parens (he : ExpressionReads input ts e) :
    AtomReads input (.mark .leftParen :: (ts ++ [.mark .rightParen])) e := by
  intro scope c us hc _
  obtain ⟨⟨c₁, h₁⟩, hskip, hc₁⟩ := Cursor.skip?_of_kinds hc
  rw [atom, step?_constant?_eq_none hc rfl, hskip]
  refine (he scope c₁ (.mark .rightParen :: us) (by simpa using hc₁) (.cons rfl)).bind
    fun found c₂ hfound hc₂ _ => ?_
  refine expect_read hc₂ fun c₃ hc₃ _ => ?_
  exact .pure ⟨hfound, hc₃⟩

theorem moreArgumentsRead_one (harg : ExpressionReads input ts arg) :
    MoreArgumentsRead input ts [arg] := by
  intro scope c us hc
  rw [moreArguments]
  refine (harg scope c _ hc (.cons rfl)).bind fun found c₁ hfound hc₁ _ => ?_
  dsimp only
  rw [Cursor.skip?_eq_none (by simp [hc₁])]
  refine expect_read hc₁ fun c₂ hc₂ _ => ?_
  exact .pure ⟨by simp [bareArguments, hfound], hc₂⟩

theorem moreArgumentsRead_more {us : List Kind} (harg : ExpressionReads input ts arg)
    (hargs : MoreArgumentsRead input us args) :
    MoreArgumentsRead input (ts ++ .mark .comma :: us) (arg :: args) := by
  intro scope c vs hc
  rw [List.append_assoc] at hc
  rw [moreArguments]
  refine (harg scope c _ hc (.cons rfl)).bind fun found c₁ hfound hc₁ _ => ?_
  dsimp only
  obtain ⟨⟨c₂, h₂⟩, hskip, hc₂⟩ := Cursor.skip?_of_kinds hc₁
  rw [hskip]
  refine (hargs scope c₂ vs hc₂).bind fun rest c₃ hrest hc₃ _ => ?_
  exact .pure ⟨by simp [bareArguments, hfound, hrest], hc₃⟩

theorem argumentsRead_none : ArgumentsRead input [] [] := by
  intro scope c us hc
  obtain ⟨d, hskip, hd⟩ := Cursor.skip?_of_kinds hc
  rw [arguments, hskip]
  exact .pure ⟨rfl, hd⟩

theorem argumentsRead_some (hstart : StartsExpression ts)
    (hargs : MoreArgumentsRead input ts args) : ArgumentsRead input ts args := by
  intro scope c us hc
  have hhead : c.kinds.head? ≠ some (.mark .rightParen) := by
    obtain ⟨k, ks, rfl, hk⟩ := hstart
    rw [hc]
    intro heq
    cases heq
    cases hk
  rw [arguments, Cursor.skip?_eq_none hhead]
  exact hargs scope c us hc

/-! ### Operators -/

theorem signedReads_minus (he : SignedReads input ts e) :
    SignedReads input (.mark .minus :: ts) (.negate e) := by
  intro scope c us hc hus
  obtain ⟨⟨c₁, h₁⟩, hskip, hc₁⟩ := Cursor.skip?_of_kinds hc
  rw [signed, hskip]
  refine (he scope c₁ us hc₁ hus).bind fun operand c₂ hoperand hc₂ _ => ?_
  refine (ends_negated (lenient_shown _)).bind fun found hfound => ?_
  exact .pure ⟨hfound.trans (congrArg Bare.Expr.negate hoperand), hc₂⟩

theorem signedReads_atom (hstart : ∀ us, (ts ++ us).head? ≠ some (.mark .minus))
    (he : AtomReads input ts e) : SignedReads input ts e := by
  intro scope c us hc hus
  rw [signed, Cursor.skip?_eq_none (hc ▸ hstart us)]
  exact he scope c us hc hus

theorem productReads_signed (he : SignedReads input ts e) : ProductReads input ts e := by
  intro scope c us vs R hc hus hrest
  rw [product]
  refine (he scope c us hc hus).bind fun lhs c₁ hlhs hc₁ _ => ?_
  exact (hrest lhs c₁ hlhs hc₁).bind fun _ _ hall hleft _ => .pure ⟨hall, hleft⟩

theorem productReads_step {us : List Kind} (hlhs : ProductReads input ts lhs) (hm : Multiplies m op)
    (hrhs : SignedReads input us rhs) :
    ProductReads input (ts ++ .mark m :: us) (.binary op lhs rhs) := by
  intro scope c vs ws R hc hvs hrest
  rw [List.append_assoc] at hc
  refine hlhs scope c _ ws R hc (noBracket_sign (.inr (.inr hm)) _) fun left d hleft hd => ?_
  -- The sign is read, then the right operand, and the reader goes on with both.
  obtain ⟨line, ⟨c₁, h₁⟩, hop, hc₁⟩ := operator?_of_kinds hd (lookup_multiplications.2 hm)
  rw [productRest, hop]
  refine (hrhs scope c₁ vs hc₁ hvs).bind fun right c₂ hright hc₂ _ => ?_
  refine (ends_combine (lenient_shown _)).bind fun both hboth => ?_
  exact (hrest both c₂ (by rw [hboth, hleft, hright]) hc₂).bind fun _ _ hall hleft _ => .pure
    ⟨hall, hleft⟩

/-- A product ends where no sign of a product stands. -/
theorem productReads_ends {us : List Kind} (h : ProductReads input ts e) {c : Cursor input}
    (hc : c.kinds = ts ++ us) (hbracket : NoBracket us) (hus : NoSign Multiplies us) :
    ReadsAs (product scope c) (fun found => found.bare = e) us := by
  refine h scope c us us _ hc hbracket fun lhs d hlhs hd => ?_
  rw [productRest, operator?_eq_none fun m hm => ?_]
  · exact .pure ⟨hlhs, hd⟩
  · rw [hd] at hm
    cases hlookup : multiplications.lookup m with
    | none => rfl
    | some op => exact absurd hm (hus m op (lookup_multiplications.1 hlookup))

theorem sumReads_product (he : ProductReads input ts e) : SumReads input ts e := by
  intro scope c us vs R hc hus hsign hrest
  rw [sum]
  refine (productReads_ends he hc hus hsign).bind fun lhs c₁ hlhs hc₁ _ => ?_
  exact (hrest lhs c₁ hlhs hc₁).bind fun _ _ hall hleft _ => .pure ⟨hall, hleft⟩

theorem sumReads_step {us : List Kind} (hlhs : SumReads input ts lhs) (hm : Adds m op)
    (hrhs : ProductReads input us rhs) :
    SumReads input (ts ++ .mark m :: us) (.binary op lhs rhs) := by
  intro scope c vs ws R hc hvs hsign hrest
  rw [List.append_assoc] at hc
  have hapart : NoSign Multiplies (.mark m :: (us ++ vs)) :=
    noSign_of_disjoint (fun h h' => by cases h <;> cases h') hm _
  refine hlhs scope c _ ws R hc (noBracket_sign (.inr (.inl hm)) _) hapart fun left d hleft hd => ?_
  obtain ⟨line, ⟨c₁, h₁⟩, hop, hc₁⟩ := operator?_of_kinds hd (lookup_additions.2 hm)
  rw [sumRest, hop]
  refine (productReads_ends hrhs hc₁ hvs hsign).bind fun right c₂ hright hc₂ _ => ?_
  refine (ends_combine (lenient_shown _)).bind fun both hboth => ?_
  exact (hrest both c₂ (by rw [hboth, hleft, hright]) hc₂).bind fun _ _ hall hleft _ => .pure
    ⟨hall, hleft⟩

/-- A sum ends where no sign of a sum or of a product stands. -/
theorem sumReads_ends {us : List Kind} (h : SumReads input ts e) {c : Cursor input}
    (hc : c.kinds = ts ++ us)
    (hbracket : NoBracket us) (hmul : NoSign Multiplies us) (hus : NoSign Adds us) :
    ReadsAs (sum scope c) (fun found => found.bare = e) us := by
  refine h scope c us us _ hc hbracket hmul fun lhs d hlhs hd => ?_
  rw [sumRest, operator?_eq_none fun m hm => ?_]
  · exact .pure ⟨hlhs, hd⟩
  · rw [hd] at hm
    cases hlookup : additions.lookup m with
    | none => rfl
    | some op => exact absurd hm (hus m op (lookup_additions.1 hlookup))

theorem expressionReads_sum (he : SumReads input ts e) : ExpressionReads input ts e := by
  intro scope c us hc hus
  obtain ⟨hcompare, hadd, hmul⟩ := hus.noSign
  rw [expression]
  refine (sumReads_ends he hc hus.noBracket hmul hadd).bind fun lhs c₁ hlhs hc₁ _ => ?_
  dsimp only
  rw [operator?_eq_none fun m hm => ?_]
  · exact .pure ⟨hlhs, hc₁⟩
  · rw [hc₁] at hm
    cases hlookup : comparisons.lookup m with
    | none => rfl
    | some op => exact absurd hm (hcompare m op (lookup_comparisons.1 hlookup))

theorem expressionReads_comparison {us : List Kind} (hlhs : SumReads input ts lhs)
    (hm : Compares m op)
    (hrhs : SumReads input us rhs) :
    ExpressionReads input (ts ++ .mark m :: us) (.binary op lhs rhs) := by
  intro scope c vs hc hvs
  obtain ⟨-, hadd, hmul⟩ := hvs.noSign
  rw [List.append_assoc] at hc
  have hnotAdd : NoSign Adds (.mark m :: (us ++ vs)) :=
    noSign_of_disjoint (fun h h' => by cases h <;> cases h') hm _
  have hnotMul : NoSign Multiplies (.mark m :: (us ++ vs)) :=
    noSign_of_disjoint (fun h h' => by cases h <;> cases h') hm _
  rw [expression]
  refine (sumReads_ends hlhs hc (noBracket_sign (.inl hm) _) hnotMul hnotAdd).bind
    fun left c₁ hleft hc₁ _ => ?_
  dsimp only at hleft hc₁ ⊢
  obtain ⟨line, ⟨c₂, h₂⟩, hop, hc₂⟩ := operator?_of_kinds hc₁ (lookup_comparisons.2 hm)
  rw [hop]
  refine (sumReads_ends hrhs hc₂ hvs.noBracket hmul hadd).bind fun right c₃ hright hc₃ _ => ?_
  refine (ends_combine (lenient_shown _)).bind fun both hboth => ?_
  exact .pure ⟨by rw [hboth, hleft, hright], hc₃⟩

end Grammar

/-! ### Derivations of expressions -/

namespace Phrase

open Grammar

variable {input : Input}

theorem Atom.head?_ne_minus (h : Atom ts e) (us : List Kind) :
    (ts ++ us).head? ≠ some (.mark .minus) := by
  cases h <;> simp

theorem MoreArguments.starts (h : MoreArguments ts args) : StartsExpression ts := by
  cases h with
  | one h => exact h.starts
  | more h _ => exact h.starts.append _

mutual

/-- **An expression that is derived is read.** -/
theorem Expression.reads : ∀ {ts : List Kind} {e : Bare.Expr}, Expression ts e →
    ExpressionReads input ts e
  | _, _, .sum h => expressionReads_sum h.reads
  | _, _, .comparison hlhs hm hrhs => expressionReads_comparison hlhs.reads hm hrhs.reads

theorem Sum.reads : ∀ {ts : List Kind} {e : Bare.Expr}, Sum ts e → SumReads input ts e
  | _, _, .product h => sumReads_product h.reads
  | _, _, .step hlhs hm hrhs => sumReads_step hlhs.reads hm hrhs.reads

theorem Product.reads : ∀ {ts : List Kind} {e : Bare.Expr}, Product ts e → ProductReads input ts e
  | _, _, .signed h => productReads_signed h.reads
  | _, _, .step hlhs hm hrhs => productReads_step hlhs.reads hm hrhs.reads

theorem Signed.reads : ∀ {ts : List Kind} {e : Bare.Expr}, Signed ts e → SignedReads input ts e
  | _, _, .atom h => signedReads_atom h.head?_ne_minus h.reads
  | _, _, .minus h => signedReads_minus h.reads

theorem Atom.reads : ∀ {ts : List Kind} {e : Bare.Expr}, Atom ts e → AtomReads input ts e
  | _, _, .int _ => atomReads_constant rfl
  | _, _, .double _ => atomReads_constant rfl
  | _, _, .string _ => atomReads_constant rfl
  | _, _, .var name => atomReads_var name
  | _, _, .element name h => atomReads_element name h.reads
  | _, _, .call name h => atomReads_call name h.reads
  | _, _, .parens h => atomReads_parens h.reads

theorem Arguments.reads : ∀ {ts : List Kind} {args : List Bare.Expr}, Arguments ts args →
    ArgumentsRead input ts args
  | _, _, .none => argumentsRead_none
  | _, _, .some h => argumentsRead_some h.starts h.reads

theorem MoreArguments.reads :
    ∀ {ts : List Kind} {args : List Bare.Expr}, MoreArguments ts args →
    MoreArgumentsRead input ts args
  | _, _, .one h => moreArgumentsRead_one h.reads
  | _, _, .more h hrest => moreArgumentsRead_more h.reads hrest.reads

end

end Phrase

end Pseudocode
