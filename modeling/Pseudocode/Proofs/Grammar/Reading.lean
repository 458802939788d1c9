import Pseudocode.Grammar.Statement
import Pseudocode.Proofs.Grammar.Derivation
import Pseudocode.Proofs.Typing.Agreement

/-!
Steps of reading, as the rules of the grammar see them.

To the grammar a place in the input is the list of the kinds that are left (`Cursor.kinds`).  Here
is what each step of reading does to that list, from a single token up to the nodes that are built,
in a form that serves both directions: that what is read is derived, and that what is derived is
read.  So a step is described by `Ends`, with any condition on errors that admits the errors about
values (`Lenient`).
-/

namespace Pseudocode

open Phrase

variable {t : Token} {k : Kind} {ks us : List Kind} {m : Mark} {position name what : String}
  {symbol : Symbol} {args : List Expr}

/-! ### The kinds that are left -/

/-- The kinds of all tokens. -/
def Input.kinds (input : Input) : List Kind :=
  input.tokens.toList.map Token.kind

theorem Input.kind_stop (tokens : List Token) : (Input.ofTokens tokens).stop.kind = .eof := by
  show ((tokens.find? fun t => t.kind == .eof).getD _).kind = .eof
  cases hfind : tokens.find? fun t => t.kind == .eof with
  | none => rfl
  | some stop => simpa using List.find?_some hfind

namespace Cursor

variable {input : Input} {c : Cursor input} {α : Type}

/-- The kinds of the tokens that are left. -/
def kinds (c : Cursor input) : List Kind :=
  c.rest.map Token.kind

theorem kinds_suffix (c : Cursor input) : c.kinds <:+ input.kinds := by
  unfold kinds rest Input.kinds
  rw [List.map_drop]
  exact List.drop_suffix _ _

theorem mem_kinds (c : Cursor input) (h : k ∈ c.kinds) : k ∈ input.kinds :=
  c.kinds_suffix.subset h

theorem kinds_of_step? {test : Token → Option α} {a : α} {d : c.After}
    (h : c.step? test = some (a, d)) :
    c.kinds = c.peek.kind :: d.val.kinds ∧ test c.peek = some a := by
  obtain ⟨hrest, htest⟩ := rest_eq_cons h
  refine ⟨?_, htest⟩
  unfold kinds
  rw [hrest, List.map_cons]

theorem kinds_of_skip? {k : Kind} {d : c.After} (h : c.skip? k = some d) :
    c.kinds = k :: d.val.kinds := by
  obtain ⟨⟨u, d'⟩, hstep, rfl⟩ := Option.map_eq_some_iff.mp h
  obtain ⟨hkinds, htest⟩ := kinds_of_step? hstep
  split at htest
  next hkind => rw [hkinds, hkind]
  next => simp at htest

theorem step?_of_rest {ts : List Token} (h : c.rest = t :: ts) : ∃ d : c.After, c.peek = t ∧
    d.val.rest = ts ∧ ∀ {α : Type} (test : Token → Option α),
    c.step? test = (test c.peek).map (·, d) := by
  have hlt : c.read < input.tokens.size := by
    have hlength := congrArg List.length h
    rw [length_rest, List.length_cons] at hlength
    unfold left at hlength
    omega
  have hdrop :=
    List.drop_eq_getElem_cons (l := input.tokens.toList) (i := c.read) (by simpa using hlt)
  unfold rest at h
  rw [h, List.cons.injEq] at hdrop
  have hpeek : c.peek = input.tokens[c.read] := by simp [peek, hlt]
  refine ⟨⟨⟨c.read + 1, hlt⟩, by simp only [left]; omega⟩, ?_, hdrop.2.symm, fun test => ?_⟩
  · rw [hpeek, hdrop.1]
    simp
  · unfold step?
    rw [dif_pos hlt, hpeek]

theorem step?_of_kinds (h : c.kinds = k :: ks) : ∃ d : c.After, c.peek.kind = k ∧
    d.val.kinds = ks ∧ ∀ {α : Type} (test : Token → Option α),
    c.step? test = (test c.peek).map (·, d) := by
  obtain ⟨t, ts, hrest, rfl, rfl⟩ := List.map_eq_cons_iff.mp h
  obtain ⟨d, rfl, rfl, hstep⟩ := step?_of_rest hrest
  exact ⟨d, rfl, rfl, hstep⟩

theorem skip?_of_kinds (h : c.kinds = k :: ks) : ∃ d : c.After, c.skip? k = some d ∧
    d.val.kinds = ks := by
  obtain ⟨d, hpeek, hks, hstep⟩ := step?_of_kinds h
  refine ⟨d, ?_, hks⟩
  unfold skip?
  rw [hstep, if_pos hpeek]
  rfl

theorem skip?_eq_none (h : c.kinds.head? ≠ some k) : c.skip? k = none := by
  cases hskip : c.skip? k with
  | none => rfl
  | some d =>
    rw [kinds_of_skip? hskip] at h
    simp at h

theorem step?_of_nil {test : Token → Option α} (h : c.kinds = []) : c.step? test = none := by
  cases hstep : c.step? test with
  | none => rfl
  | some found =>
    rw [(kinds_of_step? hstep).1] at h
    simp at h

theorem atEnd_iff : c.atEnd = true ↔ c.kinds = [] := by
  unfold atEnd kinds
  rw [beq_iff_eq, ← length_rest, List.length_eq_zero_iff, List.map_eq_nil_iff]

theorem kind_peek (c : Cursor input) : c.peek.kind = c.kinds.head?.getD input.stop.kind := by
  cases hkinds : c.kinds with
  | cons k ks => exact (step?_of_kinds hkinds).choose_spec.1
  | nil =>
    have hend : c.left = 0 := beq_iff_eq.mp (atEnd_iff.mpr hkinds)
    have hread : ¬ c.read < input.tokens.size := by
      unfold left at hend
      omega
    simp [peek, hread]

theorem kind_of_kinds (h : c.kinds = k :: ks) : c.peek.kind = k := by
  rw [kind_peek, h]
  rfl

theorem secondKind?_eq (c : Cursor input) : c.secondKind? = c.kinds[1]? := by
  unfold secondKind? kinds rest
  simp

theorem kinds_skipNewlines (c : Cursor input) :
    (∃ n, c.kinds = breaks n ++ c.skipNewlines.val.kinds) ∧
    c.skipNewlines.val.kinds.head? ≠ some .newline := by
  rw [skipNewlines]
  cases hskip : c.skip? .newline with
  | none =>
    refine ⟨⟨0, rfl⟩, fun hhead => ?_⟩
    obtain ⟨ks, hks⟩ := List.head?_eq_some_iff.mp hhead
    obtain ⟨d, hd, -⟩ := skip?_of_kinds hks
    rw [hskip] at hd
    cases hd
  | some found =>
    obtain ⟨c₁, h₁⟩ := found
    obtain ⟨⟨n, hn⟩, hhead⟩ := kinds_skipNewlines c₁
    refine ⟨⟨n + 1, ?_⟩, hhead⟩
    rw [kinds_of_skip? hskip, hn]
    rfl
termination_by c.left

theorem skipNewlines_of_kinds {n : Nat} (h : c.kinds = breaks n ++ ks)
    (hks : ks.head? ≠ some .newline) : c.skipNewlines.val.kinds = ks := by
  obtain ⟨⟨m, hm⟩, hhead⟩ := c.kinds_skipNewlines
  rw [hm] at h
  clear hm
  induction n generalizing m with
  | zero =>
    cases m with
    | zero => exact h
    | succ m => exact absurd (congrArg List.head? h).symm hks
  | succ n ih =>
    cases m with
    | zero => exact absurd (congrArg List.head? h) hhead
    | succ m => exact ih m (List.cons.inj h).2

end Cursor

/-! ### Errors -/

/-- The error is one of the grammar. -/
def SourceError.IsGrammar : SourceError → Prop
  | .grammar _ _ => True
  | _ => False

/-- The error is about the value of a variable: there is none, or it has the wrong type. -/
def SourceError.OfValues : SourceError → Prop
  | .undefinedVariable _ _ => True
  | .typeMismatch _ _ => True
  | _ => False

/-- A condition on errors that those about values meet. -/
def Lenient (E : SourceError → Prop) : Prop :=
  ∀ e : SourceError, e.OfValues → E e

theorem bind_eq_error {ε α β : Type} {m : Except ε α} {f : α → Except ε β} {e : ε} :
    m >>= f = .error e ↔ m = .error e ∨ ∃ a, m = .ok a ∧ f a = .error e := by
  cases m with
  | error e' => simp [bind, Except.bind]
  | ok a => simp [bind, Except.bind]

namespace Expr

variable {e lhs rhs : Expr} {line : Nat} {error : SourceError}

/-- The error is that the type of the expression is open, or that it is a string. -/
def Faults (e : Expr) (line : Nat) (error : SourceError) : Prop :=
  error = .undefinedVariable e.unresolvedName line ∧ e.ty.isResolved = false ∨
    (∃ fault, error = .typeMismatch line fault) ∧ e.ty = .string

theorem Faults.not_isGrammar (h : e.Faults line error) : ¬ error.IsGrammar := by
  rcases h with ⟨rfl, -⟩ | ⟨⟨fault, rfl⟩, -⟩ <;> exact id

theorem Faults.ofValues (h : e.Faults line error) : error.OfValues := by
  rcases h with ⟨rfl, -⟩ | ⟨⟨fault, rfl⟩, -⟩ <;> trivial

theorem faults_of_requireResolved (h : e.requireResolved line = .error error) :
    e.Faults line error := by
  unfold requireResolved at h
  by_cases hty : e.ty.isResolved = true
  · rw [if_pos hty] at h
    cases h
  · rw [if_neg hty] at h
    cases h
    exact Or.inl ⟨rfl, by simpa using hty⟩

theorem faults_of_requireNumeric (h : e.requireNumeric position line = .error error) :
    e.Faults line error := by
  rcases bind_eq_error.1 h with h | ⟨u, -, h⟩
  · exact faults_of_requireResolved h
  · by_cases hty : e.ty = .string
    · rw [if_pos hty] at h
      cases h
      exact Or.inr ⟨⟨_, rfl⟩, hty⟩
    · rw [if_neg hty] at h
      cases h

/-- Types that are known have one in common, unless one of them is that of strings. -/
theorem promote?_isSome {a b : Ty} (ha : a.isResolved = true) (hb : b.isResolved = true)
    (ha' : a ≠ .string) (hb' : b ≠ .string) : (Ty.promote? a b).isSome = true := by
  cases a <;> cases b <;> simp_all [Ty.promote?, Ty.isResolved]

theorem faults_of_combine {op : BinaryOp} (h : lhs.combine op rhs line = .error error) :
    lhs.Faults line error ∨ rhs.Faults line error := by
  rcases bind_eq_error.1 h with h | ⟨u, hlhs, h⟩
  · exact Or.inl (faults_of_requireResolved h)
  rcases bind_eq_error.1 h with h | ⟨u, hrhs, h⟩
  · exact Or.inr (faults_of_requireResolved h)
  rw [requireResolved_eq_ok] at hlhs hrhs
  by_cases hstring : lhs.ty = .string ∨ rhs.ty = .string
  · have hfault : ∃ fault, error = .typeMismatch line fault := by
      repeat' split at h
      all_goals cases h <;> exact ⟨_, rfl⟩
    exact hstring.imp (fun hty => Or.inr ⟨hfault, hty⟩) fun hty => Or.inr ⟨hfault, hty⟩
  · -- Two numbers can be combined.
    rw [not_or] at hstring
    obtain ⟨ty, hty⟩ := Option.isSome_iff_exists.mp (promote?_isSome hlhs hrhs hstring.1 hstring.2)
    simp [hstring, hty, pure, Except.pure] at h

theorem faults_of_negated (h : e.negated line = .error error) : e.Faults line error := by
  rcases bind_eq_error.1 h with h | ⟨u, -, h⟩
  · exact faults_of_requireResolved h
  · by_cases hty : e.ty = .string
    · rw [if_pos hty] at h
      cases h
      exact Or.inr ⟨⟨_, rfl⟩, hty⟩
    · rw [if_neg hty] at h
      cases h

end Expr

namespace Environment

variable {env : Environment} {error : SourceError} {line : Nat}

theorem faults_of_readElement {index : Expr}
    (h : env.readElement symbol index line = .error error) : index.Faults line error := by
  rcases bind_eq_error.1 h with h | ⟨u, -, h⟩
  · exact Expr.faults_of_requireNumeric h
  · cases h

theorem faults_of_forM
    (h : args.forM (fun arg => arg.requireNumeric position line) = .error error) :
    ∃ arg ∈ args, arg.Faults line error := by
  induction args with
  | nil => cases h
  | cons arg args ih =>
    rcases bind_eq_error.1 h with h | ⟨u, -, h⟩
    · exact ⟨arg, List.mem_cons_self, Expr.faults_of_requireNumeric h⟩
    · obtain ⟨other, hmem, hother⟩ := ih h
      exact ⟨other, List.mem_cons_of_mem _ hmem, hother⟩

theorem faults_of_call (h : env.call name args line = .error error) :
    error = .undefinedSubroutine name line ∧ env.returnTy? name = none ∨
    ∃ arg ∈ args, arg.Faults line error := by
  unfold call at h
  cases hty : env.returnTy? name with
  | none =>
    simp only [hty] at h
    cases h
    exact Or.inl ⟨rfl, rfl⟩
  | some ty =>
    simp only [hty] at h
    rcases bind_eq_error.1 h with h | ⟨u, -, h⟩
    · exact Or.inr (faults_of_forM h)
    · cases h

end Environment

/-! ### Steps that read no token -/

namespace Analysis

variable {input : Input} {c : Cursor input} {E : SourceError → Prop} {α : Type} {Q : α → Prop}

theorem ends_checked {result : Except SourceError α} (hE : ∀ e, result = .error e → E e)
    (hQ : ∀ a, result = .ok a → Q a) : Ends E (check result) Q := by
  intro s _
  constructor
  · intro a s' h
    exact hQ a (Prod.mk.inj h).1
  · intro e h
    exact hE e h

theorem ends_tell {e : Event} {R : Unit → Prop} (h : R ()) : Ends E (tell e) R :=
  .modify h

theorem ends_env : Ends E env fun _ => True :=
  Ends.bind (Triple.get (Q := fun _ _ => True) fun _ _ => trivial) fun _ _ => .pure trivial

theorem ends_bindSymbol {shape : Shape} : Ends E (bindSymbol symbol shape) fun _ => True :=
  (ends_tell (R := fun _ => True) trivial).bind fun _ _ => .modify trivial

theorem ends_register {ty : Ty} : Ends E (register name ty) fun _ => True :=
  (ends_tell (R := fun _ => True) trivial).bind fun _ _ => .modify trivial

theorem ends_bindParams (all : List Param) :
    Ends E (forM all fun p => bindSymbol ⟨p.name, .subroutine name⟩ ⟨p.ty, 0⟩) fun _ => True := by
  induction all with
  | nil => exact .pure trivial
  | cons p all ih => exact ends_bindSymbol.bind fun _ _ => ih

theorem ends_told {m : Analysis (Stmt × α)} {line : Nat} {R : Stmt × α → Prop} (hm : Ends E m R) :
    Ends E (m >>= fun read => do
      tell (.reduced read.1.label line)
      return (read.1, read.2)) R :=
  hm.bind fun _ hread => (ends_tell (R := fun _ => True) trivial).bind fun _ _ => .pure hread

theorem ends_reject {fault : SyntaxFault} (h : E (.grammar t.toPosition fault)) :
    Ends E (reject t fault) Q :=
  .throw h

section

variable (hE : Lenient E)

include hE

theorem ends_requireResolved {e : Expr} {line : Nat} :
    Ends E (check (e.requireResolved line)) fun _ => True :=
  ends_checked (fun _ h => hE _ (Expr.faults_of_requireResolved h).ofValues) fun _ _ => trivial

theorem ends_requireNumeric {e : Expr} {line : Nat} :
    Ends E (check (e.requireNumeric position line)) fun _ => True :=
  ends_checked (fun _ h => hE _ (Expr.faults_of_requireNumeric h).ofValues) fun _ _ => trivial

theorem ends_combine {op : BinaryOp} {lhs rhs : Expr} {line : Nat} :
    Ends E (check (lhs.combine op rhs line)) fun e => e.bare = .binary op lhs.bare rhs.bare := by
  refine ends_checked (fun _ h => hE _ ?_) fun e h => ?_
  · exact (Expr.faults_of_combine h).elim Expr.Faults.ofValues Expr.Faults.ofValues
  · obtain ⟨shape, -, rfl⟩ := Expr.combine_eq_ok.1 h
    rfl

theorem ends_negated {operand : Expr} {line : Nat} :
    Ends E (check (operand.negated line)) fun e => e.bare = .negate operand.bare := by
  refine ends_checked (fun _ h => hE _ (Expr.faults_of_negated h).ofValues) fun e h => ?_
  obtain ⟨-, rfl⟩ := Expr.negated_eq_ok.1 h
  rfl

theorem ends_readElement {env : Environment} {index : Expr} {line : Nat} :
    Ends E (check (env.readElement symbol index line)) fun e => e.bare =
    .element symbol.name index.bare := by
  refine ends_checked (fun _ h => hE _ (Environment.faults_of_readElement h).ofValues) fun e h => ?_
  obtain ⟨-, rfl⟩ := Environment.readElement_eq_ok.1 h
  rfl

theorem ends_call {env : Environment} {line : Nat} (hcall : E (.undefinedSubroutine name line)) :
    Ends E (check (env.call name args line)) fun e => e.bare = .call name (bareArguments args) := by
  refine ends_checked (fun _ h => ?_) fun e h => ?_
  · rcases Environment.faults_of_call h with ⟨rfl, -⟩ | ⟨arg, -, harg⟩
    · exact hcall
    · exact hE _ harg.ofValues
  · obtain ⟨ty, -, -, rfl⟩ := Environment.call_eq_ok.1 h
    rfl

theorem ends_requireBound {line : Nat} :
    Ends E (Grammar.requireBound symbol line) fun _ => True := by
  refine ends_env.bind fun env _ => ?_
  by_cases hbound : env.contains symbol = true
  · simp only [hbound, if_true]
    exact .pure trivial
  · simp only [hbound]
    exact .throw (hE _ trivial)

end

/-! ### Steps over a token -/

theorem ends_expect {R : c.After → Prop} (hfound : ∀ d : c.After, c.kinds = k :: d.val.kinds → R d)
    (hmissing : c.kinds.head? ≠ some k → E (.grammar c.peek.toPosition (.expected what c.peek))) :
    Ends E (expect c k what) R := by
  unfold expect
  cases hskip : c.skip? k with
  | some d => exact .pure (hfound d (Cursor.kinds_of_skip? hskip))
  | none =>
    refine ends_reject (hmissing fun hhead => ?_)
    obtain ⟨ks, hks⟩ := List.head?_eq_some_iff.mp hhead
    obtain ⟨d, hd, -⟩ := Cursor.skip?_of_kinds hks
    rw [hskip] at hd
    cases hd

theorem ends_expectName {what : String} {R : String × c.After → Prop}
    (hfound : ∀ name (d : c.After), c.kinds = .name name :: d.val.kinds → R (name, d))
    (hmissing : (∀ name, c.kinds.head? ≠ some (.name name)) →
      E (.grammar c.peek.toPosition (.expected what c.peek))) :
    Ends E (expectName c what) R := by
  rw [expectName]
  split
  next found hstep =>
    obtain ⟨hkinds, htest⟩ := Cursor.kinds_of_step? hstep
    refine .pure (hfound _ _ ?_)
    rw [hkinds]
    split at htest
    next text hname => rw [hname, Option.some.inj htest]
    next => cases htest
  next hstep =>
    refine ends_reject (hmissing fun name hhead => ?_)
    obtain ⟨ks, hks⟩ := List.head?_eq_some_iff.mp hhead
    obtain ⟨d, hpeek, -, hany⟩ := Cursor.step?_of_kinds hks
    rw [hany, hpeek] at hstep
    cases hstep

theorem ends_expectType {R : Ty × c.After → Prop}
    (hfound : ∀ k ty (d : c.After), TypeName k ty → c.kinds = k :: d.val.kinds → R (ty, d))
    (hmissing : (∀ k ty, TypeName k ty → c.kinds.head? ≠ some k) →
      E (.grammar c.peek.toPosition (.expected "INT or DOUBLE" c.peek))) :
      Ends E (expectType c) R := by
  rw [expectType]
  split
  next found hstep =>
    obtain ⟨ty, d⟩ := found
    obtain ⟨hkinds, htest⟩ := Cursor.kinds_of_step? hstep
    split at htest
    next hkind =>
      cases htest
      exact .pure (hfound _ _ _ .int (hkind ▸ hkinds))
    next hkind =>
      cases htest
      exact .pure (hfound _ _ _ .double (hkind ▸ hkinds))
    next => cases htest
  next hstep =>
    refine ends_reject (hmissing fun k ty hname hhead => ?_)
    obtain ⟨ks, hks⟩ := List.head?_eq_some_iff.mp hhead
    obtain ⟨d, hpeek, -, hany⟩ := Cursor.step?_of_kinds hks
    rw [hany, hpeek] at hstep
    cases hname <;> cases hstep

section

variable {Q : α → Prop}

theorem expect_read {f : c.After → Analysis α} (h : c.kinds = k :: us)
    (hf : ∀ d, d.kinds = us → ∀ hd, Ends E (f ⟨d, hd⟩) Q) : Ends E (expect c k what >>= f) Q := by
  refine Ends.bind (ends_expect (R := fun d => d.val.kinds = us) (fun d hd => ?_) fun hhead => ?_)
    fun d hd => hf d.val hd d.property
  · rw [h, List.cons.injEq] at hd
    exact hd.2.symm
  · rw [h] at hhead
    exact absurd rfl hhead

theorem expectName_read {f : String × c.After → Analysis α} (h : c.kinds = .name name :: us)
    (hf : ∀ d, d.kinds = us → ∀ hd, Ends E (f (name, ⟨d, hd⟩)) Q) :
    Ends E (expectName c what >>= f) Q := by
  refine Ends.bind
    (ends_expectName (R := fun r => r.1 = name ∧ r.2.val.kinds = us) (fun name' d hd => ?_)
    fun hhead => ?_) ?_
  · rw [h, List.cons.injEq, Kind.name.injEq] at hd
    exact ⟨hd.1.symm, hd.2.symm⟩
  · specialize hhead name
    rw [h] at hhead
    exact absurd rfl hhead
  · rintro ⟨_, d⟩ ⟨rfl, hd⟩
    exact hf d.val hd d.property

theorem expectType_read {f : Ty × c.After → Analysis α} {ty : Ty} (hty : TypeName k ty)
    (h : c.kinds = k :: us)
    (hf : ∀ d, d.kinds = us → ∀ hd, Ends E (f (ty, ⟨d, hd⟩)) Q) :
    Ends E (expectType c >>= f) Q := by
  refine Ends.bind
    (ends_expectType (R := fun r => r.1 = ty ∧ r.2.val.kinds = us) (fun k' ty' d hty' hd => ?_)
    fun hhead => ?_) ?_
  · rw [h, List.cons.injEq] at hd
    obtain ⟨rfl, rfl⟩ := hd
    refine ⟨?_, rfl⟩
    cases hty <;> cases hty' <;> rfl
  · specialize hhead k ty hty
    rw [h] at hhead
    exact absurd rfl hhead
  · rintro ⟨_, d⟩ ⟨rfl, hd⟩
    exact hf d.val hd d.property

end

end Analysis

/-! ### Operators -/

namespace Grammar

variable {input : Input} {c : Cursor input} {table : List (Mark × BinaryOp)} {op : BinaryOp}

theorem kinds_of_operator? {line : Nat} {d : c.After}
    (h : operator? table c = some ((op, line), d)) :
    ∃ m, table.lookup m = some op ∧ c.kinds = .mark m :: d.val.kinds := by
  obtain ⟨hkinds, htest⟩ := Cursor.kinds_of_step? h
  split at htest
  next m hm =>
    obtain ⟨op', hlookup, heq⟩ := Option.map_eq_some_iff.mp htest
    rw [Prod.mk.injEq] at heq
    exact ⟨m, heq.1 ▸ hlookup, by rw [hkinds, hm]⟩
  next => cases htest

theorem operator?_of_kinds (h : c.kinds = .mark m :: ks) (hm : table.lookup m = some op) :
    ∃ line, ∃ d : c.After, operator? table c = some ((op, line), d) ∧ d.val.kinds = ks := by
  obtain ⟨d, hpeek, hks, hstep⟩ := Cursor.step?_of_kinds h
  refine ⟨c.peek.line, d, ?_, hks⟩
  unfold operator?
  rw [hstep]
  simp [hpeek, hm]

theorem operator?_eq_none (h : ∀ m, c.kinds.head? = some (.mark m) → table.lookup m = none) :
    operator? table c = none := by
  cases hop : operator? table c with
  | none => rfl
  | some found =>
    obtain ⟨⟨op, line⟩, d⟩ := found
    obtain ⟨m, hlookup, hkinds⟩ := kinds_of_operator? hop
    rw [h m (by rw [hkinds]; rfl)] at hlookup
    cases hlookup

theorem lookup_comparisons : comparisons.lookup m = some op ↔ Compares m op := by
  constructor
  · intro h
    cases m <;> cases h <;> constructor
  · intro h
    cases h <;> rfl

theorem lookup_additions : additions.lookup m = some op ↔ Adds m op := by
  constructor
  · intro h
    cases m <;> cases h <;> constructor
  · intro h
    cases h <;> rfl

theorem lookup_multiplications : multiplications.lookup m = some op ↔ Multiplies m op := by
  constructor
  · intro h
    cases m <;> cases h <;> constructor
  · intro h
    cases h <;> rfl

end Grammar

/-! ### Constants -/

/-- What a token of this kind says by itself, if it is a constant. -/
def Kind.constant? : Kind → Option Bare.Expr
  | .int value => some (.int value)
  | .double value => some (.double value)
  | .string text => some (.string text)
  | _ => none

namespace Grammar

theorem toInt_of_word? {value : Int} {word : Int32} (h : word? value = some word) :
    word.toInt = value := by
  unfold word? at h
  by_cases hrange : -2147483648 ≤ value ∧ value ≤ 2147483647
  · rw [if_pos hrange, Option.some.injEq] at h
    rw [← h]
    exact Int32.toInt_ofInt_of_le (by omega) (by omega)
  · rw [if_neg hrange] at h
    cases h

/-- A constant is read, unless it is a whole numeral that is too wide. -/
theorem constant?_of_kind {e : Bare.Expr} (h : t.kind.constant? = some e) :
    ∃ m, constant? t = some m ∧ ∀ E : SourceError → Prop,
      (∀ value, t.kind = .int value → word? value = none →
        E (.grammar t.toPosition (.wideLiteral t.lexeme))) →
        Ends E m fun found => found.bare = e := by
  unfold constant?
  cases hkind : t.kind with
  | int value =>
    rw [hkind] at h
    cases h
    cases hword : word? value with
    | none =>
      exact ⟨Analysis.reject t (.wideLiteral t.lexeme), by simp only [hword],
        fun E hE => Analysis.ends_reject (hE value rfl hword)⟩
    | some word =>
      refine ⟨pure (.ofInt word), by simp only [hword], fun E _ => .pure ?_⟩
      show Bare.Expr.int word.toInt = .int value
      rw [toInt_of_word? hword]
  | double value =>
    rw [hkind] at h
    cases h
    exact ⟨_, rfl, fun E _ => .pure rfl⟩
  | string text =>
    rw [hkind] at h
    cases h
    exact ⟨_, rfl, fun E _ => .pure rfl⟩
  | _ =>
    rw [hkind] at h
    cases h

theorem constant?_eq_none (h : t.kind.constant? = none) : constant? t = none := by
  unfold constant?
  cases hkind : t.kind with
  | int value => rw [hkind] at h; cases h
  | double value => rw [hkind] at h; cases h
  | string text => rw [hkind] at h; cases h
  | _ => rfl

end Grammar

end Pseudocode
