import Pseudocode.Proofs.Grammar.Reading

/-!
What reading comes to.

Reading takes tokens off the input and gives a tree for them, or it rejects the program.  `Reads`
speaks of both: what is given satisfies a condition, and a rejection is explained
(`SourceError.Explained`).  An error of the grammar is at a token, and what an error says is so, of
the tokens that were read and of the session that is left (`SourceError.Justified`).  The last is
asked for under a hypothesis (`blames`), since it takes a session that is `Sound`, and the rest does
not.

Reading an expression does not change the session (`Looks`), and what is read fits it: its shapes
agree with the environment, and it is `Known`.  If its type is open, then the name to blame for that
is in the text and not bound, and if it is a string, there is a string in the text.  So a check that
fails is right to fail.
-/

namespace Pseudocode

variable {t : Token} {fault : SyntaxFault} {error : SourceError} {op : BinaryOp}
  {what name : String}

/-! ### What a rejection says -/

/-- The scope that is read in after an event. -/
def Event.scopeAfter (scope : Scope) : Event → Scope
  | registered name _ => .subroutine name
  | reduced label _ => if label = "SUBROUTINE" then .top else scope
  | _ => scope

/-- The scope of the statement that is being read. -/
def Session.scope (s : Session) : Scope :=
  s.log.toList.foldl Event.scopeAfter .top

/-- There is a name in the text. -/
def Token.Names (tokens : List Token) (name : String) : Prop :=
  ∃ t ∈ tokens, t.kind = .name name

/-- There is a string in the text. -/
def Token.HasString (tokens : List Token) : Prop :=
  ∃ t ∈ tokens, ∃ text, t.kind = .string text

/-- What the error says is so, for the tokens of the program and the session that is left. -/
structure SourceError.Justified (tokens : List Token) (s : Session) (e : SourceError) : Prop where
  /-- The line to blame is one with a token on it. -/
  line : ∃ t ∈ tokens, t.line = e.line
  /-- An undefined variable is in the text, and not bound where it is used. -/
  undefined : ∀ name line, e = .undefinedVariable name line →
    Token.Names tokens name ∧ s.env.contains ⟨name, s.scope⟩ = false
  /-- An undefined subroutine has not been declared. -/
  undeclared : ∀ name line, e = .undefinedSubroutine name line → s.env.returnTy? name = none
  /-- Where types do not match there is a string. -/
  mismatch : ∀ line fault, e = .typeMismatch line fault → Token.HasString tokens

/-- The token that was found instead of what was expected. -/
def SyntaxFault.found? : SyntaxFault → Option Token
  | expected _ found => some found
  | _ => none

/-- An error of the grammar is at a token, and at the one that was found, if it names it. -/
def SourceError.Located (tokens : List Token) : SourceError → Prop
  | grammar p fault => ∃ t ∈ tokens, t.toPosition = p ∧ ∀ found ∈ fault.found?, found = t
  | _ => True

/-- The error is located, and if `blames` holds, what it says is so. -/
structure SourceError.Explained (tokens : List Token) (blames : Prop) (s : Session)
    (e : SourceError) : Prop where
  located : e.Located tokens
  justified : blames → e.Justified tokens s

/-! ### What is known of an expression -/

namespace Input

/-- All tokens of the input, the one that stands for its end included. -/
def all (input : Input) : List Token :=
  input.tokens.toList ++ [input.stop]

theorem peek_mem {input : Input} (c : Cursor input) : c.peek ∈ input.all := by
  unfold Cursor.peek all
  by_cases hlt : c.read < input.tokens.size
  · simp [hlt]
  · simp [hlt]

end Input

/-- What the type of an expression says about the text and the environment. -/
structure Expr.Known (tokens : List Token) (env : Environment) (scope : Scope) (e : Expr) :
    Prop where
  /-- If it is open, the name to blame is in the text and not bound. -/
  unresolved : e.ty.isResolved = false →
    Token.Names tokens e.unresolvedName ∧ env.contains ⟨e.unresolvedName, scope⟩ = false
  string : e.ty = .string → Token.HasString tokens

/-- All that is bound has a type, strings come from the text, and subroutines return numbers. -/
structure Session.Sound (tokens : List Token) (scope : Scope) (s : Session) : Prop where
  scope : s.scope = scope
  resolved : ∀ symbol, s.env.contains symbol = true → (s.env.shape symbol).ty.isResolved = true
  strings : ∀ symbol, (s.env.shape symbol).ty = .string → Token.HasString tokens
  returns : ∀ name ty, s.env.returnTy? name = some ty → ty.isNumeric = true

section

variable {tokens : List Token} {blames : Prop} {scope : Scope} {s : Session} {e lhs rhs : Expr}
  {line : Nat}

theorem SourceError.explained_grammar (ht : t ∈ tokens)
    (hfound : ∀ found ∈ fault.found?, found = t) :
    (SourceError.grammar t.toPosition fault).Explained tokens blames s :=
  ⟨⟨t, ht, rfl, hfound⟩, fun _ => ⟨⟨t, ht, rfl⟩, nofun, nofun, nofun⟩⟩

/-- A check on an expression that fails in a sound session is right to fail. -/
theorem Expr.Faults.justified (h : e.Faults line error) (hs : s.Sound tokens scope)
    (he : e.Known tokens s.env scope) (hline : ∃ t ∈ tokens, t.line = line) :
    error.Justified tokens s := by
  rcases h with ⟨rfl, hty⟩ | ⟨⟨fault, rfl⟩, hty⟩
  · refine ⟨hline, ?_, nofun, nofun⟩
    rintro _ _ ⟨⟩
    rw [hs.scope]
    exact he.unresolved hty
  · refine ⟨hline, nofun, nofun, ?_⟩
    rintro _ _ ⟨⟩
    exact he.string hty

theorem SourceError.located_of_not_isGrammar (h : ¬ error.IsGrammar) : error.Located tokens := by
  cases error with
  | grammar p fault => exact absurd trivial h
  | _ => exact trivial

theorem Expr.Faults.explained (h : e.Faults line error) (hs : blames → s.Sound tokens scope)
    (he : blames → e.Known tokens s.env scope) (hline : ∃ t ∈ tokens, t.line = line) :
    error.Explained tokens blames s :=
  ⟨SourceError.located_of_not_isGrammar h.not_isGrammar,
    fun hb => h.justified (hs hb) (he hb) hline⟩

theorem Expr.known_of_isNumeric {env : Environment} (h : e.ty.isNumeric = true) :
    e.Known tokens env scope := by
  constructor
  · intro hty
    cases hcase : e.ty <;> simp [hcase, Ty.isNumeric, Ty.isResolved] at h hty
  · intro hty
    rw [hty] at h
    cases h

/-- What is known of an operand is known of an operation on it. -/
theorem Expr.Known.binary {env : Environment} (hlhs : lhs.Known tokens env scope)
    (h : lhs.combine op rhs line = .ok e) : e.Known tokens env scope := by
  obtain ⟨shape, hshape, rfl⟩ := Expr.combine_eq_ok.1 h
  rcases Shape.combined?_cases hshape with ⟨-, -, hnumber, -⟩ | ⟨-, hstring, -, rfl⟩
  · exact known_of_isNumeric hnumber
  · exact ⟨nofun, fun _ => hlhs.string hstring⟩

end

/-- An expression that fits the session: its shapes agree with the environment, and what its type
says is known. -/
structure Expr.Fits (input : Input) (blames : Prop) (s : Session) (scope : Scope) (e : Expr) :
    Prop where
  agrees : e.Agrees s.env scope
  known : blames → e.Known input.all s.env scope

/-! ### Steps of reading -/

namespace Grammar

open Analysis Phrase

variable {input : Input} {blames : Prop} {scope : Scope} {s : Session} {α β : Type} {m : Analysis α}

/-- Begun in a session, the reading ends as `Q` says, or it rejects the program and the error is
explained. -/
def Reads (input : Input) (blames : Prop) (s : Session) (m : Analysis α) (Q : α → Session → Prop) :
    Prop :=
  Outcomes (· = s) m Q fun e s' => e.Explained input.all blames s'

namespace Reads

variable {Q : α → Session → Prop}

theorem mono {R : α → Session → Prop} (h : Reads input blames s m Q)
    (hQ : ∀ a s', Q a s' → R a s') : Reads input blames s m R :=
  Outcomes.mono h (fun _ => id) hQ fun _ _ => id

/-- Readings follow one another: the second begins with what the first one ends in. -/
theorem bind {f : α → Analysis β} {R : β → Session → Prop} (hm : Reads input blames s m Q)
    (hf : ∀ a s', Q a s' → Reads input blames s' (f a) R) : Reads input blames s (m >>= f) R :=
  Outcomes.bind hm fun a s' ha => hf a s' ha s' rfl

theorem pure {a : α} (h : Q a s) : Reads input blames s (Pure.pure a) Q :=
  Outcomes.pure fun _ hs => hs ▸ h

theorem throw {e : SourceError} (h : e.Explained input.all blames s) :
    Reads input blames s (MonadExcept.throw e : Analysis α) Q :=
  Outcomes.throw fun _ hs => hs ▸ h

theorem reject (ht : t ∈ input.all) (hfound : ∀ found ∈ fault.found?, found = t) :
    Reads input blames s (reject t fault : Analysis α) Q :=
  throw (SourceError.explained_grammar ht hfound)

theorem expected {c : Cursor input} :
    Reads input blames s (Analysis.reject c.peek (.expected what c.peek) : Analysis α) Q :=
  reject (Input.peek_mem c) fun _ h => (Option.some.inj h).symm

theorem modify {f : Session → Session} {Q : Unit → Session → Prop} (h : Q () (f s)) :
    Reads input blames s (modify f : Analysis Unit) Q :=
  Outcomes.modify fun _ hs => hs ▸ h

theorem guard {c : Prop} [Decidable c] {e : SourceError} {f : β → Analysis α}
    (hc : c → e.Explained input.all blames s) (hm : ¬ c → Reads input blames s m Q) :
    Reads input blames s (if c then (MonadExcept.throw e : Analysis β) >>= f else m) Q :=
  Outcomes.check (fun h _ hs => hs ▸ hc h) hm

theorem require {c : Prop} [Decidable c] {e : SourceError} {f : β → Analysis α}
    (hc : ¬ c → e.Explained input.all blames s) (hm : c → Reads input blames s m Q) :
    Reads input blames s (if c then m else (MonadExcept.throw e : Analysis β) >>= f) Q :=
  Outcomes.require (fun h _ hs => hs ▸ hc h) hm

theorem of_runs (h : Reads input blames s m Q) {a : α} {s' : Session} (hrun : Runs m s a s') :
    Q a s' := by
  have hout := h s rfl
  rw [show outcome m s = (.ok a, s') from hrun] at hout
  exact hout

end Reads

/-- The reading leaves the session as it is, or it rejects the program. -/
def Looks (input : Input) (blames : Prop) (s : Session) (m : Analysis α) (Q : α → Prop) : Prop :=
  Reads input blames s m fun a s' => s' = s ∧ Q a

namespace Looks

variable {Q : α → Prop}

theorem next {f : α → Analysis β} {R : β → Session → Prop} (hm : Looks input blames s m Q)
    (hf : ∀ a, Q a → Reads input blames s (f a) R) : Reads input blames s (m >>= f) R := by
  refine Reads.bind hm ?_
  rintro a _ ⟨rfl, ha⟩
  exact hf a ha

theorem bind {f : α → Analysis β} {R : β → Prop} (hm : Looks input blames s m Q)
    (hf : ∀ a, Q a → Looks input blames s (f a) R) : Looks input blames s (m >>= f) R :=
  hm.next hf

theorem mono {R : α → Prop} (h : Looks input blames s m Q) (hQ : ∀ a, Q a → R a) :
    Looks input blames s m R :=
  Reads.mono h fun a _ ⟨hs, ha⟩ => ⟨hs, hQ a ha⟩

theorem pure {a : α} (h : Q a) : Looks input blames s (Pure.pure a) Q :=
  Reads.pure ⟨rfl, h⟩

theorem check {result : Except SourceError α}
    (hE : ∀ e, result = .error e → e.Explained input.all blames s)
    (hQ : ∀ a, result = .ok a → Q a) : Looks input blames s (check result) Q := by
  cases result with
  | error e => exact Reads.throw (hE e rfl)
  | ok a => exact pure (hQ a rfl)

theorem env : Looks input blames s env fun env => env = s.env := by
  refine Reads.bind (Q := fun t s' => t = s ∧ s' = s) (Outcomes.get fun _ hs => ⟨hs, hs⟩) ?_
  rintro _ _ ⟨rfl, rfl⟩
  exact pure rfl

theorem expect {c : Cursor input} {k : Kind} :
    Looks input blames s (expect c k what) fun d => c.kinds = k :: d.val.kinds := by
  unfold Analysis.expect
  cases hskip : c.skip? k with
  | some d => exact pure (Cursor.kinds_of_skip? hskip)
  | none => exact Reads.expected

theorem expectName {c : Cursor input} :
    Looks input blames s (expectName c what) fun r =>
      c.kinds = .name r.1 :: r.2.val.kinds ∧ Token.Names input.all r.1 := by
  rw [Analysis.expectName]
  split
  next found hstep =>
    obtain ⟨hkinds, htest⟩ := Cursor.kinds_of_step? hstep
    split at htest
    next text hname =>
      obtain rfl := Option.some.inj htest
      exact pure ⟨hname ▸ hkinds, c.peek, Input.peek_mem c, hname⟩
    next => cases htest
  next => exact Reads.expected

theorem expectType {c : Cursor input} :
    Looks input blames s (expectType c) fun r => ∃ k, TypeName k r.1 ∧
    c.kinds = k :: r.2.val.kinds := by
  rw [Analysis.expectType]
  split
  next found hstep =>
    obtain ⟨ty, d⟩ := found
    obtain ⟨hkinds, htest⟩ := Cursor.kinds_of_step? hstep
    split at htest
    next hkind =>
      cases htest
      exact pure ⟨_, .int, hkind ▸ hkinds⟩
    next hkind =>
      cases htest
      exact pure ⟨_, .double, hkind ▸ hkinds⟩
    next => cases htest
  next => exact Reads.expected

end Looks

theorem isNumeric_of_typeName {k : Kind} {ty : Ty} (h : TypeName k ty) : ty.isNumeric = true := by
  cases h <;> rfl

/-! ### Building expressions -/

theorem line_of_operator? {table : List (Mark × BinaryOp)} {c : Cursor input} {line : Nat}
    {d : c.After}
    (h : operator? table c = some ((op, line), d)) : ∃ t ∈ input.all, t.line = line := by
  obtain ⟨-, htest⟩ := Cursor.kinds_of_step? h
  refine ⟨c.peek, Input.peek_mem c, ?_⟩
  split at htest
  next m hkind =>
    obtain ⟨op', -, heq⟩ := Option.map_eq_some_iff.mp htest
    exact (Prod.mk.inj heq).2
  next => cases htest

/-- A constant fits every session; a number that is too large for a word is rejected. -/
theorem looks_constant {constant : Analysis Expr} (ht : t ∈ input.all)
    (h : constant? t = some constant) :
    Looks input blames s constant fun e => Atom [t.kind] e.bare ∧ e.Fits input blames s scope := by
  unfold constant? at h
  split at h
  next value hkind =>
    split at h
    next word hword =>
      cases h
      refine .pure ⟨?_, rfl, fun _ => Expr.known_of_isNumeric rfl⟩
      rw [hkind, ← toInt_of_word? hword]
      exact .int _
    next =>
      cases h
      exact Reads.reject ht nofun
  next value hkind =>
    cases h
    exact .pure ⟨hkind ▸ .double value, rfl, fun _ => Expr.known_of_isNumeric rfl⟩
  next text hkind =>
    cases h
    exact .pure ⟨hkind ▸ .string text, rfl, fun _ => ⟨nofun, fun _ => ⟨t, ht, text, hkind⟩⟩⟩
  next => cases h

section

variable (hs : blames → s.Sound input.all scope)

include hs

/-- An operation on expressions that fit the session fits it, or is rejected with reason. -/
theorem looks_combine {lhs rhs : Expr} {line : Nat} (hlhs : lhs.Fits input blames s scope)
    (hrhs : rhs.Fits input blames s scope) (hline : ∃ t ∈ input.all, t.line = line) :
    Looks input blames s (check (lhs.combine op rhs line)) fun e =>
      e.bare = .binary op lhs.bare rhs.bare ∧ e.Fits input blames s scope := by
  refine .check (fun e h => ?_) fun e h => ?_
  · rcases Expr.faults_of_combine h with h | h
    · exact h.explained hs hlhs.known hline
    · exact h.explained hs hrhs.known hline
  · have hknown := fun hb => (hlhs.known hb).binary h
    obtain ⟨shape, hshape, rfl⟩ := Expr.combine_eq_ok.1 h
    exact ⟨rfl, ⟨hlhs.agrees, hrhs.agrees, hshape⟩, hknown⟩

theorem looks_negated {operand : Expr} {line : Nat} (h : operand.Fits input blames s scope)
    (hline : ∃ t ∈ input.all, t.line = line) :
    Looks input blames s (check (operand.negated line)) fun e =>
      e.bare = .negate operand.bare ∧ e.Fits input blames s scope := by
  refine .check (fun e he => (Expr.faults_of_negated he).explained hs h.known hline) fun e he => ?_
  obtain ⟨hnumeric, rfl⟩ := Expr.negated_eq_ok.1 he
  exact ⟨rfl, ⟨h.agrees, hnumeric, rfl⟩, fun _ => Expr.known_of_isNumeric hnumeric⟩

theorem fits_readVar (hname : Token.Names input.all name) :
    (s.env.readVar ⟨name, scope⟩).Fits input blames s scope := by
  refine ⟨rfl, fun hb => ⟨fun hopen => ⟨hname, ?_⟩, (hs hb).strings ⟨name, scope⟩⟩⟩
  have hopen : (s.env.shape ⟨name, scope⟩).ty.isResolved = false := hopen
  refine Bool.eq_false_iff.mpr fun hbound => ?_
  rw [(hs hb).resolved ⟨name, scope⟩ hbound] at hopen
  cases hopen

theorem looks_readElement {index : Expr} {line : Nat} (hname : Token.Names input.all name)
    (hindex : index.Fits input blames s scope) (hline : ∃ t ∈ input.all, t.line = line) :
    Looks input blames s (check (s.env.readElement ⟨name, scope⟩ index line)) fun e =>
      e.bare = .element name index.bare ∧ e.Fits input blames s scope := by
  refine .check (fun e h => ?_) fun e h => ?_
  · exact (Environment.faults_of_readElement h).explained hs hindex.known hline
  · obtain ⟨hnumeric, rfl⟩ := Environment.readElement_eq_ok.1 h
    have hvar := (fits_readVar hs hname).known
    exact ⟨rfl, ⟨hindex.agrees, hnumeric, rfl⟩, fun hb => ⟨(hvar hb).unresolved, (hvar hb).string⟩⟩

/-- So does a call, and it is rejected with reason if the subroutine is unknown. -/
theorem looks_call {args : List Expr} {line : Nat}
    (hargs : ∀ arg ∈ args, arg.Fits input blames s scope) (hline : ∃ t ∈ input.all, t.line = line) :
    Looks input blames s (check (s.env.call name args line)) fun e =>
      e.bare = .call name (bareArguments args) ∧ e.Fits input blames s scope := by
  refine .check (fun e h => ?_) fun e h => ?_
  · rcases Environment.faults_of_call h with ⟨rfl, hnone⟩ | ⟨arg, hmem, harg⟩
    · refine ⟨trivial, fun _ => ⟨hline, nofun, ?_, nofun⟩⟩
      rintro _ _ ⟨⟩
      exact hnone
    · exact harg.explained hs (hargs arg hmem).known hline
  · obtain ⟨ty, hty, hnumeric, rfl⟩ := Environment.call_eq_ok.1 h
    refine ⟨rfl,
      ⟨hty, argumentsAgree_iff.2 fun arg harg => ⟨(hargs arg harg).agrees, hnumeric arg harg⟩⟩,
      fun hb => ?_⟩
    exact Expr.known_of_isNumeric ((hs hb).returns name ty hty)

/-! ### Checks -/

theorem looks_requireResolved {e : Expr} {line : Nat} (he : e.Fits input blames s scope)
    (hline : ∃ t ∈ input.all, t.line = line) :
    Looks input blames s (check (e.requireResolved line)) fun _ => e.ty.isResolved = true :=
  .check (fun _ h => (Expr.faults_of_requireResolved h).explained hs he.known hline) fun _ h =>
    Expr.requireResolved_eq_ok.1 h

theorem looks_requireNumeric {e : Expr} {position : String} {line : Nat}
    (he : e.Fits input blames s scope) (hline : ∃ t ∈ input.all, t.line = line) :
    Looks input blames s (check (e.requireNumeric position line)) fun _ => e.ty.isNumeric = true :=
  .check (fun _ h => (Expr.faults_of_requireNumeric h).explained hs he.known hline) fun _ h =>
    Expr.requireNumeric_eq_ok.1 h

theorem looks_requireBound {line : Nat} (hname : Token.Names input.all name)
    (hline : ∃ t ∈ input.all, t.line = line) :
    Looks input blames s (requireBound ⟨name, scope⟩ line) fun _ => s.env.contains ⟨name, scope⟩ =
    true := by
  unfold requireBound
  refine Looks.env.bind ?_
  rintro _ rfl
  cases hbound : s.env.contains ⟨name, scope⟩ with
  | true => exact .pure rfl
  | false =>
    refine Reads.throw ⟨trivial, fun hb => ⟨hline, ?_, nofun, nofun⟩⟩
    rintro _ _ ⟨⟩
    rw [(hs hb).scope]
    exact ⟨hname, hbound⟩

end

end Grammar

end Pseudocode
