import Pseudocode.Lower.Expr
import Pseudocode.Proofs.Grammar.Rejections
import Pseudocode.Proofs.Token.Segmentation

/-!
Whole numerals keep their value, or the program is rejected.

A numeral passes three ranges: scanning cuts its value off at the largest 64-bit number, reading
asks for a 32-bit one, and code generation writes it as a decimal again.  The cut is above the range
that is asked for, so it never lets a number in (`word?_whole`).

Where a numeral is read is said by `RunsInto`: one computation runs into another on its way.  A
failure there is a failure of the whole (`RunsInto.fails`), so a numeral that is too wide is what
the program is rejected for (`literal_kept_or_rejected`).
-/

namespace Pseudocode

/-! ### Reaching a computation -/

section Reach

variable {ε σ α β : Type}

/-- From the state `s` the computation comes to the point where it runs `target` in the state `t`:
`target` is what is run first, or it is reached in the first of two steps, or the first step
succeeds and it is reached in the second. -/
inductive RunsInto (target : ExceptT ε (StateM σ) β) (t : σ) : {α : Type} → ExceptT ε (StateM σ) α →
    σ → Prop where
  | here : RunsInto target t target t
  | first {α γ : Type} {m : ExceptT ε (StateM σ) α} {f : α → ExceptT ε (StateM σ) γ} {s : σ} :
      RunsInto target t m s → RunsInto target t (m >>= f) s
  | next {α γ : Type} {m : ExceptT ε (StateM σ) α} {f : α → ExceptT ε (StateM σ) γ} {s s₁ : σ}
    {a : α} :
      Runs m s a s₁ → RunsInto target t (f a) s₁ → RunsInto target t (m >>= f) s

variable {target : ExceptT ε (StateM σ) β} {m : ExceptT ε (StateM σ) α} {s t : σ} {e : ε}

/-- What fails on the way fails as a whole, and for the same reason. -/
theorem RunsInto.fails (h : RunsInto target t m s) (hfails : Fails target t e) : Fails m s e := by
  induction h with
  | here => exact hfails
  | first _ ih => exact fails_bind.2 (.inl ih)
  | next hrun _ ih => exact fails_bind.2 (.inr ⟨_, _, hrun, ih⟩)

end Reach

/-! ### Numerals -/

namespace Digits

/-- The value of a run of digits is the number that they write in base ten. -/
theorem value_eq (digits : List Char) : value digits = Nat.ofDigitChars 10 digits 0 := by
  rw [value, Nat.ofDigitChars_eq_foldl]

end Digits

variable {digits : List Char} {kind : Kind}

/-- A run of digits is the text of no token but a whole numeral. -/
theorem kind_of_lexeme_digits (h : Lexeme digits kind) (hdigits : ∀ d ∈ digits, d.isDigit) :
    kind = .int (Digits.whole digits) := by
  have hfirst : ∀ d rest, digits = d :: rest → d.isDigit := by
    intro d rest heq
    exact hdigits d (by simp [heq])
  cases h with
  | mark m =>
    obtain ⟨d, rest, heq, hd⟩ : ∃ d rest, m.spelling.toList = d :: rest ∧ d.isDigit = false := by
      cases m <;> exact ⟨_, _, rfl, rfl⟩
    simp [hfirst d rest heq] at hd
  | newline hne hall =>
    obtain ⟨d, rest, rfl⟩ := List.exists_cons_of_ne_nil hne
    have hd := hfirst d rest rfl
    rw [hall d (by simp)] at hd
    cases hd
  | string _ => cases hfirst _ _ rfl
  | whole _ _ => rfl
  | pointed _ _ _ => cases hdigits '.' (by simp)
  | keyword k =>
    obtain ⟨d, rest, heq, hd⟩ : ∃ d rest, k.spelling.toList = d :: rest ∧ d.isDigit = false := by
      cases k <;> exact ⟨_, _, rfl, rfl⟩
    simp [hfirst d rest heq] at hd
  | @name c cs hc _ _ =>
    have hd := hfirst c cs rfl
    rw [Scan.isDigit_of_startsWord (Scan.startsWord_iff.2 hc)] at hd
    cases hd

/-- The value that a numeral is cut off at is too wide, so nothing that is too wide passes for a
32-bit integer. -/
theorem word?_whole (digits : List Char) : Grammar.word? (Digits.whole digits) =
    if Nat.ofDigitChars 10 digits 0 ≤ 2147483647 then
    some (Int32.ofInt (Nat.ofDigitChars 10 digits 0)) else none := by
  have hmax : Digits.maxWord = 9223372036854775807 := rfl
  unfold Grammar.word? Digits.whole
  rw [Digits.value_eq, hmax]
  by_cases hle : Nat.ofDigitChars 10 digits 0 ≤ 2147483647
  · have hmin : min (Nat.ofDigitChars 10 digits 0) 9223372036854775807 =
      Nat.ofDigitChars 10 digits 0 := by omega
    rw [hmin, if_pos hle, if_pos (by omega)]
  · rw [if_neg hle, if_neg (by omega)]

/-! ### Where a numeral stands -/

namespace Scan

/-- A numeral is followed by neither a digit nor a point, since it would be longer with them. -/
theorem ends_of_longest {text after : List Char} (hne : text ≠ []) (hdigits : ∀ d ∈ text, d.isDigit)
    (h : Longest (text ++ after) text kind) : ∀ d ∈ after.head?, d ≠ '.' ∧ d.isDigit = false := by
  intro d hd
  obtain ⟨rest, rfl⟩ := List.head?_eq_some_iff.1 hd
  have hlonger : ∀ kind', ¬ Lexeme (text ++ [d]) kind' := by
    intro kind' hlexeme
    have hle := (h.2.2 _ _ hlexeme (by simp)).1
    rw [List.length_append, List.length_singleton] at hle
    omega
  constructor
  · intro hpoint
    rw [hpoint] at hlonger
    have hpointed : Lexeme (text ++ ['.']) (.double (Digits.pointed text [])) :=
      .pointed hne hdigits (by simp)
    exact hlonger _ hpointed
  · cases hdigit : d.isDigit with
    | false => rfl
    | true =>
      refine absurd (.whole (by simp) fun x hx => ?_) (hlonger (.int (Digits.whole (text ++ [d]))))
      rcases List.mem_append.1 hx with hx | hx
      · exact hdigits x hx
      · rw [List.mem_singleton.1 hx, hdigit]

/-- A token of a text stands in it, at its own line and column. -/
theorem stands_of_mem {source : String} {t : Token} (h : t ∈ (scan source).tokens)
    (hkind : t.kind ≠ .eof) :
    ∃ before after, source.toList = before ++ (t.lexeme.toList ++ after) ∧
    t.toPosition = .behind before ∧
      Longest (t.lexeme.toList ++ after) t.lexeme.toList t.kind := by
  have htokens : (scan source).tokens = (segments .start source.toList).filterMap Segment.token? ++
      [⟨Position.start.afterAll source.toList, .eof, ""⟩] := rfl
  rw [htokens] at h
  rcases List.mem_append.1 h with h | h
  · obtain ⟨piece, hpiece, htoken⟩ := List.mem_filterMap.1 h
    obtain ⟨before, after, hpieces⟩ := List.append_of_mem hpiece
    have htext := text_segments .start source.toList
    rw [hpieces, List.flatMap_append] at htext
    cases piece with
    | gap _ => cases htoken
    | illegal _ => cases htoken
    | token t' =>
      obtain rfl : t' = t := Option.some.inj htoken
      obtain ⟨hlongest, hposition⟩ := @exact_segments [] _ _ _ _ hpieces
      exact ⟨before.flatMap Segment.text, after.flatMap Segment.text, htext.symm, hposition,
        hlongest⟩
  · rw [List.mem_singleton.1 h] at hkind
    exact absurd rfl hkind

end Scan

/-! ### Reading a numeral -/

namespace Grammar

variable {input : Input} {c : Cursor input} {scope : Scope} {s : Session} {t : Token}
  {ts : List Token}

theorem constant?_of_digits (hkind : t.kind = .int (Digits.whole digits)) :
    constant? t = some (if Nat.ofDigitChars 10 digits 0 ≤ 2147483647 then
        pure (.ofInt (Int32.ofInt (Nat.ofDigitChars 10 digits 0)))
      else Analysis.reject t (.wideLiteral t.lexeme)) := by
  unfold constant?
  simp only [hkind, word?_whole]
  by_cases hle : Nat.ofDigitChars 10 digits 0 ≤ 2147483647
  · simp only [if_pos hle]
  · simp only [if_neg hle]

/-- A numeral whose value is a 32-bit integer is read as the constant of that value. -/
theorem runs_atom_of_digits (scope : Scope) (s : Session) (hnext : c.rest = t :: ts)
    (hkind : t.kind = .int (Digits.whole digits))
    (hle : Nat.ofDigitChars 10 digits 0 ≤ 2147483647) : ∃ d : c.After, d.val.rest = ts ∧
      Runs (atom scope c) s (.ofInt (Int32.ofInt (Nat.ofDigitChars 10 digits 0)), d) s := by
  obtain ⟨d, rfl, hd, hstep⟩ := Cursor.step?_of_rest hnext
  refine ⟨d, hd, ?_⟩
  rw [atom, hstep constant?, constant?_of_digits hkind, if_pos hle]
  exact runs_bind.2 ⟨_, s, runs_pure.2 ⟨rfl, rfl⟩, runs_pure.2 ⟨rfl, rfl⟩⟩

/-- One that is too wide is rejected where it stands. -/
theorem fails_atom_of_digits (hnext : c.rest = t :: ts)
    (hkind : t.kind = .int (Digits.whole digits))
    (hwide : ¬ Nat.ofDigitChars 10 digits 0 ≤ 2147483647) :
    Fails (atom scope c) s (.grammar t.toPosition (.wideLiteral t.lexeme)) := by
  obtain ⟨d, rfl, -, hstep⟩ := Cursor.step?_of_rest hnext
  rw [atom, hstep constant?, constant?_of_digits hkind, if_neg hwide]
  exact fails_bind.2 (.inl (fails_throw.2 rfl))

/-- An expression is read from its first atom on, unless a sign stands before that. -/
theorem runsInto_atom (hsign : c.kinds.head? ≠ some (.mark .minus)) :
    RunsInto (atom scope c) s (expression scope c) s := by
  rw [expression, sum, product, signed, Cursor.skip?_eq_none hsign]
  exact .first (.first (.first .here))

end Grammar

/-- Code for a constant is the decimal of its value, and nothing is added for it. -/
theorem Lower.runs_operand_ofInt (scope : Scope) (word : Int32) (state : State) :
    Runs (operand scope (.ofInt word)) state (.value (.i32 word.toInt)) state := by
  unfold Expr.ofInt operand
  exact runs_pure.2 ⟨rfl, rfl⟩

/-- **A numeral keeps its value, or the program is rejected.**  Let reading come to an atom that is
a run of digits. The digits stand in the text at the line and the column of their token, and neither
a digit nor a point follows them. If the number they write is at most 2147483647, the atom is read
as the constant with this value, and code for it is the decimal of this value; if not, the program
is rejected because of these digits, at their own line and column. -/
theorem literal_kept_or_rejected {source : String} {c : Cursor (.ofTokens (scan source).tokens)}
    {scope : Scope}
    {s : Session} {t : Token} {ts : List Token} (hnext : c.rest = t :: ts)
    (hdigits : ∀ d ∈ t.lexeme.toList, d.isDigit)
    (hreached : RunsInto (Grammar.atom scope c) s
      (Grammar.statements (.start (.ofTokens (scan source).tokens))) {}) :
    (∃ before after, source.toList = before ++ (t.lexeme.toList ++ after) ∧
      t.toPosition = .behind before ∧
      t.lexeme.toList ≠ [] ∧ ∀ d ∈ after.head?, d ≠ '.' ∧ d.isDigit = false) ∧
    let value := Nat.ofDigitChars 10 t.lexeme.toList 0
    if value ≤ 2147483647 then
      ∃ (word : Int32) (d : c.After), word.toInt = value ∧ d.val.rest = ts ∧
        Runs (Grammar.atom scope c) s (.ofInt word, d) s ∧
        ∀ state, ∃ v, Runs (Lower.operand scope (.ofInt word)) state (.value v) state ∧
        v.render = toString value
    else ∃ e, parse (scan source).tokens = .error e ∧ e.line = t.line ∧ e.column? = some t.column ∧
      e.message = s!"syntax error at line {t.line}, column {t.column}: " ++
        s!"integer literal {t.lexeme} does not fit in 32 bits" := by
  have hmem : t ∈ (scan source).tokens.takeWhile fun t => t.kind != .eof := by
    have hin : t ∈ (Input.ofTokens (scan source).tokens).tokens.toList :=
      List.mem_of_mem_drop (i := c.read) (by rw [← Cursor.rest, hnext]; simp)
    simpa [Input.ofTokens] using hin
  have heof : t.kind ≠ .eof := by simpa using List.all_eq_true.1 List.all_takeWhile t hmem
  obtain ⟨before, after, htext, hposition, hlongest⟩ :=
    Scan.stands_of_mem ((List.takeWhile_sublist _).subset hmem) heof
  have hne := Scan.lexeme_ne_nil hlongest.1
  have hkind := kind_of_lexeme_digits hlongest.1 hdigits
  refine ⟨⟨before, after, htext, hposition, hne, Scan.ends_of_longest hne hdigits hlongest⟩, ?_⟩
  intro value
  by_cases hle : value ≤ 2147483647
  · rw [if_pos hle]
    obtain ⟨d, hd, hrun⟩ := Grammar.runs_atom_of_digits scope s hnext hkind hle
    have hword : (Int32.ofInt value).toInt = value := Int32.toInt_ofInt_of_le (by omega) (by omega)
    refine ⟨Int32.ofInt value, d, hword, hd, hrun,
      fun state => ⟨_, Lower.runs_operand_ofInt scope _ state, ?_⟩⟩
    rw [hword]
    rfl
  · rw [if_neg hle]
    exact ⟨_, hreached.fails (Grammar.fails_atom_of_digits hnext hkind hle), rfl, rfl, rfl⟩

/-- The first atom behind an `OUTPUT` at the front of a program is reached. -/
theorem runsInto_output {input : Input} {c : Cursor input} {d : c.After} {s : Session}
    (hskip : c.skip? (.keyword .output) = some d)
    (hsign : d.val.kinds.head? ≠ some (.mark .minus)) :
    RunsInto (Grammar.atom .top d.val) s (Grammar.statements c) s := by
  have hkinds := Cursor.kinds_of_skip? hskip
  have hnewlines : c.skipNewlines = ⟨c, c.left_le⟩ := by
    rw [Cursor.skipNewlines, Cursor.skip?_eq_none (by simp [hkinds])]
  have hexpect : Runs (Analysis.expect c (.keyword .output) "OUTPUT") s d s := by
    unfold Analysis.expect
    rw [hskip]
    exact runs_pure.2 ⟨rfl, rfl⟩
  rw [Grammar.statements, hnewlines]
  simp only [Cursor.atEnd_iff, hkinds, reduceCtorEq, if_false]
  refine .first ?_
  rw [Grammar.statement, Cursor.kind_of_kinds hkinds]
  exact .first (.next hexpect (.first (Grammar.runsInto_atom hsign)))

/-- A program whose one numeral has leading zeros and a value of more than 64 bits. -/
def wideNumeral : String :=
  "OUTPUT 0018446744073709551617"

/-- The place behind the first word of that program. -/
def wideNumeral.operand : Cursor (.ofTokens (scan wideNumeral).tokens) :=
  ⟨1, by decide +kernel⟩

theorem wideNumeral_rejected :
    RunsInto (Grammar.atom .top wideNumeral.operand) {}
        (Grammar.statements (.start (.ofTokens (scan wideNumeral).tokens))) {} ∧
      (∀ d ∈ "0018446744073709551617".toList, d.isDigit) ∧
      ∃ e, parse (scan wideNumeral).tokens = .error e ∧ e.message =
        "syntax error at line 1, column 8: " ++
          "integer literal 0018446744073709551617 does not fit in 32 bits" := by
  have hnext :
    wideNumeral.operand.rest = [⟨⟨1, 8⟩, .int 9223372036854775807, "0018446744073709551617"⟩] := by
    decide +kernel
  have hdigits : ∀ d ∈ "0018446744073709551617".toList, d.isDigit :=
    List.all_eq_true.mp (by decide +kernel)
  have hreached := runsInto_output (c := .start (.ofTokens (scan wideNumeral).tokens)) (s := {})
    (d := ⟨wideNumeral.operand, by decide +kernel⟩) (by decide +kernel) (by decide +kernel)
  obtain ⟨-, hvalue⟩ := literal_kept_or_rejected hnext hdigits hreached
  rw [if_neg (by decide +kernel)] at hvalue
  obtain ⟨e, hparse, -, -, hmessage⟩ := hvalue
  exact ⟨hreached, hdigits, e, hparse, hmessage⟩

end Pseudocode
