import Pseudocode.Proofs.Token.Lexemes

/-!
A text is cut into its longest lexemes.

Scanning cuts a text into pieces and loses none of it.  A piece is a token, a character of white
space or a character that is reported.  `Segment.Exact` says what a piece must be, given the text
before it and the text from it on: a token is the longest lexeme that begins there, only characters
where no lexeme begins are passed over, and whatever carries a position carries the one that the
text before it gives (`Position.behind`).

Cutting goes from piece to piece, so there is a step lemma for one piece (`segments_step`) and an
induction along the pieces (`exact_segments`).
-/

namespace Pseudocode

variable {c : Char} {cs : List Char}

/-! ### Positions -/

/-- Where the next character stands, by the characters before it: every line break begins a line,
and a column counts the characters since the last line break. -/
def Position.behind (read : List Char) : Position :=
  ⟨1 + read.count '\n', 1 + (read.reverse.takeWhile (· != '\n')).length⟩

theorem Position.behind_append_singleton (read : List Char) (c : Char) :
    behind (read ++ [c]) = (behind read).after c := by
  by_cases hc : c = '\n'
  · simp [behind, after, hc, Nat.add_assoc]
  · simp [behind, after, hc, Nat.add_assoc]

/-- Counting along a text from its beginning gives the position behind it. -/
theorem Position.behind_append (read cs : List Char) :
    behind (read ++ cs) = (behind read).afterAll cs := by
  induction cs generalizing read with
  | nil => simp [afterAll]
  | cons c cs ih =>
    rw [← List.singleton_append, ← List.append_assoc, ih, behind_append_singleton]
    rfl

namespace Scan

/-! ### Pieces -/

/-- Does no lexeme begin here? -/
def NoLexeme (left : List Char) : Prop :=
  ∀ text kind, Lexeme text kind → ¬ text <+: left

/-- A lexeme at the front that is longer than any other there, or of the same length and kind. -/
def Longest (left text : List Char) (kind : Kind) : Prop :=
  Lexeme text kind ∧ text <+: left ∧ ∀ text' kind', Lexeme text' kind' → text' <+: left →
    text'.length ≤ text.length ∧ (text'.length = text.length → kind' = kind)

/-- What a piece must be, given the characters before it and those from it on. -/
def Segment.Exact (read left : List Char) : Segment → Prop
  | token t => Longest left t.lexeme.toList t.kind ∧ t.toPosition = .behind read
  | gap c => (c = ' ' ∨ c = '\t' ∨ c = '\r') ∧ NoLexeme left
  | illegal i => ¬ (i.char = ' ' ∨ i.char = '\t' ∨ i.char = '\r') ∧ NoLexeme left ∧
    i.toPosition = .behind read

theorem lexeme_ne_nil {text : List Char} {kind : Kind} (h : Lexeme text kind) : text ≠ [] := by
  cases h with
  | mark m => cases m <;> decide
  | newline hne _ => exact hne
  | string _ => simp
  | whole hne _ => exact hne
  | pointed hne _ _ => simp
  | keyword k => cases k <;> decide
  | name _ _ _ => simp

theorem noLexeme_of_munch (h : munch c cs = none) : NoLexeme (c :: cs) := by
  intro text kind hlexeme hprefix
  obtain ⟨d, w, rfl⟩ := List.exists_cons_of_ne_nil (lexeme_ne_nil hlexeme)
  obtain ⟨rfl, hw⟩ := List.cons_prefix_cons.1 hprefix
  obtain ⟨kind', n, hmunch, -⟩ := covers_of_lexeme hlexeme hw
  simp [h] at hmunch

theorem longest_of_munch {kind : Kind} {n : Nat} (h : munch c cs = some (kind, n)) :
    Longest (c :: cs) (c :: cs.take n) kind := by
  obtain ⟨htaken, hle⟩ := takes_of_munch h
  refine ⟨htaken, List.cons_prefix_cons.2 ⟨rfl, List.take_prefix n cs⟩,
    fun text kind' hlexeme hprefix => ?_⟩
  obtain ⟨d, w, rfl⟩ := List.exists_cons_of_ne_nil (lexeme_ne_nil hlexeme)
  obtain ⟨rfl, hw⟩ := List.cons_prefix_cons.1 hprefix
  obtain ⟨kind₁, n₁, hmunch, hlength, hkind⟩ := covers_of_lexeme hlexeme hw
  obtain ⟨rfl, rfl⟩ := Prod.mk.inj (Option.some.inj (hmunch.symm.trans h))
  simp only [List.length_cons, List.length_take, Nat.min_eq_left hle]
  exact ⟨by omega, fun heq => (hkind (by omega)).symm⟩

theorem isGap_iff : isGap c ↔ c = ' ' ∨ c = '\t' ∨ c = '\r' := by
  simp [isGap, or_assoc]

theorem munch_gap (h : isGap c) (cs : List Char) : munch c cs = none := by
  rcases isGap_iff.1 h with rfl | rfl | rfl <;> simp [munch, mark?_eq_none, signs, startsWord]

theorem text_ne_nil {p : Position} : ∀ piece ∈ segments p cs, piece.text ≠ [] := by
  fun_induction segments p cs with
  | case1 => simp
  | case2 p c cs _ ih => simpa [Segment.text] using ih
  | case3 p c cs _ kind n _ lexeme ih => simpa [Segment.text, lexeme] using ih
  | case4 p c cs _ _ ih => simpa [Segment.text] using ih

/-- One piece is cut off: it is what it must be, and cutting goes on behind it. -/
theorem segments_step (read : List Char) (c : Char) (cs : List Char) : ∃ piece rest,
    segments (.behind read) (c :: cs) = piece :: segments (.behind (read ++ piece.text)) rest ∧
      piece.Exact read (c :: cs) := by
  rw [segments]
  by_cases hgap : isGap c
  · rw [if_pos hgap]
    refine ⟨.gap c, cs, ?_, isGap_iff.1 hgap, noLexeme_of_munch (munch_gap hgap cs)⟩
    rw [Segment.text, Position.behind_append_singleton]
  · rw [if_neg hgap]
    split
    · next kind n hmunch =>
        refine ⟨.token ⟨.behind read, kind, String.ofList (c :: cs.take n)⟩, cs.drop n, ?_, ?_, rfl⟩
        · rw [Segment.text, String.toList_ofList, Position.behind_append]
        · rw [String.toList_ofList]
          exact longest_of_munch hmunch
    · next hmunch =>
        refine ⟨.illegal ⟨.behind read, c⟩, cs, ?_, fun h => hgap (isGap_iff.2 h),
          noLexeme_of_munch hmunch, rfl⟩
        rw [Segment.text, Position.behind_append_singleton]

/-- **Every piece is what it must be**, wherever cutting begins. -/
theorem exact_segments {read cs : List Char} {before after : List Segment} {piece : Segment}
    (h : segments (.behind read) cs = before ++ piece :: after) :
    piece.Exact (read ++ before.flatMap Segment.text) ((piece :: after).flatMap Segment.text) := by
  induction before generalizing read cs with
  | nil =>
    have hleft : (piece :: after).flatMap Segment.text = cs := by
      rw [← text_segments (.behind read) cs, h]; rfl
    cases cs with
    | nil => simp [segments] at h
    | cons c cs =>
      obtain ⟨first, rest, hcut, hexact⟩ := segments_step read c cs
      obtain ⟨rfl, -⟩ := List.cons.inj (hcut.symm.trans h)
      rw [hleft, List.flatMap_nil, List.append_nil]
      exact hexact
  | cons first before ih =>
    cases cs with
    | nil => simp [segments] at h
    | cons c cs =>
      obtain ⟨cut, rest, hcut, -⟩ := segments_step read c cs
      obtain ⟨rfl, hrest⟩ := List.cons.inj (hcut.symm.trans h)
      rw [List.flatMap_cons, ← List.append_assoc]
      exact ih hrest

end Scan

/-- **Scanning is cutting into longest lexemes.**  The pieces hold all of the text in its order, and
none is empty.  The tokens are those of the pieces and one for the end of the text, the reports are
those of the pieces, and every piece is what it must be. -/
theorem scan_cuts_into_longest_lexemes (source : String) : ∃ pieces : List Scan.Segment,
    pieces.flatMap Scan.Segment.text = source.toList ∧ (∀ piece ∈ pieces, piece.text ≠ []) ∧
      (scan source).tokens = pieces.filterMap Scan.Segment.token? ++
      [⟨.behind source.toList, .eof, ""⟩] ∧
      (scan source).illegal = pieces.filterMap Scan.Segment.illegal? ∧
      ∀ before piece after, pieces = before ++ piece :: after →
        piece.Exact (before.flatMap Scan.Segment.text)
        ((piece :: after).flatMap Scan.Segment.text) := by
  have hend : Position.start.afterAll source.toList = .behind source.toList :=
    (Position.behind_append [] _).symm
  refine ⟨Scan.segments .start source.toList, Scan.text_segments _ _, Scan.text_ne_nil, ?_, rfl, ?_⟩
  · rw [← hend]
    rfl
  · intro before piece after h
    have hexact := @Scan.exact_segments [] _ _ _ _ h
    rwa [List.nil_append] at hexact

/-- A quotation mark that is not closed on its line is reported, and the line is scanned without
it. -/
example : (scan "x = \"1\ny\r<>2.").tokens.map (fun t => (t.line, t.column, t.lexeme)) =
    [(1, 1, "x"), (1, 3, "="), (1, 6, "1"), (1, 7, "\n"), (2, 1, "y"), (2, 3, "<>"), (2, 5, "2."),
      (2, 7, "")] := by
  decide +kernel

end Pseudocode
