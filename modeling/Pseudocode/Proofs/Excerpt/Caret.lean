import Mathlib.Data.List.TakeWhile
import Pseudocode.Proofs.Grammar.Rejections
import Pseudocode.Proofs.Layout.Lines
import Pseudocode.Proofs.Token.Segmentation
import Pseudocode.SourceError.Excerpt

/-!
The caret is under the token to blame.

Three things have to fit.  An error of the grammar is at a token (`SourceError.Located`).  The place
of a token counts the line feeds before it, and the characters since the last of them
(`Scan.exact_segments`).  And the lines of a text are numbered by the same line feeds, although a
carriage return before one belongs to the line end: it is not shown, so a token that ended with it
would be cut short, and no token does (`Text.getElem?_linesOf`).
-/

namespace Pseudocode

variable {word : List Char} {source : String} {t : Token}

/-! ### Places and line feeds -/

namespace Position

theorem behind_feed_cons (read : List Char) :
    behind ('\n' :: read) = ⟨(behind read).line + 1, (behind read).column⟩ := by
  have hstop : ['\n'].takeWhile (· != '\n') = [] := by decide
  have hwhile :
    ('\n' :: read).reverse.takeWhile (· != '\n') = read.reverse.takeWhile (· != '\n') := by
    rw [List.reverse_cons, List.takeWhile_append, hstop, List.append_nil]
    split
    next hall => exact ((List.takeWhile_prefix _).eq_of_length hall).symm
    next => rfl
  unfold behind
  rw [hwhile, List.count_cons_self, Nat.add_assoc]

variable {c : Char} {read : List Char}

/-- Behind a line feed, a column does not count what stands before it. -/
theorem behind_cons_of_mem (hc : c ≠ '\n') (hread : '\n' ∈ read) :
    behind (c :: read) = behind read := by
  have hless : (read.reverse.takeWhile (· != '\n')).length ≠ read.reverse.length := by
    intro hall
    have heq := (List.takeWhile_prefix _).eq_of_length hall
    have hmem : '\n' ∈ read.reverse.takeWhile (· != '\n') := by
      rw [heq]
      exact List.mem_reverse.2 hread
    exact absurd (Scan.of_mem_takeWhile _ hmem) (by decide)
  unfold behind
  rw [List.reverse_cons, List.takeWhile_append, if_neg hless, List.count_cons_of_ne hc]

theorem behind_of_not_mem (hread : '\n' ∉ read) : behind read = ⟨1, 1 + read.length⟩ := by
  have hall : read.reverse.takeWhile (· != '\n') = read.reverse := by
    refine List.takeWhile_eq_self_iff.2 fun c hmem => ?_
    have hc : c ≠ '\n' := fun heq => hread (heq ▸ List.mem_reverse.1 hmem)
    simpa using hc
  unfold behind
  rw [hall, List.length_reverse, List.count_eq_zero_of_not_mem hread]

end Position

/-! ### The line at a place -/

namespace Text

variable {c : Char} {cs : List Char}

/-- A character that does not begin a line end is the first of its line. -/
theorem linesOf_cons (hc : c ≠ '\n') (hcs : ¬ (c = '\r' ∧ cs.head? = some '\n')) :
    linesOf (c :: cs) = match linesOf cs with
      | [] => [[c]]
      | line :: lines => (c :: line) :: lines := by
  have hreturn : ∀ rest, c = '\r' → cs = '\n' :: rest → False := by
    rintro rest rfl rfl
    exact hcs ⟨rfl, rfl⟩
  refine (linesOf.eq_4 c cs hc hreturn).trans ?_
  cases linesOf cs <;> rfl

theorem getElem?_succ_linesOf_cons (hc : c ≠ '\n') (hcs : ¬ (c = '\r' ∧ cs.head? = some '\n'))
    (n : Nat) : (linesOf (c :: cs))[n + 1]? = (linesOf cs)[n + 1]? := by
  rw [linesOf_cons hc hcs]
  cases linesOf cs <;> rfl

theorem getElem?_zero_linesOf_cons {line : List Char} (hc : c ≠ '\n')
    (hcs : ¬ (c = '\r' ∧ cs.head? = some '\n'))
    (h : (linesOf cs)[0]? = some line) : (linesOf (c :: cs))[0]? = some (c :: line) := by
  rw [linesOf_cons hc hcs]
  cases hlines : linesOf cs with
  | nil => simp [hlines] at h
  | cons first lines =>
    rw [hlines] at h
    obtain rfl := Option.some.inj h
    rfl

/-- A word without a line feed is shown on its line, unless it ends with a carriage return. -/
structure OnLine (word : List Char) : Prop where
  ne_nil : word ≠ []
  noFeed : '\n' ∉ word
  noReturn : word.getLast? ≠ some '\r'

theorem OnLine.head?_append (h : OnLine word) (rest : List Char) :
    (word ++ rest).head? ≠ some '\n' := by
  obtain ⟨d, word', rfl⟩ := List.exists_cons_of_ne_nil h.ne_nil
  intro hhead
  obtain rfl : d = '\n' := Option.some.inj hhead
  exact h.noFeed List.mem_cons_self

theorem OnLine.first (h : OnLine word) (rest : List Char) :
    ∃ tail, (linesOf (word ++ rest))[0]? = some (word ++ tail) := by
  obtain ⟨hne, hline, hlast⟩ := h
  induction word with
  | nil => exact absurd rfl hne
  | cons c word ih =>
    have hc : c ≠ '\n' := fun heq => hline (heq ▸ List.mem_cons_self)
    have hword : '\n' ∉ word := List.not_mem_of_not_mem_cons hline
    by_cases hnil : word = []
    · subst hnil
      -- The word is a single character, and it is no carriage return.
      have hreturn : c ≠ '\r' := fun heq => hlast (by rw [heq]; rfl)
      have hcs : ¬ (c = '\r' ∧ rest.head? = some '\n') := fun hboth => hreturn hboth.1
      rw [List.singleton_append, linesOf_cons hc hcs]
      cases linesOf rest with
      | nil => exact ⟨[], rfl⟩
      | cons line lines => exact ⟨line, rfl⟩
    · have honline : OnLine word :=
        ⟨hnil, hword, by rwa [List.getLast?_cons_of_ne_nil hnil] at hlast⟩
      obtain ⟨tail, htail⟩ := ih hnil hword honline.noReturn
      refine ⟨tail, getElem?_zero_linesOf_cons hc (fun hboth => ?_) htail⟩
      exact honline.head?_append rest hboth.2

/-- **A word is on the line that the line feeds before it give**, at the column that the characters
since the last of them give. -/
theorem getElem?_linesOf (h : OnLine word) (read rest : List Char) : ∃ front tail,
    (linesOf (read ++ (word ++ rest)))[(Position.behind read).line - 1]? =
    some (front ++ (word ++ tail)) ∧
      (Position.behind read).column = 1 + front.length := by
  induction read with
  | nil =>
    obtain ⟨tail, htail⟩ := h.first rest
    exact ⟨[], tail, htail, rfl⟩
  | cons c read ih =>
    obtain ⟨front, tail, hget, hcolumn⟩ := ih
    have hpos : (Position.behind read).line - 1 + 1 = (Position.behind read).line := by
      simp only [Position.behind]
      omega
    by_cases hc : c = '\n'
    · refine ⟨front, tail, ?_, by rw [hc, Position.behind_feed_cons]; exact hcolumn⟩
      rw [hc, Position.behind_feed_cons, List.cons_append, linesOf, Nat.add_sub_cancel, ← hpos,
        List.getElem?_cons_succ]
      exact hget
    · by_cases hreturn : c = '\r' ∧ (read ++ (word ++ rest)).head? = some '\n'
      · -- A carriage return at the end of a line is not there to be shown, and a line feed that was
        -- read follows it.
        obtain ⟨rfl, hhead⟩ := hreturn
        cases read with
        | nil => exact absurd hhead (h.head?_append rest)
        | cons d read =>
          obtain rfl : d = '\n' := Option.some.inj hhead
          rw [Position.behind_cons_of_mem hc List.mem_cons_self]
          exact ⟨front, tail, hget, hcolumn⟩
      · by_cases hread : '\n' ∈ read
        · have hline : ∃ n, (Position.behind read).line - 1 = n + 1 := by
            have hcount := List.count_pos_iff.2 hread
            refine ⟨read.count '\n' - 1, ?_⟩
            simp only [Position.behind]
            omega
          obtain ⟨n, hn⟩ := hline
          rw [Position.behind_cons_of_mem hc hread]
          refine ⟨front, tail, ?_, hcolumn⟩
          rw [hn] at hget ⊢
          rw [List.cons_append, getElem?_succ_linesOf_cons hc hreturn]
          exact hget
        · have hcons : '\n' ∉ c :: read := by
            intro hmem
            exact (List.mem_cons.1 hmem).elim (fun heq => hc heq.symm) hread
          rw [Position.behind_of_not_mem hread] at hget hcolumn
          rw [Position.behind_of_not_mem hcons]
          refine ⟨c :: front, tail, getElem?_zero_linesOf_cons hc hreturn hget, ?_⟩
          simp only [List.length_cons] at hcolumn ⊢
          omega

end Text

/-! ### The token at a place -/

namespace Scan

/-- Every token but a line break is shown on its line. -/
theorem onLine_of_lexeme {kind : Kind} (h : Lexeme word kind) (hkind : kind ≠ .newline) :
    Text.OnLine word := by
  -- Most lexemes have neither of the two characters.
  have hplain : (∀ c ∈ word, c ≠ '\n' ∧ c ≠ '\r') → Text.OnLine word := fun hall =>
    ⟨lexeme_ne_nil h, fun hmem => (hall _ hmem).1 rfl,
      fun hlast => (hall _ (List.mem_of_getLast? hlast)).2 rfl⟩
  have hdigit : ∀ c : Char, c.isDigit = true → c ≠ '\n' ∧ c ≠ '\r' := by
    intro c hc
    constructor <;> rintro rfl <;> exact absurd hc (by decide)
  have hword : ∀ c : Char, c = '_' ∨ c.isAlphanum = true → c ≠ '\n' ∧ c ≠ '\r' := by
    intro c hc
    constructor <;> rintro rfl <;> exact absurd hc (by decide)
  cases h with
  | mark m => exact ⟨lexeme_ne_nil (.mark m), by cases m <;> decide, by cases m <;> decide⟩
  | newline hne hall => exact absurd rfl hkind
  | string hbody =>
    refine ⟨by simp, fun hmem => ?_, ?_⟩
    · rcases List.mem_cons.1 hmem with heq | hmem
      · exact absurd heq (by decide)
      · rcases List.mem_append.1 hmem with hmem | hmem
        · exact (hbody _ hmem).2 rfl
        · exact absurd (List.mem_singleton.1 hmem) (by decide)
    · rw [← List.cons_append, List.getLast?_concat]
      decide
  | whole hne hall => exact hplain fun c hc => hdigit c (hall c hc)
  | pointed hne hbefore hafter =>
    refine hplain fun c hc => ?_
    rcases List.mem_append.1 hc with hc | hc
    · exact hdigit c (hbefore c hc)
    · rcases List.mem_cons.1 hc with rfl | hc
      · decide
      · exact hdigit c (hafter c hc)
  | keyword k => exact ⟨lexeme_ne_nil (.keyword k), by cases k <;> decide, by cases k <;> decide⟩
  | name hfirst hrest _ =>
    refine hplain (List.forall_mem_cons.2 ⟨hword _ (hfirst.imp_right fun halpha => ?_),
      fun d hd => hword d (hrest d hd)⟩)
    simp [Char.isAlphanum, halpha]

theorem mem_tokens (h : t ∈ (scan source).tokens) :
    .token t ∈ segments .start source.toList ∨ t = ⟨.behind source.toList, .eof, ""⟩ := by
  rcases List.mem_append.1 h with h | h
  · obtain ⟨piece, hpiece, hsome⟩ := List.mem_filterMap.1 h
    cases piece with
    | token t' => exact Or.inl (Option.some.inj hsome ▸ hpiece)
    | gap c => cases hsome
    | illegal i => cases hsome
  · have hend : Position.start.afterAll source.toList = .behind source.toList :=
      (Position.behind_append [] _).symm
    rw [← hend]
    exact Or.inr (List.mem_singleton.1 h)

/-- A token is a lexeme of the text, and stands where the text before it ends. -/
theorem text_at_token (h : .token t ∈ segments .start source.toList) :
    ∃ before after, source.toList = before ++ (t.lexeme.toList ++ after) ∧
    t.toPosition = .behind before ∧
      Lexeme t.lexeme.toList t.kind := by
  obtain ⟨first, last, hcut⟩ := List.append_of_mem h
  obtain ⟨⟨hlexeme, -, -⟩, hplace⟩ := @exact_segments [] source.toList first last _ hcut
  refine ⟨first.flatMap Segment.text, last.flatMap Segment.text, ?_, hplace, hlexeme⟩
  rw [← text_segments .start source.toList, hcut, List.flatMap_append, List.flatMap_cons]
  rfl

end Scan

theorem Input.mem_all_scan (h : t ∈ (Input.ofTokens (scan source).tokens).all) :
    t ∈ (scan source).tokens := by
  rcases List.mem_append.1 h with htoken | hstop
  · have htoken : t ∈ (scan source).tokens.takeWhile fun t => t.kind != .eof := by
      simpa [ofTokens] using htoken
    exact (List.takeWhile_sublist _).subset htoken
  · rw [List.mem_singleton.1 hstop, (rest_start_scan source).2]
    exact List.mem_append_right _ List.mem_cons_self

/-! ### What is shown -/

namespace SourceError

/-- What is wrong and where, as it is written above the line that is shown. -/
def heading (label : String) (e : SourceError) : String :=
  let column := match e.column? with
    | some column => s!":{column}"
    | none => ""
  s!"error: {e.message}\n--> {label}:{e.line}{column}"

/-- The line that is shown, with a caret if a column is known. -/
def marked (line : String) (e : SourceError) : String :=
  match e.column? with
  | some column => Text.underline line column
  | none => line

theorem excerpt_eq {line : String} {e : SourceError}
    (h : (Text.lines source)[e.line - 1]? = some line)
    (label : String) : e.excerpt label source = e.heading label ++ "\n" ++ e.marked line := by
  unfold excerpt heading marked
  rw [h]
  cases e.column? <;> rfl

end SourceError

/-- **The caret is under the token to blame.**  If a source is rejected by the grammar, then at the
place of one of its tokens, which is the one that is said to have been found.  Unless that is a line
break or the end of the source, what is shown ends with the line that the token is on, and below it
a caret under the first character of the token. -/
theorem caret_under_token {source : String} {p : Position} {fault : SyntaxFault}
    (h : parse (scan source).tokens = .error (.grammar p fault)) :
    ∃ t ∈ (scan source).tokens, t.toPosition = p ∧ (∀ found ∈ fault.found?, found = t) ∧
      (t.kind ≠ .newline → t.kind ≠ .eof → ∃ before after line,
        source.toList = before ++ (t.lexeme.toList ++ after) ∧ p = .behind before ∧
        (Text.lines source)[before.count '\n']? = some line ∧
        t.lexeme.toList ≠ [] ∧ t.lexeme.toList <+: line.toList.drop (p.column - 1) ∧
        ∀ label, (SourceError.grammar p fault).excerpt label source =
        (SourceError.grammar p fault).heading label ++
          "\n" ++ (line ++ "\n" ++ String.ofList (List.replicate (p.column - 1) ' ') ++ "^")) := by
  obtain ⟨t, ht, rfl, hfound⟩ := (explained_of_parse h).located
  have ht := Input.mem_all_scan ht
  refine ⟨t, ht, rfl, hfound, fun hnewline heof => ?_⟩
  have hpiece := (Scan.mem_tokens ht).resolve_right fun hend => heof (hend ▸ rfl)
  obtain ⟨before, after, htext, hplace, hlexeme⟩ := Scan.text_at_token hpiece
  obtain ⟨front, tail, hline, hcolumn⟩ :=
    Text.getElem?_linesOf (Scan.onLine_of_lexeme hlexeme hnewline) before after
  have hcount : (Position.behind before).line - 1 = before.count '\n' := by
    simp only [Position.behind]
    omega
  rw [← htext] at hline
  have hshown : (Text.lines source)[(Position.behind before).line - 1]? =
      some (String.ofList (front ++ (t.lexeme.toList ++ tail))) := by
    unfold Text.lines
    rw [List.getElem?_map, hline]
    rfl
  rw [← hplace] at hcolumn hcount hshown
  refine ⟨before, after, _, htext, hplace, hcount ▸ hshown, Scan.lexeme_ne_nil hlexeme, ?_,
    fun label => ?_⟩
  · rw [String.toList_ofList, hcolumn, Nat.add_sub_cancel_left, List.drop_left]
    exact List.prefix_append _ _
  · exact SourceError.excerpt_eq hshown label

/-- A line with a tab, a wide character and a bracket that nothing opens. -/
def unopened : String :=
  "x = 1\r\n\tOUTPUT \"é\" ) x\r\n"

/-- What it is rejected for. -/
def unopenedError : SourceError :=
  .grammar ⟨2, 13⟩ (.expected "line break after statement" ⟨⟨2, 13⟩, .mark .rightParen, ")"⟩)

theorem unopened_caret : parse (scan unopened).tokens = .error unopenedError ∧
    ∃ line, (Text.lines unopened)[1]? = some line ∧ [')'] <+: line.toList.drop 12 ∧
      unopenedError.excerpt "code.pc" unopened = unopenedError.heading "code.pc" ++ "\n" ++
        (line ++ "\n" ++ "            " ++ "^") := by
  have h : parse (scan unopened).tokens = .error unopenedError :=
    eq_error_of_match (by decide +kernel)
  obtain ⟨t, -, -, hfound, hshown⟩ := caret_under_token h
  obtain rfl := hfound _ rfl
  obtain ⟨before, after, line, -, hplace, hline, -, hprefix, hexcerpt⟩ :=
    hshown (by decide) (by decide)
  have hcount : before.count '\n' = 1 := by
    have hlines := congrArg Position.line hplace
    simp only [Position.behind] at hlines
    omega
  rw [hcount] at hline
  exact ⟨h, line, hline, hprefix, hexcerpt "code.pc"⟩

end Pseudocode
