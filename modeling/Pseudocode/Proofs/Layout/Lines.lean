import Pseudocode.Compiler
import Pseudocode.Proofs.Grammar.Complete.Statements
import Pseudocode.Proofs.Layout.Tidy
import Pseudocode.Proofs.Token.Lexemes

/-!
The layout of a source does not matter.

No token reaches over the end of its line, so a line is scanned in the same way wherever it stands
(`segments_append`), also if a quotation mark on it is never closed.  A text is therefore scanned
line by line (`Lined.tidy_kindsOf`), and up to line breaks there is nothing to see of a blank line,
of the white space that a line starts with, or of a carriage return before the line feed.  Most
white space is illegal between tokens, but it is skipped there and gives no token either.

So a source and what `dedent` makes of it have the same tokens, laid out differently, and these are
read in step.  The places in an error change with the layout, and its reason does not.
-/

namespace Pseudocode

variable {c : Char} {line cs : List Char} {lines : List (List Char)}

namespace Scan

/-! ### A line is scanned on its own -/

/-- What follows a line: its line feed, with all that comes after it, or a carriage return at the
very end. -/
inductive LineEnd : List Char → Prop where
  | feed (rest : List Char) : LineEnd ('\n' :: rest)
  | carriageReturn : LineEnd ['\r']

section

variable {x : List Char} (hx : LineEnd x)

include hx

theorem takeWhile_append_end {p : Char → Bool} (hfeed : p '\n' = false) (hreturn : p '\r' = false)
    (cs : List Char) : (cs ++ x).takeWhile p = cs.takeWhile p := by
  induction cs with
  | nil => cases hx <;> simp [hfeed, hreturn]
  | cons c cs ih => simp only [List.cons_append, List.takeWhile_cons, ih]

theorem mark?_append (c : Char) (cs : List Char) : mark? c (cs ++ x) = mark? c cs := by
  cases cs with
  | nil => cases hx <;> unfold mark? <;> split <;> simp_all
  | cons d cs => unfold mark?; split <;> simp_all

theorem string?_append (cs : List Char) : string? (cs ++ x) = string? cs := by
  have hle := (List.takeWhile_prefix (l := cs) continuesString).length_le
  unfold string?
  dsimp only
  rw [List.takeWhile_append]
  by_cases hall : (cs.takeWhile continuesString).length = cs.length
  · -- Nothing closes the string: a carriage return goes on with it, and then the text has ended.
    have hnone : cs.drop (cs.takeWhile continuesString).length = [] := by
      rw [hall, List.drop_length]
    rw [if_pos hall, hnone]
    cases hx with
    | feed rest => simp [continuesString]
    | carriageReturn => simp [continuesString]
  · rw [if_neg hall, List.drop_append_of_le_length hle]
    cases hrest : cs.drop (cs.takeWhile continuesString).length with
    | nil =>
      have := List.drop_eq_nil_iff.1 hrest
      omega
    | cons d rest => by_cases hd : d = '"' <;> simp [hd]

theorem numeral_append (c : Char) (cs : List Char) : numeral c (cs ++ x) = numeral c cs := by
  have hle := (List.takeWhile_prefix (l := cs) Char.isDigit).length_le
  unfold numeral
  dsimp only
  rw [takeWhile_append_end hx (by decide) (by decide), List.drop_append_of_le_length hle]
  cases cs.drop (cs.takeWhile Char.isDigit).length with
  | nil => cases hx <;> rfl
  | cons d rest =>
    by_cases hd : d = '.'
    · simp [hd, takeWhile_append_end hx (p := Char.isDigit) (by decide) (by decide)]
    · simp [hd]

theorem word_append (c : Char) (cs : List Char) : word c (cs ++ x) = word c cs := by
  unfold word
  rw [takeWhile_append_end hx (by decide) (by decide)]

theorem munch_append (hc : c ≠ '\n') (cs : List Char) : munch c (cs ++ x) = munch c cs := by
  unfold munch
  rw [mark?_append hx, string?_append hx, numeral_append hx, word_append hx, if_neg hc, if_neg hc]

/-- **Scanning is local to lines.** -/
theorem segments_append (p : Position) (hline : '\n' ∉ line) :
    segments p (line ++ x) = segments p line ++ segments (p.afterAll line) x := by
  fun_induction segments p line with
  | case1 => rfl
  | case2 p c cs hgap ih =>
    rw [List.cons_append, segments, if_pos hgap, ih (List.not_mem_of_not_mem_cons hline)]
    rfl
  | case3 p c cs hgap kind n hmunch lexeme ih =>
    have hc : c ≠ '\n' := fun h => hline (by simp [h])
    have hcs := List.not_mem_of_not_mem_cons hline
    have hn := (takes_of_munch hmunch).2
    have hafter : p.afterAll (c :: cs) = (p.afterAll lexeme).afterAll (cs.drop n) := by
      show _ = List.foldl _ (List.foldl _ p (c :: cs.take n)) (cs.drop n)
      rw [← List.foldl_append, List.cons_append, List.take_append_drop]
      rfl
    rw [List.cons_append, segments, if_neg hgap, munch_append hx hc, hmunch, hafter]
    dsimp only
    rw [List.take_append_of_le_length hn, List.drop_append_of_le_length hn,
      ih fun hmem => hcs (List.mem_of_mem_drop hmem)]
    rfl
  | case4 p c cs hgap hmunch ih =>
    have hc : c ≠ '\n' := fun h => hline (by simp [h])
    rw [List.cons_append, segments, if_neg hgap, munch_append hx hc, hmunch]
    dsimp only
    rw [ih (List.not_mem_of_not_mem_cons hline)]
    rfl

end

/-! ### The kinds of the tokens of a text -/

/-- The kinds of the tokens of a text. -/
def kindsOf (cs : List Char) : List Kind :=
  ((segments .start cs).filterMap Segment.token?).map Token.kind

@[simp] theorem kindsOf_nil : kindsOf [] = [] := by
  simp [kindsOf, segments]

/-- Where a text stands does not change its kinds. -/
theorem kinds_segments (p q : Position) (cs : List Char) :
    ((segments p cs).filterMap Segment.token?).map Token.kind =
      ((segments q cs).filterMap Segment.token?).map Token.kind := by
  fun_induction segments p cs generalizing q with
  | case1 => simp [segments]
  | case2 p c cs hgap ih =>
    rw [segments, if_pos hgap]
    exact ih _
  | case3 p c cs hgap kind n hmunch lexeme ih =>
    rw [segments, if_neg hgap, hmunch]
    exact congrArg (kind :: ·) (ih _)
  | case4 p c cs hgap hmunch ih =>
    rw [segments, if_neg hgap, hmunch]
    exact ih _

theorem kindsOf_append {x : List Char} (hx : LineEnd x) (hline : '\n' ∉ line) :
    kindsOf (line ++ x) = kindsOf line ++ kindsOf x := by
  unfold kindsOf
  rw [segments_append hx _ hline, List.filterMap_append, List.map_append,
    kinds_segments (Position.afterAll _ line) .start]

theorem kindsOf_of_munch {kind : Kind} {n : Nat} (hgap : isGap c = false)
    (h : munch c cs = some (kind, n)) : kindsOf (c :: cs) = kind :: kindsOf (cs.drop n) := by
  unfold kindsOf
  rw [segments, if_neg (by simp [hgap]), h]
  exact congrArg (kind :: ·) (kinds_segments _ _ _)

theorem kindsOf_of_none (h : munch c cs = none) : kindsOf (c :: cs) = kindsOf cs := by
  unfold kindsOf
  rw [segments, h]
  by_cases hgap : isGap c = true
  · rw [if_pos hgap]
    exact kinds_segments _ _ _
  · rw [if_neg hgap]
    exact kinds_segments _ _ _

/-- The end of the input is not among the tokens that are cut out of the text. -/
theorem kind_ne_eof {p : Position} {t : Token} (h : .token t ∈ segments p cs) : t.kind ≠ .eof :=
  ne_eof_of_lexeme (lexeme_of_mem_segments h)

/-- A line feed is a line break, up to the ones that follow it. -/
theorem tidy_kindsOf_feed (cs : List Char) :
    tidy (kindsOf ('\n' :: cs)) = tidy (.newline :: kindsOf cs) := by
  have hfeed :
    ∀ cs, kindsOf ('\n' :: cs) = .newline :: kindsOf (cs.drop (cs.takeWhile (· == '\n')).length) :=
    fun cs => kindsOf_of_munch (by decide) (by simp [munch, mark?_eq_none (c := '\n') (by decide)])
  rw [hfeed]
  cases cs with
  | nil => rfl
  | cons c cs =>
    by_cases hc : c = '\n'
    · rw [hc, hfeed cs]
      simp [tidy_newline]
    · simp [hc]

/-! ### White space in front of a line -/

theorem munch_blank (hblank : Text.isBlank c = true) (hc : c ≠ '\n') (cs : List Char) :
    munch c cs = none := by
  have hsign : c ∉ signs := by
    intro hmem
    have hall : signs.all (fun c => !Text.isBlank c) = true := by decide
    simpa [hblank] using List.all_eq_true.1 hall c hmem
  have hquote : c ≠ '"' := by
    rintro rfl
    exact absurd hblank (by decide)
  have hrange : c.toNat ≤ 32 ∨ 128 ≤ c.toNat := by
    simp only [Text.isBlank, Text.blankRanges, List.any_cons, List.any_nil, Bool.or_false,
      Bool.or_eq_true, Bool.and_eq_true, decide_eq_true_eq] at hblank
    omega
  have hdigit : c.isDigit = false := by
    unfold Char.isDigit
    simp only [Bool.and_eq_false_iff, decide_eq_false_iff_not, UInt32.le_iff_toNat_le, ge_iff_le]
    have h0 : '0'.val.toNat = 48 := rfl
    have h9 : '9'.val.toNat = 57 := rfl
    have hval : c.toNat = c.val.toNat := rfl
    omega
  have hword : startsWord c = false := by
    refine Bool.eq_false_iff.2 fun hstarts => ?_
    rcases startsWord_iff.1 hstarts with rfl | halpha
    · exact absurd hblank (by decide)
    · unfold Char.isAlpha Char.isUpper Char.isLower at halpha
      simp only [Bool.or_eq_true, Bool.and_eq_true, decide_eq_true_eq, UInt32.le_iff_toNat_le,
        ge_iff_le] at halpha
      have hA : 'A'.val.toNat = 65 := rfl
      have hZ : 'Z'.val.toNat = 90 := rfl
      have ha : 'a'.val.toNat = 97 := rfl
      have hz : 'z'.val.toNat = 122 := rfl
      have hval : c.toNat = c.val.toNat := rfl
      omega
  simp [munch, mark?_eq_none hsign, hc, hquote, hdigit, hword]

/-- White space in front of a line gives no token. -/
theorem kindsOf_trimStart (hline : '\n' ∉ line) : kindsOf (Text.trimStart line) = kindsOf line := by
  unfold Text.trimStart
  induction line with
  | nil => rfl
  | cons c cs ih =>
    by_cases hblank : Text.isBlank c = true
    · have hc : c ≠ '\n' := fun h => hline (by simp [h])
      rw [List.dropWhile_cons_of_pos hblank, kindsOf_of_none (munch_blank hblank hc cs),
        ih (List.not_mem_of_not_mem_cons hline)]
    · rw [List.dropWhile_cons_of_neg hblank]

theorem kindsOf_blank (hline : '\n' ∉ line) (hblank : line.all Text.isBlank = true) :
    kindsOf line = [] := by
  have hdropped : (line ++ []).dropWhile Text.isBlank = [] :=
    List.dropWhile_append_of_pos (List.all_eq_true.1 hblank)
  rw [List.append_nil] at hdropped
  rw [← kindsOf_trimStart hline, Text.trimStart, hdropped, kindsOf_nil]

end Scan

/-! ### The lines of a text -/

namespace Text

open Scan

/-- A text and its lines.  The last line may have no line end. -/
inductive Lined : List Char → List (List Char) → Prop where
  | nil : Lined [] []
  | last {line : List Char} (hne : line ≠ []) (hline : '\n' ∉ line) : Lined line [line]
  | feed {line rest : List Char} {lines : List (List Char)} (hline : '\n' ∉ line)
    (hrest : Lined rest lines) :
      Lined (line ++ '\n' :: rest) (line :: lines)
  | returnFeed {line rest : List Char} {lines : List (List Char)} (hline : '\n' ∉ line)
    (hrest : Lined rest lines) :
      Lined (line ++ '\r' :: '\n' :: rest) (line :: lines)

theorem lined_linesOf (cs : List Char) : Lined cs (linesOf cs) := by
  have hcons : ∀ {c : Char} {line : List Char}, c ≠ '\n' → '\n' ∉ line → '\n' ∉ c :: line := by
    intro c line hc hline hmem
    rcases List.mem_cons.1 hmem with heq | hmem
    · exact hc heq.symm
    · exact hline hmem
  fun_induction linesOf cs with
  | case1 => exact .nil
  | case2 cs ih => exact @Lined.feed [] cs _ List.not_mem_nil ih
  | case3 cs ih => exact @Lined.returnFeed [] cs _ List.not_mem_nil ih
  | case4 c cs hc _ hnone ih =>
    rw [hnone] at ih
    cases ih
    exact .last (List.cons_ne_nil c []) (hcons hc List.not_mem_nil)
  | case5 c cs hc _ line lines hsome ih =>
    rw [hsome] at ih
    cases ih with
    | last hne hline => exact .last (List.cons_ne_nil c _) (hcons hc hline)
    | feed hline hrest => exact .feed (hcons hc hline) hrest
    | returnFeed hline hrest => exact .returnFeed (hcons hc hline) hrest

theorem Lined.not_mem (h : Lined cs lines) : ∀ line ∈ lines, '\n' ∉ line := by
  induction h with
  | nil => simp
  | last _ hline => simpa using hline
  | feed hline _ ih => exact List.forall_mem_cons.2 ⟨hline, ih⟩
  | returnFeed hline _ ih => exact List.forall_mem_cons.2 ⟨hline, ih⟩

/-- The kinds of the tokens of some lines, with a line break before each line. -/
def kindsOfLines (lines : List (List Char)) : List Kind :=
  lines.flatMap fun line => .newline :: kindsOf line

theorem kindsOfLines_cons (line : List Char) (lines : List (List Char)) :
    kindsOfLines (line :: lines) = .newline :: (kindsOf line ++ kindsOfLines lines) :=
  rfl

/-- A line break before the break of the first line, or before the end, is one too many. -/
theorem tidy_newline_kindsOfLines (lines : List (List Char)) :
    tidy (.newline :: kindsOfLines lines) = tidy (kindsOfLines lines) := by
  cases lines with
  | nil => rfl
  | cons line lines =>
    rw [kindsOfLines_cons, tidy_newline (.newline :: _), tidy_newline, breakBefore_breakBefore]

/-- **A text is scanned line by line.** -/
theorem Lined.tidy_kindsOf (h : Lined cs lines) :
    tidy (.newline :: kindsOf cs) = tidy (kindsOfLines lines) := by
  have hfeed : ∀ {line rest : List Char} {lines : List (List Char)}, '\n' ∉ line →
      tidy (.newline :: kindsOf rest) = tidy (kindsOfLines lines) →
      tidy (.newline :: kindsOf (line ++ '\n' :: rest)) = tidy (kindsOfLines (line :: lines)) := by
    intro line rest lines hline ih
    rw [kindsOf_append (.feed rest) hline, ← List.cons_append,
      tidy_append _ ((tidy_kindsOf_feed rest).trans ih)]
    rfl
  induction h with
  | nil => simp [kindsOfLines, tidy, breakBefore]
  | last _ _ => simp [kindsOfLines]
  | feed hline _ ih => exact hfeed hline ih
  | returnFeed hline hrest ih =>
    rename_i line rest lines
    -- The carriage return is a gap at the end of the line.
    have hreturn : '\n' ∉ line ++ ['\r'] := by simpa using hline
    have hkinds : kindsOf (line ++ ['\r']) = kindsOf line := by
      rw [kindsOf_append .carriageReturn hline, kindsOf_of_none (by rfl), kindsOf_nil,
        List.append_nil]
    have hlines := hfeed hreturn ih
    rw [List.append_assoc] at hlines
    rw [kindsOfLines, List.flatMap_cons, ← hkinds]
    exact hlines

theorem lined_intercalate (hne : ∀ line ∈ lines, line ≠ []) (hlines : ∀ line ∈ lines, '\n' ∉ line) :
    Lined (['\n'].intercalate lines) lines := by
  induction lines with
  | nil => exact .nil
  | cons line lines ih =>
    obtain ⟨hfirst, hrest⟩ := List.forall_mem_cons.1 hne
    obtain ⟨hline, hlines⟩ := List.forall_mem_cons.1 hlines
    cases lines with
    | nil => simpa using Lined.last hfirst hline
    | cons next lines => simpa using Lined.feed hline (ih hrest hlines)

/-- The lines that are not blank, without the white space they start with. -/
def keptLines (lines : List (List Char)) : List (List Char) :=
  (lines.filter fun line => !line.all isBlank).map trimStart

theorem toList_dedent (text : String) :
    (dedent text).toList = ['\n'].intercalate (keptLines (linesOf text.toList)) := by
  unfold dedent
  simp [keptLines, String.toList_intercalate, Function.comp_def]

theorem trimStart_ne_nil (h : line.all isBlank = false) : trimStart line ≠ [] := by
  intro hnil
  have hwhole := List.takeWhile_append_dropWhile (p := isBlank) (l := line)
  rw [show line.dropWhile isBlank = [] from hnil, List.append_nil] at hwhole
  rw [← hwhole, List.all_takeWhile] at h
  cases h

theorem lined_dedent (text : String) :
    Lined (dedent text).toList (keptLines (linesOf text.toList)) := by
  rw [toList_dedent]
  refine lined_intercalate ?_ ?_
  · intro kept hkept
    obtain ⟨line, hline, rfl⟩ := List.mem_map.1 hkept
    exact trimStart_ne_nil (by simpa using (List.mem_filter.1 hline).2)
  · intro kept hkept
    obtain ⟨line, hline, rfl⟩ := List.mem_map.1 hkept
    have hnone := (lined_linesOf text.toList).not_mem line (List.mem_filter.1 hline).1
    exact fun hmem => hnone ((List.dropWhile_suffix isBlank).subset hmem)

/-- Up to line breaks the lines that are kept have all the tokens. -/
theorem tidy_keptLines (hlines : ∀ line ∈ lines, '\n' ∉ line) :
    tidy (kindsOfLines (keptLines lines)) = tidy (kindsOfLines lines) := by
  induction lines with
  | nil => rfl
  | cons line lines ih =>
    obtain ⟨hline, hrest⟩ := List.forall_mem_cons.1 hlines
    unfold keptLines at ih ⊢
    by_cases hblank : line.all isBlank = true
    · rw [List.filter_cons_of_neg (by simp [hblank]), ih hrest, kindsOfLines_cons,
        kindsOf_blank hline hblank, List.nil_append, tidy_newline_kindsOfLines]
    · rw [List.filter_cons_of_pos (by simpa using hblank), List.map_cons, kindsOfLines_cons,
        kindsOfLines_cons, kindsOf_trimStart hline]
      exact tidy_append (.newline :: kindsOf line) (ih hrest)

theorem tidy_dedent (source : String) :
    tidy (.newline :: kindsOf (dedent source).toList) = tidy
    (.newline :: kindsOf source.toList) := by
  have hlined := lined_linesOf source.toList
  rw [(lined_dedent source).tidy_kindsOf, tidy_keptLines hlined.not_mem, hlined.tidy_kindsOf]

end Text

/-! ### Reading what is laid out differently -/

/-- Reading begins before the tokens of the text, and ends where the text does. -/
theorem rest_start_scan (source : String) :
    (Cursor.start (.ofTokens (scan source).tokens)).rest =
        (Scan.segments .start source.toList).filterMap Scan.Segment.token? ∧
      (Input.ofTokens (scan source).tokens).stop = ⟨Position.start.afterAll source.toList, .eof,
        ""⟩ := by
  refine rest_start (fun t ht => ?_) rfl
  obtain ⟨segment, hsegment, hsome⟩ := List.mem_filterMap.1 ht
  cases segment with
  | token t' =>
    obtain rfl := Option.some.inj hsome
    exact Scan.kind_ne_eof hsegment
  | gap c => cases hsome
  | illegal i => cases hsome

theorem kinds_start_scan (source : String) :
    (Cursor.start (.ofTokens (scan source).tokens)).kinds = Scan.kindsOf source.toList ∧
      (Input.ofTokens (scan source).tokens).stop.kind = .eof := by
  obtain ⟨hrest, hstop⟩ := rest_start_scan source
  rw [Cursor.kinds, hrest, hstop]
  exact ⟨rfl, rfl⟩

/-- Sources whose tokens are laid out differently are read as the same program, or rejected for the
same reason. -/
theorem sameReason_parse {source source' : String}
    (h : tidy (.newline :: Scan.kindsOf source.toList) =
      tidy (.newline :: Scan.kindsOf source'.toList)) :
    SameReason (parse (scan source).tokens) (parse (scan source').tokens) := by
  obtain ⟨hkinds, hstop⟩ := kinds_start_scan source
  obtain ⟨hkinds', hstop'⟩ := kinds_start_scan source'
  have hbehind : (laidOut hstop hstop').Behind (Cursor.start (.ofTokens (scan source).tokens))
      (Cursor.start (.ofTokens (scan source').tokens)) := by
    show tidy (.newline :: _) = tidy (.newline :: _)
    rw [hkinds, hkinds', h]
  have hagree : Agree (laidOut hstop hstop') (· = ·) (fun _ => False) (fun _ => False)
      (analyze (scan source).tokens) (analyze (scan source').tokens) :=
    Grammar.statements_inStep hstop hstop' _ _ hbehind {} {}
      ⟨fun _ _ => rfl, fun _ _ => rfl, fun _ => rfl⟩
  unfold parse SameReason
  generalize analyze (scan source).tokens = x at hagree ⊢
  generalize analyze (scan source').tokens = y at hagree ⊢
  cases hagree with
  | both h _ => rw [h]
  | neither h => exact congrArg Except.error h
  | apart h => exact h.elim
  | left hfalse _ => exact hfalse.elim
  | right hfalse _ => exact hfalse.elim

/-- Why a source cannot be compiled, whatever the place. -/
inductive CompileError.Reason where
  | source (r : SourceError.Reason)
  | lower (e : LowerError)
  | read (path : String) (fault : FileFault)
  deriving DecidableEq, Repr

def CompileError.reason : CompileError → CompileError.Reason
  | source e => .source e.reason
  | lower e => .lower e
  | read path fault => .read path fault

theorem Compiler.result_compileNamed (c : Compiler) (sourceName source : String) :
    (c.compileNamed sourceName source).result = match parse (scan source).tokens with
      | .ok p => (c.compileProgram sourceName p).result
      | .error e => .error (.source e) := by
  unfold Compiler.compileNamed parse
  dsimp only
  rcases analyze (scan source).tokens with ⟨r, session⟩
  cases r with
  | ok p => rfl
  | error e => rfl

/-- **Removing the layout of a source changes nothing.**  Under the same name the source and what is
left without its blank lines and its indentation are compiled to the same module, or both are
rejected for the same reason. -/
theorem compileNamed_dedent (c : Compiler) (sourceName source : String) :
    (c.compileNamed sourceName (Text.dedent source)).result.mapError CompileError.reason =
      (c.compileNamed sourceName source).result.mapError CompileError.reason := by
  rw [c.result_compileNamed, c.result_compileNamed]
  rcases (sameReason_parse (Text.tidy_dedent source)).cases with
    ⟨p, hp, hp'⟩ | ⟨e, e', he, he', hreason⟩
  · rw [hp, hp']
  · rw [he, he']
    exact congrArg (fun r => Except.error (CompileError.Reason.source r)) hreason

end Pseudocode
