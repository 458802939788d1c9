import Pseudocode.CommandLine
import Pseudocode.Proofs.Excerpt.Caret

/-!
Which line of a file is shown.

The command line removes the layout of a file before it compiles what is left, and it counts lines
in what is left.  So the number that it prints after the name of the file counts the lines that are
not blank, and what it shows is the line that comes to this number, without the white space that it
starts with (`CommandLine.run_shows_line`).  It is the line of that number in the file if no line up
to it is blank, and a blank line above it makes the difference
(`CommandLine.blankAbove_misnumbered`).

A line of what is left ends at the line feed that joins it to the next one.  A carriage return that
the layout left at its end is then taken for a part of the line end, and is not shown
(`Text.withoutReturn`).
-/

namespace Pseudocode

variable {line : List Char} {lines : List (List Char)}

/-! ### The lines that are left -/

namespace Text

/-- The lines of a text that are not blank. -/
def written (text : String) : List (List Char) :=
  (linesOf text.toList).filter fun line => !line.all isBlank

/-- A line without the carriage return at its end. -/
def withoutReturn (line : List Char) : List Char :=
  if line.getLast? = some '\r' then line.dropLast else line

theorem withoutReturn_cons {c : Char} (h : line ≠ []) :
    withoutReturn (c :: line) = c :: withoutReturn line := by
  unfold withoutReturn
  rw [List.getLast?_cons_of_ne_nil h, List.dropLast_cons_of_ne_nil h]
  split <;> rfl

/-- What stands before a line feed is a line, but for a carriage return. -/
theorem linesOf_append_feed (hline : '\n' ∉ line) (rest : List Char) :
    linesOf (line ++ '\n' :: rest) = withoutReturn line :: linesOf rest := by
  induction line with
  | nil => rw [List.nil_append, linesOf]; rfl
  | cons c line ih =>
    have hc : c ≠ '\n' := fun heq => hline (heq ▸ List.mem_cons_self)
    have hrest : '\n' ∉ line := List.not_mem_of_not_mem_cons hline
    by_cases hnil : line = []
    · subst hnil
      by_cases hreturn : c = '\r'
      · rw [hreturn, List.singleton_append, linesOf]
        rfl
      · have hlast : withoutReturn [c] = [c] := if_neg fun hlast => hreturn (Option.some.inj hlast)
        rw [List.singleton_append, linesOf_cons hc fun hboth => hreturn hboth.1, linesOf, hlast]
    · have hcs : ¬ (c = '\r' ∧ (line ++ '\n' :: rest).head? = some '\n') := by
        rintro ⟨-, hhead⟩
        obtain ⟨d, line', rfl⟩ := List.exists_cons_of_ne_nil hnil
        exact hrest (Option.some.inj hhead ▸ List.mem_cons_self)
      rw [List.cons_append, linesOf_cons hc hcs, ih hrest, withoutReturn_cons hnil]

theorem linesOf_of_not_mem (hne : line ≠ []) (hline : '\n' ∉ line) : linesOf line = [line] := by
  induction line with
  | nil => exact absurd rfl hne
  | cons c line ih =>
    have hc : c ≠ '\n' := fun heq => hline (heq ▸ List.mem_cons_self)
    have hrest : '\n' ∉ line := List.not_mem_of_not_mem_cons hline
    have hcs : ¬ (c = '\r' ∧ line.head? = some '\n') :=
      fun hboth => hrest (List.mem_of_head? hboth.2)
    rw [linesOf_cons hc hcs]
    by_cases hnil : line = []
    · rw [hnil, linesOf]
    · rw [ih hnil hrest]

/-- Lines that are joined are there again, but for a carriage return where a line feed follows. -/
theorem getElem?_linesOf_intercalate (hne : ∀ line ∈ lines, line ≠ [])
    (hlines : ∀ line ∈ lines, '\n' ∉ line) (i : Nat) : (linesOf (['\n'].intercalate lines))[i]? =
      lines[i]?.map fun line => if i + 1 < lines.length then withoutReturn line else line := by
  induction lines generalizing i with
  | nil => simp [linesOf]
  | cons line lines ih =>
    obtain ⟨hfirst, hrest⟩ := List.forall_mem_cons.1 hne
    obtain ⟨hline, hfeeds⟩ := List.forall_mem_cons.1 hlines
    cases lines with
    | nil =>
      rw [List.intercalate_singleton, linesOf_of_not_mem hfirst hline]
      cases i <;> simp
    | cons next lines =>
      have hjoin : ['\n'].intercalate (line :: next :: lines) =
          line ++ '\n' :: ['\n'].intercalate (next :: lines) := by simp
      rw [hjoin, linesOf_append_feed hline]
      cases i with
      | zero => simp
      | succ i => simpa using ih hrest hfeeds i

theorem keptLines_ne_nil (lines : List (List Char)) : ∀ line ∈ keptLines lines, line ≠ [] := by
  intro kept hkept
  obtain ⟨line, hline, rfl⟩ := List.mem_map.1 hkept
  exact trimStart_ne_nil (by simpa using (List.mem_filter.1 hline).2)

/-- **The lines of what is left** are those that are not blank, without the white space that they
start with. -/
theorem getElem?_linesOf_dedent (raw : String) (i : Nat) : (linesOf (dedent raw).toList)[i]? =
    (written raw)[i]?.map fun line =>
      if i + 1 < (written raw).length then withoutReturn (trimStart line) else trimStart line := by
  have hkept : keptLines (linesOf raw.toList) = (written raw).map trimStart := rfl
  rw [toList_dedent, getElem?_linesOf_intercalate (keptLines_ne_nil _) (lined_dedent raw).not_mem,
    hkept, List.length_map, List.getElem?_map, Option.map_map]
  rfl

theorem getLast?_intercalate (hne : ∀ line ∈ lines, line ≠ [])
    (hlines : ∀ line ∈ lines, '\n' ∉ line) : (['\n'].intercalate lines).getLast? ≠ some '\n' := by
  induction lines with
  | nil => simp
  | cons line lines ih =>
    obtain ⟨hfirst, hrest⟩ := List.forall_mem_cons.1 hne
    obtain ⟨hline, hfeeds⟩ := List.forall_mem_cons.1 hlines
    cases lines with
    | nil =>
      rw [List.intercalate_singleton]
      exact fun hlast => hline (List.mem_of_getLast? hlast)
    | cons next lines =>
      have hnext : ['\n'].intercalate (next :: lines) ≠ [] := by
        have := hrest next List.mem_cons_self
        cases lines <;> simp [this]
      have hjoin : ['\n'].intercalate (line :: next :: lines) =
          (line ++ ['\n']) ++ ['\n'].intercalate (next :: lines) := by simp
      have hlast := ih hrest hfeeds
      rw [List.getLast?_eq_some_getLast hnext] at hlast
      rw [hjoin, List.getLast?_append, List.getLast?_eq_some_getLast hnext]
      exact hlast

theorem Lined.count_lt {cs : List Char} (h : Lined cs lines) {before rest : List Char}
    (hcs : cs = before ++ rest) (hrest : rest ≠ []) : before.count '\n' < lines.length := by
  have hfeed : ∀ {line left : List Char} {lines : List (List Char)}, '\n' ∉ line →
      (∀ {before : List Char}, left = before ++ rest → before.count '\n' < lines.length) →
      ∀ {before : List Char}, line ++ '\n' :: left = before ++ rest →
      before.count '\n' < lines.length + 1 := by
    intro line left lines hline ih before hcs
    rcases List.append_eq_append_iff.1 hcs with ⟨more, rfl, hmore⟩ | ⟨more, rfl, -⟩
    · cases more with
      | nil => simp [List.count_eq_zero_of_not_mem hline]
      | cons d more =>
        obtain ⟨rfl, hleft⟩ := List.cons.inj hmore
        have hcount := ih hleft
        simp only [List.count_append, List.count_eq_zero_of_not_mem hline, List.count_cons_self]
        omega
    · have hbefore : '\n' ∉ before := fun hmem => hline (List.mem_append_left _ hmem)
      simp [List.count_eq_zero_of_not_mem hbefore]
  induction h generalizing before with
  | nil => exact absurd (List.append_eq_nil_iff.1 hcs.symm).2 hrest
  | last _ hline =>
    have hbefore : '\n' ∉ before := fun hmem => hline (hcs ▸ List.mem_append_left _ hmem)
    simp [List.count_eq_zero_of_not_mem hbefore]
  | feed hline _ ih => exact hfeed hline (fun hleft => ih hleft) hcs
  | @returnFeed line left lines hline _ ih =>
    have hreturn : '\n' ∉ line ++ ['\r'] := by simpa using hline
    refine hfeed hreturn (fun hleft => ih hleft) ?_
    rw [List.append_assoc]
    exact hcs

theorem getElem?_filter_of_take {α : Type} {p : α → Bool} {xs : List α} {n : Nat}
    (h : ∀ x ∈ xs.take (n + 1), p x) : (xs.filter p)[n]? = xs[n]? := by
  induction xs generalizing n with
  | nil => rfl
  | cons x xs ih =>
    rw [List.take_succ_cons] at h
    obtain ⟨hx, hxs⟩ := List.forall_mem_cons.1 h
    rw [List.filter_cons_of_pos hx]
    cases n with
    | zero => rfl
    | succ n => exact ih hxs

end Text

/-! ### The line to blame -/

/-- What is left of a file has the line that an error in it blames. -/
theorem exists_blamed_line {raw : String} {e : SourceError}
    (h : parse (scan (Text.dedent raw)).tokens = .error e) :
    1 ≤ e.line ∧ ∃ shown, (Text.linesOf (Text.dedent raw).toList)[e.line - 1]? = some shown := by
  obtain ⟨t, ht, hline⟩ := ((explained_of_parse h).justified trivial).line
  -- The token, or else the last character, is on the line.
  have hplace : ∃ before rest, (Text.dedent raw).toList = before ++ rest ∧ rest ≠ [] ∧
      t.line = 1 + before.count '\n' := by
    rcases Scan.mem_tokens (Input.mem_all_scan ht) with hpiece | rfl
    · obtain ⟨before, after, htext, hplace, hlexeme⟩ := Scan.text_at_token hpiece
      refine ⟨before, t.lexeme.toList ++ after, htext, ?_, congrArg Position.line hplace⟩
      exact fun hnil => Scan.lexeme_ne_nil hlexeme (List.append_eq_nil_iff.1 hnil).1
    · have hne : (Text.dedent raw).toList ≠ [] := by
        intro hnil
        have hempty : Text.dedent raw = "" := String.toList_eq_nil_iff.1 hnil
        have hread : (parse (scan "").tokens).toOption.isSome = true := by decide +kernel
        rw [hempty] at h
        rw [h] at hread
        cases hread
      obtain ⟨init, c, hinit⟩ := (List.eq_nil_or_concat _).resolve_left hne
      rw [List.concat_eq_append] at hinit
      have hlast :=
        Text.getLast?_intercalate (Text.keptLines_ne_nil _) (Text.lined_dedent raw).not_mem
      rw [← Text.toList_dedent, hinit, List.getLast?_concat] at hlast
      have hfeed : '\n' ∉ [c] := fun hmem => hlast (by rw [List.mem_singleton.1 hmem])
      refine ⟨init, [c], hinit, List.cons_ne_nil _ _, ?_⟩
      show 1 + (Text.dedent raw).toList.count '\n' = _
      rw [hinit, List.count_append, List.count_eq_zero_of_not_mem hfeed, Nat.add_zero]
  obtain ⟨before, rest, hcs, hrest, hcount⟩ := hplace
  have hlt := (Text.lined_linesOf (Text.dedent raw).toList).count_lt hcs hrest
  rw [← hline, hcount, Nat.add_sub_cancel_left]
  exact ⟨by omega, _, List.getElem?_eq_getElem hlt⟩

namespace CommandLine

variable {m : Type → Type} [Monad m] [LawfulMonad m] {files : Files m} {o : Options} {raw : String}
  {e : SourceError}

theorem run_of_rejected (shown : Event → String)
    (hread : files.readText o.filename = pure (.ok raw))
    (herror : parse (scan (Text.dedent raw)).tokens = .error e) :
    ∃ log, run shown files o =
    pure (failure shown o log (e.excerpt o.filename (Text.dedent raw))) := by
  have hresult :
    (o.compiler.compileNamed o.filename (Text.dedent raw)).result = .error (.source e) := by
    rw [Compiler.result_compileNamed, herror]
  refine ⟨(o.compiler.compileNamed o.filename (Text.dedent raw)).log, ?_⟩
  unfold run
  rw [hread, pure_bind]
  simp only [hresult]
  rfl

/-- **The command line shows the line that comes to the printed number among the lines that are not
blank.**  It shows it without the white space that it starts with, and without a carriage return at
its end if such a line follows.  If no line up to that number is blank, it is the line of that
number in the file. -/
theorem run_shows_line (shown : Event → String) (hread : files.readText o.filename = pure (.ok raw))
    (herror : parse (scan (Text.dedent raw)).tokens = .error e) : ∃ log line,
      (Text.written raw)[e.line - 1]? = some line ∧
      run shown files o =
      pure (failure shown o log (e.heading o.filename ++ "\n" ++ e.marked (String.ofList
        (if e.line < (Text.written raw).length then Text.withoutReturn (Text.trimStart line)
          else Text.trimStart line)))) ∧
      ((∀ above ∈ (Text.linesOf raw.toList).take e.line, above.all Text.isBlank = false) →
        (Text.linesOf raw.toList)[e.line - 1]? = some line) := by
  obtain ⟨log, hrun⟩ := run_of_rejected shown hread herror
  obtain ⟨hpos, blamed, hblamed⟩ := exists_blamed_line herror
  have hsucc : e.line - 1 + 1 = e.line := by omega
  have hline : (Text.lines (Text.dedent raw))[e.line - 1]? = some (String.ofList blamed) := by
    unfold Text.lines
    rw [List.getElem?_map, hblamed]
    rfl
  rw [Text.getElem?_linesOf_dedent, hsucc] at hblamed
  obtain ⟨line, hwritten, rfl⟩ := Option.map_eq_some_iff.1 hblamed
  refine ⟨log, line, hwritten, ?_, fun habove => ?_⟩
  · rw [hrun, SourceError.excerpt_eq hline]
  · have hfirst : ∀ above ∈ (Text.linesOf raw.toList).take (e.line - 1 + 1),
      (!above.all Text.isBlank) = true := by
      rw [hsucc]
      intro above hmem
      rw [habove above hmem]
      rfl
    rw [← hwritten]
    exact (Text.getElem?_filter_of_take hfirst).symm

/-- Files that all hold one text. -/
def holding (text : String) : Files Id :=
  ⟨fun _ => .ok text.toUTF8, fun _ _ => .ok ()⟩

/-- An indented line is to blame, and the only blank line is below it. -/
def blankBelow : String :=
  "x = 1\r\n \tOUTPUT x + y\n\nOUTPUT x\n"

theorem blankBelow_numbered : (holding blankBelow).readText "code.pc" = pure (.ok blankBelow) ∧
    parse (scan (Text.dedent blankBelow)).tokens = .error (.undefinedVariable "y" 2) ∧
    (Text.linesOf blankBelow.toList)[1]? = some " \tOUTPUT x + y".toList ∧
    ∀ shown, ∃ log, run shown (holding blankBelow) {} = pure (failure shown {} log
      ((SourceError.undefinedVariable "y" 2).heading "code.pc" ++ "\n" ++ "OUTPUT x + y")) := by
  have hread : (holding blankBelow).readText "code.pc" = pure (.ok blankBelow) :=
    eq_ok_of_toOption (ε := FileFault) (by decide +kernel)
  have herror : parse (scan (Text.dedent blankBelow)).tokens = .error (.undefinedVariable "y" 2) :=
    eq_error_of_match (by decide +kernel)
  refine ⟨hread, herror, by decide +kernel, fun shown => ?_⟩
  obtain ⟨log, line, -, hrun, hnumbered⟩ := run_shows_line (o := {}) shown hread herror
  have hline := hnumbered (by decide +kernel)
  have hsecond : (Text.linesOf blankBelow.toList)[1]? = some " \tOUTPUT x + y".toList := by
    decide +kernel
  obtain rfl : " \tOUTPUT x + y".toList = line := Option.some.inj (hsecond.symm.trans hline)
  have hmarked : (SourceError.undefinedVariable "y" 2).marked (String.ofList
      (if 2 < (Text.written blankBelow).length then
        Text.withoutReturn (Text.trimStart " \tOUTPUT x + y".toList)
        else Text.trimStart " \tOUTPUT x + y".toList)) = "OUTPUT x + y" := by decide +kernel
  refine ⟨log, ?_⟩
  rw [← hmarked]
  exact hrun

/-- A blank line is above the line to blame. -/
def blankAbove : String :=
  "x = 1\n\nOUTPUT y\n"

/-- **A blank line makes the command line miscount.**  It is the third line of the file that is
shown, and the second that is named. -/
theorem blankAbove_misnumbered : Id.run (runPlain (holding blankAbove) {}) =
      { exit := 1,
        stderr := "error: undefined variable 'y' at line 2\n--> code.pc:2\nOUTPUT y\n" } ∧
    (Text.lines blankAbove)[2 - 1]? = some "" ∧
    (Text.lines blankAbove)[3 - 1]? = some "OUTPUT y" := by
  decide +kernel

end CommandLine

end Pseudocode
