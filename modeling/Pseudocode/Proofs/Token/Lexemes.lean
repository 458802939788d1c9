import Pseudocode.Token.Scan

/-!
What a token may be written as.

`Lexeme cs kind` says that the characters `cs` are the text of a token of the given kind.  There is
one rule for each class of tokens, and no rule looks at what comes after the text or says how the
text is found.

`munch` is compared with the rules from both sides.  What it takes is a lexeme (`takes_of_munch`),
which follows the code; and wherever a lexeme begins, `munch` takes one that is at least as long,
and of the same kind if it is as long (`covers_of_lexeme`), which follows the rules.  So it takes
the longest lexeme there is, and nothing only where there is none.
-/

namespace Pseudocode

variable {p : Char → Bool} {w cs rest : List Char} {c : Char} {m : Mark} {n : Nat} {kind : Kind}

/-- The texts of tokens, by the kinds of the tokens. -/
inductive Lexeme : List Char → Kind → Prop
  /-- A bracket, a comma or an operator. -/
  | mark (m : Mark) : Lexeme m.spelling.toList (.mark m)
  /-- A run of line breaks. -/
  | newline {cs : List Char} (hne : cs ≠ []) (h : ∀ c ∈ cs, c = '\n') : Lexeme cs .newline
  /-- A string in quotation marks, which holds no other quotation mark and no line break. -/
  | string {body : List Char} (h : ∀ c ∈ body, c ≠ '"' ∧ c ≠ '\n') :
      Lexeme ('"' :: (body ++ ['"'])) (.string (String.ofList body))
  /-- At least one digit. -/
  | whole {digits : List Char} (hne : digits ≠ []) (h : ∀ c ∈ digits, c.isDigit) :
      Lexeme digits (.int (Digits.whole digits))
  /-- At least one digit, a point, and any number of digits. -/
  | pointed {before after : List Char} (hne : before ≠ []) (hbefore : ∀ c ∈ before, c.isDigit)
      (hafter : ∀ c ∈ after, c.isDigit) :
      Lexeme (before ++ '.' :: after) (.double (Digits.pointed before after))
  /-- A reserved word. -/
  | keyword (k : Keyword) : Lexeme k.spelling.toList (.keyword k)
  /-- A letter or an underscore, and any number of letters, digits and underscores, unless the word
  is reserved. -/
  | name {c : Char} {cs : List Char} (hc : c = '_' ∨ c.isAlpha)
    (hcs : ∀ d ∈ cs, d = '_' ∨ d.isAlphanum)
      (hfree : ∀ k : Keyword, k.spelling ≠ String.ofList (c :: cs)) :
      Lexeme (c :: cs) (.name (String.ofList (c :: cs)))

namespace Scan

/-! ### Runs of characters -/

/-- A run of characters of one sort is no longer than the longest one. -/
theorem length_le_takeWhile (h : w <+: cs) (hw : ∀ c ∈ w, p c) :
    w.length ≤ (cs.takeWhile p).length := by
  obtain ⟨rest, rfl⟩ := h
  rw [List.takeWhile_append_of_pos hw, List.length_append]
  omega

/-- The longest run of characters of one sort, where it is known what ends it. -/
theorem takeWhile_of_stop (hw : ∀ d ∈ w, p d) (hc : p c = false) :
    (w ++ c :: rest).takeWhile p = w := by
  rw [List.takeWhile_append_of_pos hw, List.takeWhile_cons_of_neg (by simp [hc]), List.append_nil]

theorem take_takeWhile (p : Char → Bool) (cs : List Char) :
    cs.take (cs.takeWhile p).length = cs.takeWhile p :=
  (List.prefix_iff_eq_take.1 (List.takeWhile_prefix p)).symm

theorem eq_takeWhile (h : w <+: cs) (hlength : w.length = (cs.takeWhile p).length) :
    w = cs.takeWhile p := by
  rw [List.prefix_iff_eq_take.1 h, hlength, take_takeWhile]

theorem of_mem_takeWhile : ∀ c ∈ cs.takeWhile p, p c :=
  List.all_eq_true.1 List.all_takeWhile

/-! ### Marks -/

/-- The characters that marks begin with. -/
def signs : List Char :=
  ['(', ')', '[', ']', ',', '+', '-', '*', '/', '%', '=', '<', '>']

theorem mark?_eq_none (h : c ∉ signs) (cs : List Char) : mark? c cs = none := by
  unfold mark?
  split <;> first | rfl | exact absurd (by decide) h

/-- What is taken as a mark is how the mark is written. -/
theorem spelling_of_mark? (h : mark? c cs = some (m, n)) :
    m.spelling.toList = c :: cs.take n ∧ n ≤ cs.length := by
  unfold mark? at h
  split at h <;> simp only [Option.some.injEq, Prod.mk.injEq, reduceCtorEq] at h <;>
    obtain ⟨rfl, rfl⟩ := h <;>
    exact ⟨rfl, by simp⟩

theorem isSome_mark? (h : c ∈ signs) (cs : List Char) : (mark? c cs).isSome := by
  simp only [signs, List.mem_cons, List.not_mem_nil, or_false] at h
  rcases h with rfl | rfl | rfl | rfl | rfl | rfl | rfl | rfl | rfl | rfl | rfl | rfl | rfl <;>
    unfold mark? <;>
    split <;> simp_all

/-- Where a mark can be read, one is taken that is at least as long. -/
theorem mark?_of_spelling (h : m.spelling.toList <+: c :: cs) :
    ∃ m' n, mark? c cs = some (m', n) ∧ m.spelling.toList.length ≤ n + 1 := by
  obtain ⟨rest, hrest⟩ := h
  cases m
  -- Nothing is longer than a mark of two signs.
  case equal | notEqual | greaterEqual | lessEqual =>
    simp only [Mark.spelling, String.reduceToList, List.cons_append, List.nil_append,
      List.cons.injEq] at hrest
    obtain ⟨rfl, rfl⟩ := hrest
    exact ⟨_, _, rfl, by decide⟩
  all_goals
    simp only [Mark.spelling, String.reduceToList, List.cons_append, List.nil_append,
      List.cons.injEq] at hrest
    obtain ⟨⟨m', n⟩, hfound⟩ :=
      Option.isSome_iff_exists.1 (isSome_mark? (c := c) (by simp [signs, ← hrest.1]) cs)
    exact ⟨m', n, hfound, by simp [Mark.spelling]⟩

theorem spelling_inj {m' : Mark} (h : m.spelling = m'.spelling) : m = m' := by
  revert h
  cases m <;> cases m' <;> decide

/-! ### Words -/

theorem startsWord_iff : startsWord c ↔ c = '_' ∨ c.isAlpha := by
  simp [startsWord]

theorem continuesWord_iff : continuesWord c ↔ c = '_' ∨ c.isAlphanum := by
  simp [continuesWord]

theorem spelling_isWord (k : Keyword) :
    ∃ c cs, k.spelling.toList = c :: cs ∧ startsWord c ∧ ∀ d ∈ cs, continuesWord d := by
  cases k <;> exact ⟨_, _, rfl, by decide, List.all_eq_true.1 (by decide)⟩

theorem ofSpelling?_spelling (k : Keyword) : Keyword.ofSpelling? k.spelling = some k := by
  cases k <;> decide

theorem ofSpelling?_eq_none {word : String} :
    Keyword.ofSpelling? word = none ↔ ∀ k : Keyword, k.spelling ≠ word := by
  simp only [Keyword.ofSpelling?, List.find?_eq_none, beq_iff_eq]
  exact ⟨fun h k => h k k.mem_all, fun h k _ => h k⟩

/-- A word is a reserved word or a name. -/
theorem lexeme_ofWord (hc : startsWord c) (hcs : ∀ d ∈ cs, continuesWord d) :
    Lexeme (c :: cs) (.ofWord (String.ofList (c :: cs))) := by
  unfold Kind.ofWord
  split
  · next k hk =>
      have hspelling : k.spelling = String.ofList (c :: cs) := by simpa using List.find?_some hk
      have hlexeme := Lexeme.keyword k
      rwa [hspelling, String.toList_ofList] at hlexeme
  · next hfree =>
      exact .name (startsWord_iff.1 hc) (fun d hd => continuesWord_iff.1 (hcs d hd))
        (ofSpelling?_eq_none.1 hfree)

/-! ### What is taken is a lexeme -/

/-- What is taken after the first character makes a lexeme with it, and it is there to be taken. -/
def Takes (c : Char) (cs : List Char) (kind : Kind) (n : Nat) : Prop :=
  Lexeme (c :: cs.take n) kind ∧ n ≤ cs.length

theorem length_lt_of_drop {d : Char} (h : cs.drop n = d :: rest) :
    n + 1 + rest.length = cs.length := by
  have hlength := congrArg List.length h
  rw [List.length_drop, List.length_cons] at hlength
  omega

theorem takes_string? (h : string? cs = some (kind, n)) : Takes '"' cs kind n := by
  unfold string? at h
  dsimp only at h
  split at h
  · next rest hrest =>
      obtain ⟨rfl, rfl⟩ := Prod.mk.inj (Option.some.inj h)
      have hbody : ∀ c ∈ cs.takeWhile continuesString, continuesString c := of_mem_takeWhile
      have htext : cs.take ((cs.takeWhile continuesString).length + 1) =
        cs.takeWhile continuesString ++ ['"'] := by
        rw [List.take_add, take_takeWhile, hrest]
        rfl
      refine ⟨?_, by have := length_lt_of_drop hrest; omega⟩
      rw [htext]
      exact .string fun c hc => by simpa [continuesString] using hbody c hc
  · simp at h

theorem takes_numeral (hc : c.isDigit) (cs : List Char) :
    Takes c cs (numeral c cs).1 (numeral c cs).2 := by
  have hdigits : ∀ d ∈ c :: cs.takeWhile Char.isDigit, d.isDigit :=
    List.forall_mem_cons.2 ⟨hc, of_mem_takeWhile⟩
  unfold numeral
  dsimp only
  split
  · next rest hrest =>
      have htext :
        cs.take ((cs.takeWhile Char.isDigit).length + 1 + (rest.takeWhile Char.isDigit).length) =
          cs.takeWhile Char.isDigit ++ '.' :: rest.takeWhile Char.isDigit := by
        rw [Nat.add_assoc, List.take_add, take_takeWhile, hrest, Nat.add_comm 1,
          List.take_succ_cons, take_takeWhile]
      have hlength := length_lt_of_drop hrest
      have hafter := (List.takeWhile_prefix Char.isDigit (l := rest)).length_le
      refine ⟨?_, by omega⟩
      rw [htext]
      exact .pointed (List.cons_ne_nil c _) hdigits of_mem_takeWhile
  · refine ⟨?_, (List.takeWhile_prefix _).length_le⟩
    rw [take_takeWhile]
    exact .whole (List.cons_ne_nil c _) hdigits

theorem takes_of_munch (h : munch c cs = some (kind, n)) : Takes c cs kind n := by
  unfold munch at h
  split at h
  · next m k hmark =>
      obtain ⟨rfl, rfl⟩ := Prod.mk.inj (Option.some.inj h)
      obtain ⟨hspelling, hlength⟩ := spelling_of_mark? hmark
      refine ⟨?_, hlength⟩
      rw [← hspelling]
      exact .mark m
  · by_cases hnewline : c = '\n'
    · simp only [if_pos hnewline, Option.some.injEq, Prod.mk.injEq] at h
      obtain ⟨rfl, rfl⟩ := h
      refine ⟨?_, (List.takeWhile_prefix _).length_le⟩
      rw [take_takeWhile]
      refine .newline (List.cons_ne_nil c _) (List.forall_mem_cons.2 ⟨hnewline, fun d hd => ?_⟩)
      simpa using of_mem_takeWhile d hd
    · rw [if_neg hnewline] at h
      by_cases hquote : c = '"'
      · rw [if_pos hquote] at h
        rw [hquote]
        exact takes_string? h
      · rw [if_neg hquote] at h
        by_cases hdigit : c.isDigit
        · rw [if_pos hdigit, Option.some.injEq] at h
          have htakes := takes_numeral hdigit cs
          rwa [h] at htakes
        · rw [if_neg hdigit] at h
          by_cases hword : startsWord c
          · rw [if_pos hword, word, Option.some.injEq, Prod.mk.injEq] at h
            obtain ⟨rfl, rfl⟩ := h
            refine ⟨?_, (List.takeWhile_prefix _).length_le⟩
            rw [take_takeWhile]
            exact lexeme_ofWord hword of_mem_takeWhile
          · simp [hword] at h

/-! ### Where a lexeme begins

The first character of a lexeme says which class it is of, so `munch` looks at no other class there.
-/

theorem not_starts_of_sign (c : Char) (hc : c ∈ signs) : c.isDigit = false ∧
    startsWord c = false := by
  have hall : signs.all (fun c => !c.isDigit && !startsWord c) = true := by decide
  simpa using List.all_eq_true.1 hall c hc

theorem isDigit_of_startsWord (hc : startsWord c) : c.isDigit = false := by
  rcases startsWord_iff.1 hc with rfl | halpha
  · rfl
  · unfold Char.isAlpha Char.isUpper Char.isLower at halpha
    unfold Char.isDigit
    simp only [Bool.or_eq_true, Bool.and_eq_true, decide_eq_true_eq, Bool.and_eq_false_iff,
      decide_eq_false_iff_not, UInt32.le_iff_toNat_le, ge_iff_le] at halpha ⊢
    have hA : 'A'.val.toNat = 65 := rfl
    have ha : 'a'.val.toNat = 97 := rfl
    have h9 : '9'.val.toNat = 57 := rfl
    omega

theorem munch_digit (hc : c.isDigit) (cs : List Char) : munch c cs = some (numeral c cs) := by
  have hsign : c ∉ signs := fun hmem => by simp [(not_starts_of_sign c hmem).1] at hc
  have hnewline : c ≠ '\n' := by rintro rfl; simp at hc
  have hquote : c ≠ '"' := by rintro rfl; simp at hc
  simp [munch, mark?_eq_none hsign, hnewline, hquote, hc]

theorem munch_word (hc : startsWord c) (cs : List Char) : munch c cs = some (word c cs) := by
  have hsign : c ∉ signs := fun hmem => by simp [(not_starts_of_sign c hmem).2] at hc
  have hnewline : c ≠ '\n' := by rintro rfl; simp [startsWord] at hc
  have hquote : c ≠ '"' := by rintro rfl; simp [startsWord] at hc
  simp [munch, mark?_eq_none hsign, hnewline, hquote, isDigit_of_startsWord hc, hc]

/-- What is taken at the front of a text is at least as long as the character `c` and `w` after it,
and it is of this kind if it is as long. -/
def Covers (c : Char) (cs w : List Char) (kind : Kind) : Prop :=
  ∃ kind' n, munch c cs = some (kind', n) ∧ w.length ≤ n ∧ (w.length = n → kind' = kind)

theorem covers_mark (hm : m.spelling.toList = c :: w) (h : w <+: cs) : Covers c cs w (.mark m) := by
  have hprefix : m.spelling.toList <+: c :: cs := by rw [hm]; exact List.cons_prefix_cons.2 ⟨rfl, h⟩
  obtain ⟨m', n, hfound, hlength⟩ := mark?_of_spelling hprefix
  rw [hm, List.length_cons] at hlength
  refine ⟨.mark m', n, by simp [munch, hfound], by omega, fun heq => ?_⟩
  -- Both are written as the same characters.
  have hspelling : m'.spelling.toList = m.spelling.toList := by
    rw [(spelling_of_mark? hfound).1, hm, List.prefix_iff_eq_take.1 h, heq]
  rw [spelling_inj (String.toList_inj.1 hspelling)]

theorem covers_newline (h : w <+: cs) (hw : ∀ c ∈ w, c = '\n') : Covers '\n' cs w .newline := by
  refine ⟨.newline,
    (cs.takeWhile (· == '\n')).length, by simp [munch, mark?_eq_none (c := '\n') (by decide)],
    length_le_takeWhile h (by simpa using hw), fun _ => rfl⟩

theorem covers_string {body : List Char} (hbody : ∀ c ∈ body, c ≠ '"' ∧ c ≠ '\n') :
    Covers '"' (body ++ '"' :: rest) (body ++ ['"']) (.string (String.ofList body)) := by
  have htake : (body ++ '"' :: rest).takeWhile continuesString = body :=
    takeWhile_of_stop (fun c hc => by simpa [continuesString] using hbody c hc) (by decide)
  refine ⟨.string (String.ofList body), body.length + 1, ?_, by simp, fun _ => rfl⟩
  simp [munch, mark?_eq_none (c := '"') (by decide), string?, htake]

theorem covers_whole (hc : c.isDigit) (h : w <+: cs) (hw : ∀ d ∈ w, d.isDigit) :
    Covers c cs w (.int (Digits.whole (c :: w))) := by
  have hle := length_le_takeWhile h hw
  refine ⟨(numeral c cs).1, (numeral c cs).2, munch_digit hc cs, ?_⟩
  unfold numeral
  dsimp only
  split
  -- With a point after the digits, what is taken is longer.
  · exact ⟨by omega, fun heq => by omega⟩
  · exact ⟨hle, fun heq => by rw [← eq_takeWhile h heq]⟩

theorem covers_pointed {before after : List Char} (hc : c.isDigit)
    (hbefore : ∀ d ∈ before, d.isDigit)
    (hafter : ∀ d ∈ after, d.isDigit) : Covers c (before ++ '.' :: (after ++ rest))
    (before ++ '.' :: after)
      (.double (Digits.pointed (c :: before) after)) := by
  have htake : (before ++ '.' :: (after ++ rest)).takeWhile Char.isDigit = before :=
    takeWhile_of_stop hbefore (by decide)
  have hle := length_le_takeWhile (List.prefix_append after rest) hafter
  refine ⟨.double (Digits.pointed (c :: before) ((after ++ rest).takeWhile Char.isDigit)),
    before.length + 1 + ((after ++ rest).takeWhile Char.isDigit).length, ?_, ?_, fun heq => ?_⟩
  · rw [munch_digit hc, numeral, htake]
    simp
  · simp only [List.length_append, List.length_cons]
    omega
  · simp only [List.length_append, List.length_cons] at heq
    rw [← eq_takeWhile (List.prefix_append after rest) (p := Char.isDigit) (by omega)]

theorem covers_word (hc : startsWord c) (h : w <+: cs) (hw : ∀ d ∈ w, continuesWord d) :
    Covers c cs w (.ofWord (String.ofList (c :: w))) := by
  refine ⟨_, _, munch_word hc cs, length_le_takeWhile h hw, fun heq => ?_⟩
  rw [eq_takeWhile h heq]

/-- **Wherever a lexeme begins, one is taken that is at least as long.** -/
theorem covers_of_lexeme (hlexeme : Lexeme (c :: w) kind) (h : w <+: cs) : Covers c cs w kind := by
  generalize htext : c :: w = text at hlexeme
  cases hlexeme with
  | mark m => exact covers_mark htext.symm h
  | newline hne hall =>
    subst htext
    obtain ⟨rfl, hw⟩ := List.forall_mem_cons.1 hall
    exact covers_newline h hw
  | string hbody =>
    obtain ⟨rfl, rfl⟩ := List.cons.inj htext
    obtain ⟨rest, rfl⟩ := h
    rw [List.append_assoc]
    exact covers_string hbody
  | whole hne hall =>
    subst htext
    obtain ⟨hc, hw⟩ := List.forall_mem_cons.1 hall
    exact covers_whole hc h hw
  | @pointed before after hne hbefore hafter =>
    obtain ⟨d, before, rfl⟩ := List.exists_cons_of_ne_nil hne
    obtain ⟨rfl, rfl⟩ := List.cons.inj htext
    obtain ⟨rest, rfl⟩ := h
    rw [List.append_eq, List.append_assoc, List.cons_append]
    obtain ⟨hc, hbefore⟩ := List.forall_mem_cons.1 hbefore
    exact covers_pointed hc hbefore hafter
  | keyword k =>
    obtain ⟨d, ds, hspelling, hd, hds⟩ := spelling_isWord k
    rw [hspelling] at htext
    obtain ⟨rfl, rfl⟩ := List.cons.inj htext
    have hcovers := covers_word hd h hds
    rwa [← hspelling, String.ofList_toList, Kind.ofWord, ofSpelling?_spelling] at hcovers
  | name hc hcs hfree =>
    obtain ⟨rfl, rfl⟩ := List.cons.inj htext
    have hcovers := covers_word (startsWord_iff.2 hc) h fun d hd => continuesWord_iff.2 (hcs d hd)
    rwa [Kind.ofWord, ofSpelling?_eq_none.2 hfree] at hcovers

/-! ### Tokens of a text -/

theorem ne_eof_of_lexeme (h : Lexeme w kind) : kind ≠ .eof := by
  cases h <;> simp

/-- What is cut out of a text as a token is a lexeme. -/
theorem lexeme_of_mem_segments {p : Position} {t : Token} (h : .token t ∈ segments p cs) :
    Lexeme t.lexeme.toList t.kind := by
  fun_induction segments p cs with
  | case1 => simp at h
  | case2 p c cs _ ih => exact ih (by simpa using h)
  | case3 p c cs _ kind n hmunch lexeme ih =>
    rcases List.mem_cons.1 h with heq | hmem
    · rw [Segment.token.injEq] at heq
      rw [heq, String.toList_ofList]
      exact (takes_of_munch hmunch).1
    · exact ih hmem
  | case4 p c cs _ _ ih => exact ih (by simpa using h)

end Scan

end Pseudocode
