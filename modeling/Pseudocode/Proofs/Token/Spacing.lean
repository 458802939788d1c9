import Pseudocode.Proofs.Token.Segmentation

/-!
Tokens written with spaces between them.

Where a token ends depends on what follows it: a digit or a point goes on with a numeral, a letter
with a word, and an equals sign with many marks.  A space goes on with nothing but a string, and a
string that has been closed does not go on.  So a lexeme in front of a space is taken as a whole and
for what it is (`munch_of_lexeme`), whatever stood behind it in the text that it comes from.
Therefore the tokens of a text can be written down with single spaces between them, and scanning
gives them back (`scan_spaced`).
-/

namespace Pseudocode

variable {c : Char} {w text cs : List Char} {kind kind' : Kind} {tokens : List Token}

namespace Scan

/-! ### Lexemes in front of a space -/

/-- Only a string begins with a quotation mark. -/
theorem string_of_lexeme_quote (h : Lexeme ('"' :: w) kind) :
    ∃ body, w = body ++ ['"'] ∧ ∀ c ∈ body, c ≠ '"' := by
  generalize htext : '"' :: w = text at h
  cases h with
  | mark m => cases m <;> cases htext
  | newline _ hall =>
    subst htext
    exact absurd (hall '"' List.mem_cons_self) (by decide)
  | string hbody =>
    obtain ⟨-, rfl⟩ := List.cons.inj htext
    exact ⟨_, rfl, fun c hc => (hbody c hc).1⟩
  | whole _ hall =>
    subst htext
    exact absurd (hall '"' List.mem_cons_self) (by decide)
  | pointed hne hbefore _ =>
    obtain ⟨d, before, rfl⟩ := List.exists_cons_of_ne_nil hne
    obtain ⟨rfl, -⟩ := List.cons.inj htext
    exact absurd (hbefore '"' List.mem_cons_self) (by decide)
  | keyword k => cases k <;> cases htext
  | name hc _ _ =>
    obtain ⟨rfl, -⟩ := List.cons.inj htext
    exact absurd hc (by decide)

/-- A lexeme with a space in it begins with a quotation mark. -/
theorem quote_of_lexeme_space (h : Lexeme text kind) (hspace : ' ' ∈ text) :
    ∃ w, text = '"' :: w := by
  cases h with
  | mark m => exact absurd hspace (by cases m <;> decide)
  | newline _ hall => exact absurd (hall ' ' hspace) (by decide)
  | string _ => exact ⟨_, rfl⟩
  | whole _ hall => exact absurd (hall ' ' hspace) (by decide)
  | pointed _ hbefore hafter =>
    rcases List.mem_append.1 hspace with hmem | hmem
    · exact absurd (hbefore ' ' hmem) (by decide)
    · rcases List.mem_cons.1 hmem with heq | hmem
      · cases heq
      · exact absurd (hafter ' ' hmem) (by decide)
  | keyword k => exact absurd hspace (by cases k <;> decide)
  | name hc hcs _ =>
    rcases List.mem_cons.1 hspace with rfl | hmem
    · exact absurd hc (by decide)
    · exact absurd (hcs ' ' hmem) (by decide)

/-- No lexeme goes on behind another one with a space. -/
theorem not_lexeme_append_space (h : Lexeme (c :: w) kind) :
    ¬ Lexeme (c :: (w ++ ' ' :: cs)) kind' := by
  intro hlonger
  obtain ⟨w', hw'⟩ := quote_of_lexeme_space hlonger (by simp)
  obtain ⟨rfl, -⟩ := List.cons.inj hw'
  obtain ⟨body, rfl, -⟩ := string_of_lexeme_quote h
  obtain ⟨body', hbody', hquote⟩ := string_of_lexeme_quote hlonger
  -- The quotation mark that closes the shorter string stands inside of the longer one.
  have hshorter : body ++ ['"'] <+: body' := by
    have hwhole : body ++ ['"'] ++ ' ' :: cs = body' ++ ['"'] := hbody'
    refine List.prefix_of_prefix_length_le ⟨_, hwhole⟩ (List.prefix_append body' ['"']) ?_
    have hlength := congrArg List.length hwhole
    simp only [List.length_append, List.length_cons, List.length_nil] at hlength ⊢
    omega
  exact hquote '"' (hshorter.subset (by simp)) rfl

/-- A lexeme that ends the text or has a space behind it is taken as a whole. -/
theorem munch_of_lexeme (h : Lexeme (c :: w) kind) (hcs : cs = [] ∨ ∃ rest, cs = ' ' :: rest) :
    munch c (w ++ cs) = some (kind, w.length) := by
  obtain ⟨kind', n, hmunch, hle, hkind⟩ := covers_of_lexeme h (List.prefix_append w cs)
  obtain ⟨htaken, hn⟩ := takes_of_munch hmunch
  by_cases heq : w.length = n
  · rw [hmunch, hkind heq, heq]
  · -- What is taken would be longer, and go on with the space.
    exfalso
    rcases hcs with rfl | ⟨rest, rfl⟩
    · rw [List.append_nil] at hn
      omega
    · obtain ⟨k, rfl⟩ := Nat.exists_eq_add_of_lt (Nat.lt_of_le_of_ne hle heq)
      rw [Nat.add_assoc, List.take_length_add_append, List.take_succ_cons] at htaken
      exact not_lexeme_append_space h htaken

theorem isGap_of_lexeme (h : Lexeme (c :: w) kind) : isGap c = false := by
  cases hgap : isGap c with
  | false => rfl
  | true =>
    obtain ⟨kind', n, hmunch, -⟩ := covers_of_lexeme h (List.prefix_refl w)
    rw [munch_gap hgap] at hmunch
    cases hmunch

/-! ### All tokens of a text -/

/-- What is cut off the front of a text that begins with a lexeme, if it ends there or has a space
behind it. -/
theorem segments_lexeme (p : Position) (h : Lexeme text kind)
    (hcs : cs = [] ∨ ∃ rest, cs = ' ' :: rest) :
    segments p (text ++ cs) = .token ⟨p, kind, String.ofList text⟩ :: segments
    (p.afterAll text) cs := by
  obtain ⟨c, w, rfl⟩ := List.exists_cons_of_ne_nil (lexeme_ne_nil h)
  rw [List.cons_append, segments, if_neg (by simp [isGap_of_lexeme h]), munch_of_lexeme h hcs]
  simp

/-- Tokens with spaces between them are cut apart at the spaces: nothing is reported, and kinds and
texts are the same. -/
theorem segments_spaced (p : Position) (h : ∀ t ∈ tokens, Lexeme t.lexeme.toList t.kind) :
    (segments p ([' '].intercalate (tokens.map fun t => t.lexeme.toList))).filterMap
    Segment.illegal? = [] ∧
      ((segments p ([' '].intercalate (tokens.map fun t => t.lexeme.toList))).filterMap
        Segment.token?).map
        (fun t => (t.kind, t.lexeme)) = tokens.map fun t => (t.kind, t.lexeme) := by
  induction tokens generalizing p with
  | nil => simp [segments]
  | cons t tokens ih =>
    obtain ⟨ht, htokens⟩ := List.forall_mem_cons.1 h
    cases tokens with
    | nil =>
      have hcut : segments p (t.lexeme.toList ++ []) = _ := segments_lexeme p ht (.inl rfl)
      rw [List.append_nil] at hcut
      simp [hcut, segments, Segment.illegal?, Segment.token?]
    | cons next tokens =>
      obtain ⟨hillegal, hkinds⟩ := ih ((p.afterAll t.lexeme.toList).after ' ') htokens
      have hjoin : [' '].intercalate ((t :: next :: tokens).map fun t => t.lexeme.toList) =
          t.lexeme.toList ++ ' ' :: [' '].intercalate
          ((next :: tokens).map fun t => t.lexeme.toList) := by simp
      have hgap : ∀ q cs, segments q (' ' :: cs) = .gap ' ' :: segments (q.after ' ') cs :=
        fun q cs => by
        rw [segments, if_pos (by decide)]
      rw [hjoin, segments_lexeme p ht (.inr ⟨_, rfl⟩), hgap]
      refine ⟨hillegal, ?_⟩
      simp only [List.filterMap_cons, Segment.token?, List.map_cons,
        String.ofList_toList] at hkinds ⊢
      rw [hkinds]

end Scan

/-- **Tokens that are written down are scanned again.**  The tokens of any text, without the end of
the input, written with single spaces between them, are a text with the same tokens: the kinds are
the same, with their values, the texts are the same, nothing is reported, and the end of the input
follows. -/
theorem scan_spaced (source : String) :
    let tokens := (scan source).tokens.filter (·.kind != .eof)
    let again := scan (" ".intercalate (tokens.map Token.lexeme))
    again.illegal = [] ∧
      again.tokens.map (fun t => (t.kind, t.lexeme)) = tokens.map (fun t => (t.kind, t.lexeme)) ++
      [(.eof, "")] := by
  intro tokens again
  have hlexemes : ∀ t ∈ tokens, Lexeme t.lexeme.toList t.kind := by
    intro t ht
    obtain ⟨hmem, hkind⟩ := List.mem_filter.1 ht
    rcases List.mem_append.1 hmem with hmem | hmem
    · obtain ⟨piece, hpiece, htoken⟩ := List.mem_filterMap.1 hmem
      cases piece with
      | token t' =>
        cases htoken
        exact Scan.lexeme_of_mem_segments hpiece
      | gap c => cases htoken
      | illegal i => cases htoken
    · rw [List.mem_singleton.1 hmem] at hkind
      cases hkind
  have htext : (" ".intercalate (tokens.map Token.lexeme)).toList =
      [' '].intercalate (tokens.map fun t => t.lexeme.toList) := by
    simp [String.toList_intercalate, Function.comp_def]
  obtain ⟨hillegal, hkinds⟩ := Scan.segments_spaced .start hlexemes
  rw [← htext] at hillegal hkinds
  refine ⟨hillegal, ?_⟩
  show List.map _ (_ ++ _) = _
  rw [List.map_append, hkinds]
  rfl

/-- A numeral that a point and letters follow, marks that stand together, and a string that is never
closed. -/
example : (scan "1..5x<==\"a b\"\n\n \n\"y").tokens.map (fun t => (t.kind, t.lexeme)) =
    (scan "1. 5 x <= = \"a b\" \n\n \n y").tokens.map fun t => (t.kind, t.lexeme) := by
  decide +kernel

end Pseudocode
