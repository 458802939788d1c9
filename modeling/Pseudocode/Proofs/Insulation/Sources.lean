import Mathlib.Data.List.DropRight
import Pseudocode.Proofs.Insulation.Declarations
import Pseudocode.Proofs.Insulation.Lowering
import Pseudocode.Proofs.Layout.Lines

/-!
Subroutines are insulated from the top level.

A source is put behind another one, on a line of its own.  Its tokens are then the same, further
down (`tokensOf_down`), and those of the first source are the same in front of them.  Only the line
break between the two may be one with line breaks around it, so what is compared is what is left
when line breaks are skipped.

If the second source is the declaration of a subroutine then it is read there as it is read alone
(`parse_behind`), and the code for it does not depend on what the first one has left.
-/

namespace Pseudocode

/-! ### Places further down -/

namespace Position

theorem down_after (n : Nat) (p : Position) (c : Char) :
    (p.down n).after c = (p.after c).down n := by
  unfold after
  split
  · simp [down, Nat.add_right_comm]
  · rfl

theorem down_afterAll (n : Nat) (p : Position) (cs : List Char) :
    (p.down n).afterAll cs = (p.afterAll cs).down n := by
  induction cs generalizing p with
  | nil => rfl
  | cons c cs ih =>
    show ((p.down n).after c).afterAll cs = _
    rw [down_after, ih]
    rfl

theorem afterAll_append (p : Position) (cs ds : List Char) :
    p.afterAll (cs ++ ds) = (p.afterAll cs).afterAll ds :=
  List.foldl_append

/-- At the beginning of a line only the lines above count. -/
theorem afterAll_feed (cs : List Char) :
    start.afterAll (cs ++ ['\n']) = start.down (cs.count '\n' + 1) := by
  have hline : ∀ p : Position, (p.afterAll cs).line = p.line + cs.count '\n' := by
    induction cs with
    | nil => exact fun _ => rfl
    | cons c cs ih =>
      intro p
      show ((p.after c).afterAll cs).line = _
      rw [ih, after]
      split <;> rename_i hc
      · rw [hc, List.count_cons_self, Nat.add_right_comm, Nat.add_assoc]
      · rw [List.count_cons_of_ne hc]
  rw [afterAll_append]
  show (⟨(start.afterAll cs).line + 1, 1⟩ : Position) = _
  rw [hline]
  rfl

end Position

namespace Scan

/-! ### Tokens behind others -/

/-- The tokens of a text that begins at the given position. -/
def tokensOf (p : Position) (cs : List Char) : List Token :=
  (segments p cs).filterMap Segment.token?

/-- Further down there are the same tokens, further down. -/
theorem tokensOf_down (n : Nat) (p : Position) (cs : List Char) :
    tokensOf (p.down n) cs = (tokensOf p cs).map (Token.down n) := by
  unfold tokensOf
  fun_induction segments p cs with
  | case1 => simp [segments]
  | case2 p c cs hgap ih =>
    rw [segments, if_pos hgap, Position.down_after]
    exact ih
  | case3 p c cs hgap kind m hmunch lexeme ih =>
    rw [segments, if_neg hgap, hmunch]
    dsimp only
    rw [Position.down_afterAll]
    exact congrArg _ ih
  | case4 p c cs hgap hmunch ih =>
    rw [segments, if_neg hgap, hmunch]
    dsimp only
    rw [Position.down_after]
    exact ih

theorem tokensOf_feed (p : Position) (cs : List Char) : ∃ t, t.kind = .newline ∧
    tokensOf p ('\n' :: cs) =
    t :: tokensOf ((p.after '\n').afterAll (cs.takeWhile (· == '\n')))
    (cs.dropWhile (· == '\n')) := by
  have hsplit := @List.takeWhile_append_dropWhile _ (· == '\n') cs
  have htake := @List.take_left _ (cs.takeWhile (· == '\n')) (cs.dropWhile (· == '\n'))
  have hdrop := @List.drop_left _ (cs.takeWhile (· == '\n')) (cs.dropWhile (· == '\n'))
  rw [hsplit] at htake hdrop
  have hmunch : munch '\n' cs = some (.newline, (cs.takeWhile (· == '\n')).length) := by
    simp [munch, mark?]
  refine ⟨⟨p, .newline, String.ofList ('\n' :: cs.takeWhile (· == '\n'))⟩, rfl, ?_⟩
  unfold tokensOf
  rw [segments, if_neg (by decide), hmunch]
  dsimp only
  rw [htake, hdrop]
  rfl

/-- A line feed in front of a text is not seen where line breaks are skipped. -/
theorem dropWhile_tokensOf_feed (p : Position) (cs : List Char) :
    (tokensOf p ('\n' :: cs)).dropWhile (fun t => t.kind == .newline) =
      (tokensOf (p.after '\n') cs).dropWhile fun t => t.kind == .newline := by
  obtain ⟨t, ht, htokens⟩ := tokensOf_feed p cs
  rw [htokens, List.dropWhile_cons_of_pos (by simp [ht])]
  cases cs with
  | nil => rfl
  | cons c cs =>
    by_cases hc : c = '\n'
    · obtain ⟨t', ht', htokens'⟩ := tokensOf_feed (p.after '\n') cs
      subst hc
      rw [htokens', List.dropWhile_cons_of_pos (a := t') (by simp [ht'])]
      rfl
    · rw [List.takeWhile_cons_of_neg (by simp [hc]), List.dropWhile_cons_of_neg (by simp [hc])]
      rfl

theorem dropWhile_tokensOf_feeds (p : Position) (m : Nat) (cs : List Char) :
    (tokensOf p (List.replicate m '\n' ++ cs)).dropWhile (fun t => t.kind == .newline) =
      (tokensOf (p.afterAll (List.replicate m '\n')) cs).dropWhile fun t => t.kind == .newline := by
  induction m generalizing p with
  | zero => rfl
  | succ m ih =>
    rw [List.replicate_succ, List.cons_append, dropWhile_tokensOf_feed, ih]
    rfl

theorem munch_append_feed {c : Char} {cs : List Char} (h : (c :: cs).getLast? ≠ some '\n')
    (rest : List Char) : munch c (cs ++ '\n' :: rest) = munch c cs := by
  by_cases hc : c = '\n'
  · subst hc
    have hstops : (cs.takeWhile (· == '\n')).length ≠ cs.length := by
      intro hall
      have heq := List.takeWhile_eq_self_iff.1 ((List.takeWhile_prefix _).eq_of_length hall)
      rw [List.getLast?_cons] at h
      cases hlast : cs.getLast? with
      | none => simp [hlast] at h
      | some x =>
        have hx : x = '\n' := by simpa using heq x (List.mem_of_getLast? hlast)
        simp [hlast, hx] at h
    simp [munch, mark?, List.takeWhile_append, hstops]
  · exact munch_append (.feed rest) hc cs

theorem exists_feeds (cs : List Char) : ∃ ds k, cs = ds ++ List.replicate k '\n' ∧
    ds.getLast? ≠ some '\n' := by
  refine ⟨cs.rdropWhile (· == '\n'), (cs.rtakeWhile (· == '\n')).length, ?_, fun hlast => ?_⟩
  · rw [← List.eq_replicate_of_mem fun c hc => by simpa using List.mem_rtakeWhile_imp hc]
    simp
  · obtain ⟨ds, hds⟩ := List.getLast?_eq_some_iff.1 hlast
    have hne : cs.rdropWhile (· == '\n') ≠ [] := by simp [hds]
    refine List.rdropWhile_last_not _ _ hne ?_
    simp [hds]

/-- **A text that does not end in a line feed is scanned on its own**, whatever line follows it. -/
theorem segments_append_feed (p : Position) {cs : List Char} (hcs : cs.getLast? ≠ some '\n')
    (rest : List Char) :
    segments p (cs ++ '\n' :: rest) = segments p cs ++ segments (p.afterAll cs) ('\n' :: rest) := by
  have hdrop : ∀ (c : Char) (cs : List Char) (n : Nat), (c :: cs).getLast? ≠ some '\n' →
      (cs.drop n).getLast? ≠ some '\n' := by
    intro c cs n h
    rw [List.getLast?_drop]
    rw [List.getLast?_cons] at h
    split
    · simp
    · intro hlast
      simp [hlast] at h
  fun_induction segments p cs with
  | case1 => rfl
  | case2 p c cs hgap ih =>
    rw [List.cons_append, segments, if_pos hgap, ih (hdrop c cs 0 hcs)]
    rfl
  | case3 p c cs hgap kind n hmunch lexeme ih =>
    have hn := (takes_of_munch hmunch).2
    have hafter : p.afterAll (c :: cs) = (p.afterAll lexeme).afterAll (cs.drop n) := by
      rw [← Position.afterAll_append, List.cons_append, List.take_append_drop]
    rw [List.cons_append, segments, if_neg hgap, munch_append_feed hcs, hmunch, hafter]
    dsimp only
    rw [List.take_append_of_le_length hn, List.drop_append_of_le_length hn, ih (hdrop c cs n hcs)]
    rfl
  | case4 p c cs hgap hmunch ih =>
    rw [List.cons_append, segments, if_neg hgap, munch_append_feed hcs, hmunch]
    dsimp only
    rw [ih (hdrop c cs 0 hcs)]
    rfl

/-- Line feeds at the end of a text make no difference where the layout does not count. -/
theorem tidy_kindsOf_feeds {cs : List Char} (hcs : cs.getLast? ≠ some '\n') (k : Nat) :
    tidy (kindsOf (cs ++ List.replicate k '\n')) = tidy (kindsOf cs) := by
  have hfeeds : ∀ k, tidy (kindsOf (List.replicate k '\n')) = [] := by
    intro k
    induction k with
    | zero => simp [tidy]
    | succ k ih =>
      rw [List.replicate_succ, tidy_kindsOf_feed, tidy_newline, ih]
      rfl
  cases k with
  | zero => simp
  | succ k =>
    have happend : kindsOf (cs ++ List.replicate (k + 1) '\n') =
        kindsOf cs ++ kindsOf (List.replicate (k + 1) '\n') := by
      unfold kindsOf
      rw [List.replicate_succ, segments_append_feed _ hcs, List.filterMap_append, List.map_append,
        kinds_segments (Position.start.afterAll cs) .start]
    have hnil : tidy (kindsOf cs ++ kindsOf (List.replicate (k + 1) '\n')) =
      tidy (kindsOf cs ++ []) :=
      tidy_append _ (hfeeds (k + 1))
    rw [happend, hnil, List.append_nil]

end Scan

/-! ### What is bound at the top level -/

section

variable {Shares : Scope → Prop} {env env' : Environment}

theorem Environment.Shared.bind_other (h : env.Shared Shares env') {symbol : Symbol}
    (hscope : ¬ Shares symbol.scope)
    (shape : Shape) : env.Shared Shares (env'.bind symbol shape) := by
  have hne : ∀ other : Symbol, Shares other.scope → symbol ≠ other :=
    fun other hother heq => hscope (heq ▸ hother)
  refine ⟨fun other hother => ?_, fun other hother => ?_, h.returns⟩
  · rw [shape_bind, if_neg (hne other hother), h.shape other hother]
  · rw [contains_bind, beq_false_of_ne (hne other hother), Bool.false_or, h.contains other hother]

theorem Assignment.shared_after (hscope : ¬ Shares .top) (h : env.Shared Shares env')
    (a : Assignment) : env.Shared Shares (a.after env' .top) := by
  unfold after
  cases a.target with
  | var name shape => exact h.bind_other hscope shape
  | element name index ty => exact h

mutual

/-- Statements of the top level bind nothing but names of the top level, unless they declare a
subroutine. -/
theorem Stmt.shared_after {env' : Environment} (hscope : ¬ Shares .top) (h : env.Shared Shares env')
    (st : Stmt) (hst : st.headers = []) : env.Shared Shares (st.after env' .top) := by
  cases st with
  | assign a => exact a.shared_after hscope h
  | array ty name size => exact h.bind_other hscope _
  | ifThen condition body rest =>
    obtain ⟨hbody, hrest⟩ := List.append_eq_nil_iff.1 hst
    exact rest.shared_after hscope (shared_afterAll hscope h body hbody) hrest
  | whileLoop condition body => exact shared_afterAll hscope h body hst
  | forLoop init bound body => exact shared_afterAll hscope (init.shared_after hscope h) body hst
  | subroutine name params body ty => exact absurd (List.append_eq_nil_iff.1 hst).2 nofun
  | _ => exact h

theorem shared_afterAll {env' : Environment} (hscope : ¬ Shares .top) (h : env.Shared Shares env')
    (body : List Stmt)
    (hbody : headersAll body = []) : env.Shared Shares (afterAll env' .top body) := by
  cases body with
  | nil => exact h
  | cons st rest =>
    obtain ⟨hst, hrest⟩ := List.append_eq_nil_iff.1 hbody
    exact shared_afterAll hscope (st.shared_after hscope h hst) rest hrest

theorem ElsePart.shared_after {env' : Environment} (hscope : ¬ Shares .top)
    (h : env.Shared Shares env') (part : ElsePart)
    (hpart : part.headers = []) : env.Shared Shares (part.after env' .top) := by
  cases part with
  | none => exact h
  | body body => exact shared_afterAll hscope h body hpart
  | elseIf condition body rest =>
    obtain ⟨hbody, hrest⟩ := List.append_eq_nil_iff.1 hpart
    exact rest.shared_after hscope (shared_afterAll hscope h body hbody) hrest

end

end

/-! ### A declaration behind a source -/

open Scan Grammar

/-- How far down a source is that stands behind another one, on a line of its own. -/
def linesAbove (source : String) : Nat :=
  source.toList.count '\n' + 1

/-- Something is read of a source as it is read of the tokens in front of its last line feeds. -/
theorem parse_feeds {source : String} {cs : List Char} {n : Nat}
    (hsource : source.toList = cs ++ List.replicate n '\n')
    (hcs : cs.getLast? ≠ some '\n') {p : Program} (h : parse (scan source).tokens = .ok p) :
    parse (scan (String.ofList cs)).tokens = .ok p := by
  have hsame :
    SameReason (parse (scan source).tokens) (parse (scan (String.ofList cs)).tokens) := by
    refine sameReason_parse ?_
    rw [hsource, String.toList_ofList, tidy_newline, tidy_newline, tidy_kindsOf_feeds hcs]
  rcases hsame.cases with ⟨q, hq, hq'⟩ | ⟨e, e', he, -⟩
  · rw [hq', ← h, hq]
  · rw [he] at h
    cases h

/-- The tokens of a source that is followed by a line break. -/
def front {input input' : Input} (tail : List Token) (hbreaks : ∀ t, tail.head? = some t →
    t.kind = .newline)
    (hne : tail ≠ []) (hstop : input.stop.kind = .eof) (hstop' : input'.stop.kind = .eof) :
    Placing input input' :=
  { lines := 0, tail, Shares := fun _ => True, breaks := hbreaks, subroutines := fun _ => trivial,
    stop := hstop, stop' := hstop', ends := fun hnil => absurd hnil hne }

/-- The end of a source, so many lines below where it stands alone. -/
def back {input input' : Input} (lines : Nat) (hstop : input.stop.kind = .eof)
    (hstop' : input'.stop.kind = .eof)
    (hends : input'.stop = input.stop.down lines) : Placing input input' :=
  { lines, tail := [], Shares := (· ≠ .top),
    breaks := by simp, subroutines := by simp, stop := hstop, stop' := hstop',
    ends := fun _ => hends }

theorem exists_rest {input : Input} {xs ys : List Token}
    (h : (Cursor.start input).rest = xs ++ ys) : ∃ c : Cursor input, c.rest = ys := by
  have hall : input.tokens.toList = xs ++ ys := h
  have hlength : xs.length ≤ input.tokens.size := by
    rw [← Array.length_toList, hall, List.length_append]
    exact Nat.le_add_right _ _
  refine ⟨⟨xs.length, hlength⟩, ?_⟩
  show input.tokens.toList.drop xs.length = ys
  rw [hall, List.drop_left]

theorem statements_skipNewlines {input : Input} (c : Cursor input) :
    statements c.skipNewlines.val = statements c :=
  statements_of_skip (by rw [Cursor.rest_skipNewlines, List.dropWhile_idempotent])

/-- The tokens of a source that ends in no line feed stand in front of a line break, of more of
them, and of the tokens of another source. -/
theorem tokensOf_behind {cs : List Char} (hcs : cs.getLast? ≠ some '\n') (n : Nat)
    (ds : List Char) :
    ∃ tail, tokensOf .start (cs ++ List.replicate n '\n' ++ '\n' :: ds) =
    tokensOf .start cs ++ tail ∧
      (∀ t, tail.head? = some t → t.kind = .newline) ∧ tail ≠ [] ∧
      (tail.dropWhile fun t => t.kind == .newline) =
        ((tokensOf .start ds).dropWhile fun t => t.kind == .newline).map
          (Token.down ((cs ++ List.replicate n '\n').count '\n' + 1)) := by
  have hfeeds : List.replicate n '\n' ++ '\n' :: ds = List.replicate (n + 1) '\n' ++ ds := by
    rw [List.replicate_succ', List.append_assoc, List.singleton_append]
  refine ⟨tokensOf (Position.start.afterAll cs) (List.replicate (n + 1) '\n' ++ ds), ?_, ?_, ?_, ?_⟩
  · rw [List.append_assoc, hfeeds, List.replicate_succ, List.cons_append]
    unfold tokensOf
    rw [segments_append_feed _ hcs, List.filterMap_append]
  · intro t ht
    obtain ⟨t', ht', htokens⟩ :=
      tokensOf_feed (Position.start.afterAll cs) (List.replicate n '\n' ++ ds)
    rw [List.replicate_succ, List.cons_append, htokens] at ht
    rwa [← Option.some.inj ht]
  · obtain ⟨t', -, htokens⟩ :=
      tokensOf_feed (Position.start.afterAll cs) (List.replicate n '\n' ++ ds)
    rw [List.replicate_succ, List.cons_append, htokens]
    exact List.cons_ne_nil _ _
  · rw [dropWhile_tokensOf_feeds, ← Position.afterAll_append,
      List.replicate_succ', ← List.append_assoc,
      Position.afterAll_feed, tokensOf_down, List.dropWhile_map]
    rfl

/-- **What is read of a source behind another one**: first the statements of that one, and then what
stands behind them, which is seen as it is alone, further down. -/
theorem statements_behind {source : String} (last : String) {p : Program}
    (hp : parse (scan source).tokens = .ok p) (hheaders : headersAll p = []) :
    ∃ (k : Placing (.ofTokens (scan last).tokens)
      (.ofTokens (scan (source ++ "\n" ++ last)).tokens))
      (d : Cursor (.ofTokens (scan (source ++ "\n" ++ last)).tokens)) (t : Session),
      k.lines = linesAbove source ∧ k.tail = [] ∧
      k.Stands (Cursor.start (.ofTokens (scan last).tokens)).skipNewlines.val d ∧
      ({} : Session).env.Shared k.Shares t.env ∧
      analyze (scan (source ++ "\n" ++ last)).tokens =
      outcome (statements d >>= fun q => pure (p ++ q)) t := by
  obtain ⟨cs, n, hsource, hcs⟩ := exists_feeds source.toList
  have htext :
    (source ++ "\n" ++ last).toList = cs ++ List.replicate n '\n' ++ '\n' :: last.toList := by
    simp [hsource]
  obtain ⟨hrest, hstop⟩ := rest_start_scan (source ++ "\n" ++ last)
  obtain ⟨hrestLast, hstopLast⟩ := rest_start_scan last
  obtain ⟨hrestFirst, hstopFirst⟩ := rest_start_scan (String.ofList cs)
  rw [String.toList_ofList] at hrestFirst hstopFirst
  rw [htext] at hrest hstop
  obtain ⟨tail, htokens, hbreaks, hne, hskip⟩ := tokensOf_behind hcs n last.toList
  rw [← hsource] at hskip
  have heof : (Input.ofTokens (scan (source ++ "\n" ++ last)).tokens).stop.kind = .eof := by
    rw [hstop]
  have heofLast : (Input.ofTokens (scan last).tokens).stop.kind = .eof := by rw [hstopLast]
  have heofFirst : (Input.ofTokens (scan (String.ofList cs)).tokens).stop.kind = .eof := by
    rw [hstopFirst]
  -- The statements in front are read first.
  have hfront : (front tail hbreaks hne heofFirst heof).Stands
      (Cursor.start (.ofTokens (scan (String.ofList cs)).tokens))
      (Cursor.start (.ofTokens (scan (source ++ "\n" ++ last)).tokens)) := by
    have hsame : Token.down 0 = id := rfl
    rw [Placing.Stands, hrest, hrestFirst, show (front tail hbreaks hne heofFirst heof).lines =
      0 from rfl, hsame, List.map_id]
    exact htokens
  obtain ⟨e, he⟩ := exists_rest (hrest.trans htokens)
  have hrun := runs_of_parse (parse_feeds hsource hcs hp)
  obtain ⟨t, henv, hout⟩ :=
    statements_before (k := front tail hbreaks hne heofFirst heof) trivial hne hfront he
    (t := {}) ⟨fun _ _ => rfl, fun _ _ => rfl, fun _ => rfl⟩ hrun
  have hends : (Input.ofTokens (scan (source ++ "\n" ++ last)).tokens).stop =
      (Input.ofTokens (scan last).tokens).stop.down (linesAbove source) := by
    rw [hstop, hstopLast, List.append_cons, Position.afterAll_append, ← hsource,
      Position.afterAll_feed, Position.down_afterAll]
    rfl
  refine ⟨back _ heofLast heof hends, e.skipNewlines.val, t, rfl, rfl, ?_, ?_, ?_⟩
  · rw [Placing.Stands, Cursor.rest_skipNewlines, Cursor.rest_skipNewlines, he, hskip, hrestLast]
    exact (List.append_nil _).symm
  · have hback : ({} : Environment).Shared (· ≠ .top) (afterAll {} .top p) :=
      shared_afterAll (fun h => h rfl) ⟨fun _ _ => rfl, fun _ _ => rfl, fun _ => rfl⟩ p hheaders
    rw [(statements_run hrun).2.2] at henv
    exact ⟨fun symbol hsymbol => (henv.shape symbol trivial).trans (hback.shape symbol hsymbol),
      fun symbol hsymbol => (henv.contains symbol trivial).trans (hback.contains symbol hsymbol),
      fun name => (henv.returns name).trans (hback.returns name)⟩
  · rw [statements_skipNewlines]
    exact hout

theorem declares_skipNewlines {input : Input} {c : Cursor input} (h : Declares c.kinds) :
    Declares c.skipNewlines.val.kinds := by
  obtain ⟨n, first, ty, rest, hkinds, hty, hclose⟩ := h
  exact ⟨0, first, ty, rest, kinds_skip_declaration hty hkinds, hty, hclose⟩

/-- **A declaration is read behind a source as it is read alone**, with an error further down if
there is one. -/
theorem parse_behind {source last : String} {p : Program} (hp : parse (scan source).tokens = .ok p)
    (hheaders : headersAll p = []) (hdeclares : Declares (kindsOf last.toList)) :
    parse (scan (source ++ "\n" ++ last)).tokens = match parse (scan last).tokens with
      | .ok r => .ok (p ++ r)
      | .error e => .error (e.down (linesAbove source)) := by
  obtain ⟨k, d, t, hlines, htail, hstands, henv, hout⟩ := statements_behind last hp hheaders
  rw [← (kinds_start_scan last).1] at hdeclares
  have hgoes := program_inStep htail hstands (declares_skipNewlines hdeclares) {} t henv
  rw [statements_skipNewlines] at hgoes
  unfold parse
  rw [hout, outcome_bind]
  have halone :
    analyze (scan last).tokens = outcome (statements (.start (.ofTokens (scan last).tokens))) {} :=
    rfl
  rw [halone]
  generalize outcome (statements (Cursor.start (.ofTokens (scan last).tokens))) {} =
    alone at hgoes ⊢
  generalize outcome (statements d) t = behind at hgoes ⊢
  cases hgoes with
  | both h =>
    obtain ⟨rfl, -⟩ := h
    rfl
  | neither h => rw [h htail, hlines]
  | apart h => exact absurd htail h
  | left hfalse => exact hfalse.elim
  | right hfalse => exact hfalse.elim

theorem parse_declaration {source : String} {p : Program}
    (hdeclares : Declares (kindsOf source.toList))
    (hp : parse (scan source).tokens = .ok p) :
    ∃ name params body ty, p = [.subroutine name params body ty] := by
  rw [← (kinds_start_scan source).1] at hdeclares
  obtain ⟨n, first, ty, rest, hkinds, hty, hclose⟩ := hdeclares
  have hrun := runs_of_parse hp
  unfold Runs at hrun
  rw [outcome_statements (kinds_start_scan source).2 hty hkinds hclose] at hrun
  obtain ⟨r, s, hread, hpure⟩ := runs_bind.1 hrun
  have hspends := statement_spends hty (kinds_skip_declaration hty hkinds) hclose
  obtain ⟨⟨name, params, body, ty', hr⟩, -⟩ := hspends _ _ _ hread
  exact ⟨name, params, body, ty', by rw [(runs_pure.1 hpure).1, hr]⟩

/-! ### Compiling -/

open Lower Ir

/-- The error that stands so many lines further down. -/
def CompileError.down (n : Nat) : CompileError → CompileError
  | source e => .source (e.down n)
  | e => e

theorem Compiler.result_compileProgram (c : Compiler) (sourceName : String) (p : Program) :
    (c.compileProgram sourceName p).result =
    (generate c.moduleName sourceName c.target p).1.mapError .lower := by
  unfold compileProgram
  rcases generate c.moduleName sourceName c.target p with ⟨r, log⟩
  cases r <;> rfl

theorem Compiler.generate_of_compiles {c : Compiler} {sourceName source : String} {p : Program}
    {m : Module}
    (hp : parse (scan source).tokens = .ok p)
    (h : (c.compileNamed sourceName source).result = .ok m) :
    (generate c.moduleName sourceName c.target p).1 = .ok m := by
  rw [result_compileNamed, hp] at h
  dsimp only at h
  rw [result_compileProgram] at h
  cases hgenerate : (generate c.moduleName sourceName c.target p).1 with
  | error e =>
    rw [hgenerate] at h
    cases h
  | ok m' =>
    rw [hgenerate] at h
    exact congrArg _ (Except.ok.inj h)

theorem headersAll_append (p q : List Stmt) :
    headersAll (p ++ q) = headersAll p ++ headersAll q := by
  induction p with
  | nil => rfl
  | cons st p ih => rw [List.cons_append, headersAll, ih, headersAll, List.append_assoc]

theorem fits_last {n sourceName target : String} {p : Program} {m : Module} {fs : List Function}
    {main : Function} {name : String} {params : List Param} {body : List Stmt} {ty : Ty}
    (h : (generate n sourceName target (p ++ [.subroutine name params body ty])).1 = .ok m)
    (hfunctions : m.functions = fs ++ [main]) : ∃ inner f, fs = inner ++ [f] ∧
    Fits ⟨name, params, ty⟩ f := by
  obtain ⟨gs, main', hgs, hfits, -⟩ := fits_of_generate h
  obtain ⟨rfl, -⟩ := List.append_inj' (hfunctions.symm.trans hgs) rfl
  have hlast : headersAll (p ++ [.subroutine name params body ty]) =
      headersAll p ++ headersAll body ++ [⟨name, params, ty⟩] := by
    rw [headersAll_append]
    simp [headersAll, Stmt.headers]
  rw [hlast, ← List.forall₂_reverse_iff, List.reverse_concat] at hfits
  obtain ⟨f, inner, hf, -, hreverse⟩ := List.forall₂_cons_left_iff.1 hfits
  exact ⟨inner.reverse, f, by rw [← List.reverse_reverse fs, hreverse, List.reverse_cons], hf⟩

/-- **Subroutines are insulated from the top level.**  Behind two sources that have neither
subroutines nor strings and that compile on their own, the declaration of a subroutine is read as
the same tree and has the same function, in modules that differ in `main` only; or there is the same
error behind both, as far down as there are lines above. -/
theorem declaration_insulated (c : Compiler) (sourceName : String)
    {first second declaration : String} {p q : Program} {mp mq : Module}
    (hp : parse (scan first).tokens = .ok p) (hplain : PlainProgram p)
    (hpm : (c.compileNamed sourceName first).result = .ok mp)
    (hq : parse (scan second).tokens = .ok q) (hplain' : PlainProgram q)
    (hqm : (c.compileNamed sourceName second).result = .ok mq)
    (hdeclares : Declares (kindsOf declaration.toList)) :
    (∃ (header : Header) (body : List Stmt) (m m' : Module) (fs : List Function)
      (f main main' : Function), parse (scan (first ++ "\n" ++ declaration)).tokens =
        .ok (p ++ [.subroutine header.name header.params body header.ty]) ∧
      parse (scan (second ++ "\n" ++ declaration)).tokens =
        .ok (q ++ [.subroutine header.name header.params body header.ty]) ∧
      (c.compileNamed sourceName (first ++ "\n" ++ declaration)).result = .ok m ∧
      (c.compileNamed sourceName (second ++ "\n" ++ declaration)).result = .ok m' ∧
      Fits header f ∧ m.functions = fs ++ [f, main] ∧
      m' = { m with functions := fs ++ [f, main'] }) ∨
    ∃ e : CompileError,
      (c.compileNamed sourceName (first ++ "\n" ++ declaration)).result =
      .error (e.down (linesAbove first)) ∧
      (c.compileNamed sourceName (second ++ "\n" ++ declaration)).result =
      .error (e.down (linesAbove second)) := by
  have hpg := Compiler.generate_of_compiles hp hpm
  have hqg := Compiler.generate_of_compiles hq hqm
  rw [Compiler.result_compileNamed, Compiler.result_compileNamed,
    parse_behind hp hplain.1 hdeclares, parse_behind hq hplain'.1 hdeclares]
  cases hd : parse (scan declaration).tokens with
  | error e => exact .inr ⟨.source e, rfl, rfl⟩
  | ok r =>
    obtain ⟨name, params, body, ty, rfl⟩ := parse_declaration hdeclares hd
    dsimp only
    rw [Compiler.result_compileProgram, Compiler.result_compileProgram]
    rcases generate_insulated hplain hplain' hpg hqg name params body ty with
      ⟨m, m', hm, hm', hsame⟩ | ⟨e, he, he'⟩
    · obtain ⟨fs, main, main', hfunctions, rfl⟩ := hsame
      obtain ⟨inner, f, rfl, hfits⟩ := fits_last hm hfunctions
      rw [hm, hm']
      refine .inl ⟨⟨name, params, ty⟩, body, m, _, inner, f, main, main', rfl, rfl, rfl, rfl,
        hfits, ?_, ?_⟩
      · simpa using hfunctions
      · simp
    · rw [he, he']
      exact .inr ⟨.lower e, rfl, rfl⟩

/-- A number and an array. -/
def numberAndArray : String :=
  "n = 2.5\nINT a[4]\na[1] = 7"

/-- The same names the other way around. -/
def arrayAndNumber : String :=
  "a = 1\nDOUBLE n[2]\nWHILE a < 3 DO\na = a + 1\nENDWHILE\n\n"

/-- A subroutine with both names. -/
def doubling : String :=
  "\nINT SUBROUTINE double(INT n)\na = n * 2\nRETURN a\nENDSUBROUTINE\n"

theorem doubling_insulated : ∃ (m m' : Module) (fs : List Function) (f main main' : Function),
    (({} : Compiler).compileNamed "double.pc" (numberAndArray ++ "\n" ++ doubling)).result = .ok m ∧
    (({} : Compiler).compileNamed "double.pc" (arrayAndNumber ++ "\n" ++ doubling)).result =
    .ok m' ∧
    f.name = "double" ∧ m.functions = fs ++ [f, main] ∧
    m' = { m with functions := fs ++ [f, main'] } := by
  have hplain : ∀ source : String, ((parse (scan source).tokens).toOption.map fun p =>
      (headersAll p).isEmpty && (stringsAll p).isEmpty) = some true →
      ∃ p, parse (scan source).tokens = .ok p ∧ PlainProgram p := by
    intro source h
    obtain ⟨p, hp, hempty⟩ := Option.map_eq_some_iff.1 h
    rw [Bool.and_eq_true, List.isEmpty_iff, List.isEmpty_iff] at hempty
    exact ⟨p, eq_ok_of_toOption hp, hempty⟩
  have hcompiles : ∀ source :
    String, (({} : Compiler).compileNamed "double.pc" source).result.toOption.isSome = true →
      ∃ m, (({} : Compiler).compileNamed "double.pc" source).result = .ok m := by
    intro source h
    obtain ⟨m, hm⟩ := Option.isSome_iff_exists.1 h
    exact ⟨m, eq_ok_of_toOption hm⟩
  obtain ⟨p, hp, hplainp⟩ := hplain numberAndArray (by decide +kernel)
  obtain ⟨q, hq, hplainq⟩ := hplain arrayAndNumber (by decide +kernel)
  obtain ⟨mp, hpm⟩ := hcompiles numberAndArray (by decide +kernel)
  obtain ⟨mq, hqm⟩ := hcompiles arrayAndNumber (by decide +kernel)
  have hdeclares : Declares (kindsOf doubling.toList) :=
    ⟨1, .keyword .int, .int,
      (kindsOf doubling.toList).drop 3, by decide +kernel, .int, by decide +kernel⟩
  have hname : ((parse (scan (numberAndArray ++ "\n" ++ doubling)).tokens).toOption.map fun p =>
      (headersAll p).map Header.name) = some ["double"] := by decide +kernel
  obtain ⟨m, hm⟩ := hcompiles (numberAndArray ++ "\n" ++ doubling) (by decide +kernel)
  rcases declaration_insulated {} "double.pc" hp hplainp hpm hq hplainq hqm hdeclares with
    ⟨header, body, m, m', fs, f, main, main', hparse, -, hfirst, hsecond, hfits, hfunctions,
      hsame⟩ | ⟨e, hfirst, -⟩
  · refine ⟨m, m', fs, f, main, main', hfirst, hsecond, hfits.name.trans ?_, hfunctions, hsame⟩
    rw [hparse] at hname
    have hnames : (headersAll p).map Header.name ++ (headersAll body).map Header.name ++
      [header.name] =
        [] ++ ["double"] := by
      simpa [Except.toOption, headersAll_append, headersAll, Stmt.headers] using hname
    exact List.singleton_inj.1 (List.append_inj' hnames rfl).2
  · rw [hm] at hfirst
    cases hfirst

end Pseudocode
