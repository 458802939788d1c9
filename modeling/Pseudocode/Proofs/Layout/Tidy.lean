import Pseudocode.Proofs.Layout.Reading

/-!
Reading does not depend on the layout.

The same program may be laid out in two ways: its tokens stand at other places, there are more line
breaks between its lines, or there is none after its last one.  `tidy` leaves of the kinds of some
tokens what the layout does not change. Cursors that have the same in front of them up to that go
together (`laidOut`), and so do errors with the same reason.
-/

namespace Pseudocode

variable {k : Kind} {ks ls : List Kind}

/-! ### Reasons -/

/-- Why a program is rejected, whatever the place.  Of a departure from the grammar no more is
said. -/
inductive SourceError.Reason where
  | grammar
  | undefinedVariable (name : String)
  | undefinedSubroutine (name : String)
  | typeMismatch (fault : TypeFault)
  deriving DecidableEq, Repr

def SourceError.reason : SourceError → SourceError.Reason
  | grammar _ _ => .grammar
  | undefinedVariable name _ => .undefinedVariable name
  | undefinedSubroutine name _ => .undefinedSubroutine name
  | typeMismatch _ fault => .typeMismatch fault

/-- Two checks that are passed with the same value, or failed for the same reason. -/
def SameReason {α : Type} (r r' : Except SourceError α) : Prop :=
  r.mapError SourceError.reason = r'.mapError SourceError.reason

theorem SameReason.cases {α : Type} {r r' : Except SourceError α} (h : SameReason r r') :
    (∃ a, r = .ok a ∧ r' = .ok a) ∨ ∃ e e', r = .error e ∧ r' = .error e' ∧
    e.reason = e'.reason := by
  unfold SameReason at h
  cases r with
  | ok a =>
    cases r' with
    | ok b => exact .inl ⟨a, rfl, congrArg Except.ok (Except.ok.inj h).symm⟩
    | error e => cases h
  | error e =>
    cases r' with
    | ok b => cases h
    | error e' => exact .inr ⟨e, e', rfl, rfl, Except.error.inj h⟩

theorem SourceError.reason_down (e : SourceError) (n : Nat) : (e.down n).reason = e.reason := by
  cases e <;> rfl

theorem SourceError.reason_of_isGrammar {e : SourceError} (h : e.IsGrammar) :
    e.reason = .grammar := by
  cases e with
  | grammar p fault => rfl
  | _ => exact h.elim

/-! ### Tokens that are laid out differently -/

/-- A line break before these kinds, unless there is one already or nothing follows. -/
def breakBefore : List Kind → List Kind
  | [] => []
  | k :: ks => if k = .newline then k :: ks else .newline :: k :: ks

/-- The kinds with one line break where there are several, and with none at the end. -/
def tidy : List Kind → List Kind
  | [] => []
  | k :: ks => if k = .newline then breakBefore (tidy ks) else k :: tidy ks

theorem tidy_cons (hk : k ≠ .newline) (ks : List Kind) : tidy (k :: ks) = k :: tidy ks := by
  rw [tidy, if_neg hk]

theorem tidy_newline (ks : List Kind) : tidy (.newline :: ks) = breakBefore (tidy ks) := by
  rw [tidy, if_pos rfl]

theorem tidy_append (ms : List Kind) (h : tidy ks = tidy ls) :
    tidy (ms ++ ks) = tidy (ms ++ ls) := by
  induction ms with
  | nil => exact h
  | cons m ms ih => simp only [List.cons_append, tidy, ih]

theorem breakBefore_cons (k : Kind) (ks : List Kind) :
    ∃ ls, breakBefore (k :: ks) = .newline :: ls := by
  by_cases hk : k = .newline
  · exact ⟨ks, by rw [breakBefore, if_pos hk, hk]⟩
  · exact ⟨k :: ks, by rw [breakBefore, if_neg hk]⟩

theorem breakBefore_eq_nil (h : breakBefore ks = []) : ks = [] := by
  cases ks with
  | nil => rfl
  | cons k ks =>
    obtain ⟨ls, hls⟩ := breakBefore_cons k ks
    rw [hls] at h
    cases h

theorem eq_newline_of_breakBefore (h : breakBefore ks = k :: ls) : k = .newline := by
  cases ks with
  | nil => cases h
  | cons l ks =>
    obtain ⟨ms, hms⟩ := breakBefore_cons l ks
    rw [hms] at h
    exact (List.cons.inj h).1.symm

@[simp] theorem breakBefore_breakBefore (ks : List Kind) :
    breakBefore (breakBefore ks) = breakBefore ks := by
  cases ks with
  | nil => rfl
  | cons k ks =>
    by_cases hk : k = .newline
    · simp [breakBefore, hk]
    · simp [breakBefore, hk]

theorem tidy_newline_breaks (n : Nat) (ks : List Kind) :
    tidy (.newline :: (Phrase.breaks n ++ ks)) = tidy (.newline :: ks) := by
  induction n with
  | zero => rfl
  | succ n ih =>
    rw [Phrase.breaks_succ, List.cons_append, tidy_newline, tidy_newline,
      breakBefore_breakBefore, ← tidy_newline, ih]

/-- Where no break stands in front, a break that is put there can be taken away again. -/
theorem tidy_of_tidy_newline (hks : ks.head? ≠ some .newline) (hls : ls.head? ≠ some .newline)
    (h : tidy (.newline :: ks) = tidy (.newline :: ls)) : tidy ks = tidy ls := by
  have hput : ∀ {ks : List Kind} {k : Kind}, k ≠ .newline →
      tidy (.newline :: k :: ks) = .newline :: tidy (k :: ks) := by
    intro ks k hk
    rw [tidy_newline, tidy_cons hk, breakBefore, if_neg hk]
  have hfirst : ∀ {ks : List Kind} {k : Kind}, (k :: ks).head? ≠ some .newline → k ≠ .newline := by
    intro ks k hk heq
    exact hk (by rw [heq]; rfl)
  cases ks with
  | nil =>
    cases ls with
    | nil => rfl
    | cons l ls =>
      rw [hput (hfirst hls)] at h
      cases h
  | cons k ks =>
    cases ls with
    | nil =>
      rw [hput (hfirst hks)] at h
      cases h
    | cons l ls =>
      rw [hput (hfirst hks), hput (hfirst hls)] at h
      exact (List.cons.inj h).2

/-- What begins with anything but a line break begins with it in any layout. -/
theorem eq_cons_of_tidy (hk : k ≠ .newline) (h : tidy (k :: ks) = tidy ls) :
    ∃ ls', ls = k :: ls' ∧ tidy ks = tidy ls' := by
  rw [tidy_cons hk] at h
  cases ls with
  | nil => cases h
  | cons l ls =>
    by_cases hl : l = .newline
    · rw [hl, tidy_newline] at h
      exact absurd (eq_newline_of_breakBefore h.symm) hk
    · rw [tidy_cons hl] at h
      obtain ⟨rfl, hrest⟩ := List.cons.inj h
      exact ⟨ls, rfl, hrest⟩

/-- What is nothing but line breaks. -/
theorem eq_newline_of_tidy (h : tidy ks = []) : ∀ k ∈ ks, k = .newline := by
  induction ks with
  | nil => simp
  | cons k ks ih =>
    by_cases hk : k = .newline
    · rw [hk, tidy_newline] at h
      exact List.forall_mem_cons.2 ⟨hk, ih (breakBefore_eq_nil h)⟩
    · rw [tidy_cons hk] at h
      cases h

section

variable {input input' : Input} {c : Cursor input} {d : Cursor input'}

/-- The same token stands before both cursors, or the line of both has ended. -/
theorem begins_of_tidy (h : tidy c.kinds = tidy d.kinds) :
    (∃ t ts u us, c.rest = t :: ts ∧ d.rest = u :: us ∧
    t.kind ≠ .newline ∧ u.kind = t.kind ∧ tidy (ts.map Token.kind) = tidy (us.map Token.kind)) ∨
      c.AtBreak ∧ d.AtBreak := by
  by_cases hc : c.AtBreak
  · refine .inr ⟨hc, fun l ls hd => ?_⟩
    by_cases hl : l = .newline
    · exact hl
    · obtain ⟨ks, hks, -⟩ := eq_cons_of_tidy hl (hd ▸ h.symm)
      exact hc l ks hks
  · unfold Cursor.AtBreak at hc
    simp only [Classical.not_forall] at hc
    obtain ⟨k, ks, hks, hk⟩ := hc
    obtain ⟨ls, hls, hrest⟩ := eq_cons_of_tidy hk (hks ▸ h)
    obtain ⟨t, ts, hc, rfl, rfl⟩ := List.map_eq_cons_iff.mp hks
    obtain ⟨u, us, hd, hkind, rfl⟩ := List.map_eq_cons_iff.mp hls
    exact .inl ⟨t, ts, u, us, hc, hd, hk, hkind, hrest⟩

/-- Where one input has ended, only line breaks are left of the other. -/
theorem lastBreak_of_tidy (h : tidy c.kinds = tidy d.kinds) (hstop : input'.stop.kind = .eof)
    (hc : c.kinds = [])
    (hd : d.kinds ≠ []) : ∃ d₁ : d.After, d.skip? .newline = some d₁ ∧ d₁.val.Spent := by
  rw [hc] at h
  obtain ⟨l, ls, hdl⟩ := List.exists_cons_of_ne_nil hd
  have hall := eq_newline_of_tidy h.symm
  rw [hdl] at hall
  obtain ⟨rfl, hls⟩ := List.forall_mem_cons.1 hall
  obtain ⟨d₁, hskip, hd₁⟩ := Cursor.skip?_of_kinds hdl
  exact ⟨d₁, hskip, by rw [hd₁]; exact hls, hstop⟩

/-- Where neither input has ended, a line break stands before both cursors or before neither. -/
theorem innerBreak_of_tidy (h : tidy c.kinds = tidy d.kinds) (hc : c.kinds ≠ [])
    (hd : d.kinds ≠ []) :
    (c.skip? .newline = none ∧ d.skip? .newline = none) ∨ ∃ (c₁ : c.After) (d₁ : d.After),
      c.skip? .newline = some c₁ ∧ d.skip? .newline = some d₁ ∧
        tidy (.newline :: c₁.val.kinds) = tidy (.newline :: d₁.val.kinds) := by
  rcases begins_of_tidy h with ⟨t, ts, u, us, hct, hdu, hkind, hsame, -⟩ | ⟨hcbreak, hdbreak⟩
  · refine .inl ⟨Cursor.skip?_eq_none ?_, Cursor.skip?_eq_none ?_⟩
    · simp [Cursor.kinds, hct, hkind]
    · simp [Cursor.kinds, hdu, hsame, hkind]
  · obtain ⟨k, ks, hck⟩ := List.exists_cons_of_ne_nil hc
    obtain ⟨l, ls, hdl⟩ := List.exists_cons_of_ne_nil hd
    obtain rfl := hcbreak k ks hck
    obtain rfl := hdbreak l ls hdl
    obtain ⟨c₁, hcskip, hc₁⟩ := Cursor.skip?_of_kinds hck
    obtain ⟨d₁, hdskip, hd₁⟩ := Cursor.skip?_of_kinds hdl
    refine .inr ⟨c₁, d₁, hcskip, hdskip, ?_⟩
    rw [hc₁, hd₁, ← hck, ← hdl, h]

theorem skipNewlines_of_tidy (h : tidy (.newline :: c.kinds) = tidy (.newline :: d.kinds)) :
    tidy c.skipNewlines.val.kinds = tidy d.skipNewlines.val.kinds ∧
      c.skipNewlines.val.atEnd = d.skipNewlines.val.atEnd := by
  obtain ⟨⟨m, hm⟩, hchead⟩ := c.kinds_skipNewlines
  obtain ⟨⟨n, hn⟩, hdhead⟩ := d.kinds_skipNewlines
  rw [hm, hn, tidy_newline_breaks, tidy_newline_breaks] at h
  have hkinds := tidy_of_tidy_newline hchead hdhead h
  refine ⟨hkinds, ?_⟩
  have hend : ∀ {ks ls : List Kind}, ks.head? ≠ some .newline → tidy ks = tidy ls → ls = [] →
    ks = [] := by
    intro ks ls hhead htidy hls
    rw [hls] at htidy
    cases ks with
    | nil => rfl
    | cons k ks => exact absurd (by rw [eq_newline_of_tidy htidy k List.mem_cons_self]; rfl) hhead
  rw [Bool.eq_iff_iff, Cursor.atEnd_iff, Cursor.atEnd_iff]
  exact ⟨hend hdhead hkinds.symm, hend hchead hkinds⟩

end

/-- Two inputs of which the one is laid out differently from the other. -/
def laidOut {input input' : Input} (hstop : input.stop.kind = .eof)
    (hstop' : input'.stop.kind = .eof) : Pairing input input' where
  Shares _ := True
  subroutines _ := trivial
  Lines _ _ := True
  Blames e e' := e.reason = e'.reason
  Apart := False
  Beside c d := tidy c.kinds = tidy d.kinds
  Behind c d := tidy (.newline :: c.kinds) = tidy (.newline :: d.kinds)
  stop := hstop
  stop' := hstop'
  blames_line := by
    intro E line line' hE _
    have hreason : ∀ line, (E line).reason = (E 0).reason := by
      intro line
      rw [← Nat.zero_add line, hE, SourceError.reason_down]
    rw [hreason line, hreason line']
  blames_token _ _ := rfl
  lines _ := trivial
  begins := by
    intro c d h
    refine (begins_of_tidy h).imp_left ?_
    rintro ⟨t, ts, u, us, hc, hd, hkind, hsame, hrest⟩
    refine ⟨t, ts, u, us, hc, hd, hkind, hsame, fun hc₁ hd₁ => ?_⟩
    rw [Cursor.kinds, Cursor.kinds, hc₁, hd₁, hrest]
  breaks := by
    intro c d h
    have hsloppy : Sloppy fun e e' => e.reason = e'.reason := by
      intro e e' he he'
      exact (SourceError.reason_of_isGrammar he).trans (SourceError.reason_of_isGrammar he').symm
    by_cases hc : c.kinds = [] <;> by_cases hd : d.kinds = []
    · exact .inl ⟨Cursor.skip?_eq_none (by simp [hc]), Cursor.skip?_eq_none (by simp [hd])⟩
    · obtain ⟨d₁, hskip, hspent⟩ := lastBreak_of_tidy h hstop' hc hd
      exact .inr (.inr
        (.inr (.inl ⟨d₁, Cursor.skip?_eq_none (by simp [hc]), hskip, hspent, hsloppy⟩)))
    · obtain ⟨c₁, hskip, hspent⟩ := lastBreak_of_tidy h.symm hstop hd hc
      exact .inr (.inr
        (.inr (.inr ⟨c₁, hskip, Cursor.skip?_eq_none (by simp [hd]), hspent, hsloppy⟩)))
    · exact (innerBreak_of_tidy h hc hd).imp_right .inl
  skips h := .inl (skipNewlines_of_tidy h)

namespace Grammar

open Analysis

variable {input input' : Input}

theorem statements_of_spent {c : Cursor input} (h : c.Spent) : statements c = pure [] := by
  have hkinds := h.skipNewlines
  rw [statements]
  generalize c.skipNewlines = start at hkinds
  obtain ⟨c₁, h₁⟩ := start
  dsimp only at hkinds ⊢
  rw [if_pos (Cursor.atEnd_iff.2 hkinds)]

/-- **A program is read in step**, however it is laid out. -/
theorem statements_inStep (hstop : input.stop.kind = .eof) (hstop' : input'.stop.kind = .eof)
    (c : Cursor input) (d : Cursor input') (h : (laidOut hstop hstop').Behind c d) :
    InStep (laidOut hstop hstop') (· = ·) (statements c) (statements d) := by
  obtain ⟨hbeside, hended⟩ := skipNewlines_of_tidy h
  rw [statements, statements]
  generalize c.skipNewlines = start at hbeside hended
  generalize d.skipNewlines = start' at hbeside hended
  obtain ⟨c₁, h₁⟩ := start
  obtain ⟨d₁, h₁'⟩ := start'
  dsimp only at hbeside hended ⊢
  rw [hended]
  by_cases hend : d₁.atEnd = true
  · rw [if_pos hend, if_pos hend]
    exact .pure rfl
  · rw [if_neg hend, if_neg hend]
    refine (statement_inStep (k := laidOut hstop hstop') trivial c₁ d₁ hbeside).bind ?_
    rintro ⟨st, c₂, h₂⟩ ⟨_, d₂, h₂'⟩ ⟨rfl, hst⟩
    have hst : tidy c₂.kinds = tidy d₂.kinds := hst
    dsimp only
    -- The last line break may be missing on either side.
    by_cases hclast : c₂.kinds = [] <;> by_cases hdlast : d₂.kinds = []
    · rw [if_pos (Cursor.atEnd_iff.2 hclast), if_pos (Cursor.atEnd_iff.2 hdlast)]
      exact .pure rfl
    · obtain ⟨⟨d₃, h₃'⟩, hskip, hspent⟩ := lastBreak_of_tidy hst hstop' hclast hdlast
      rw [if_pos (Cursor.atEnd_iff.2 hclast), if_neg fun hend => hdlast (Cursor.atEnd_iff.1 hend),
        expect, hskip]
      simp only [pure_bind, statements_of_spent hspent]
      exact .pure rfl
    · obtain ⟨⟨c₃, h₃⟩, hskip, hspent⟩ := lastBreak_of_tidy hst.symm hstop hdlast hclast
      rw [if_pos (Cursor.atEnd_iff.2 hdlast), if_neg fun hend => hclast (Cursor.atEnd_iff.1 hend),
        expect, hskip]
      simp only [pure_bind, statements_of_spent hspent]
      exact .pure rfl
    · rw [if_neg fun hend => hclast (Cursor.atEnd_iff.1 hend),
        if_neg fun hend => hdlast (Cursor.atEnd_iff.1 hend)]
      unfold expect
      rcases innerBreak_of_tidy hst hclast hdlast with
        ⟨hc, hd⟩ | ⟨⟨c₃, h₃⟩, ⟨d₃, h₃'⟩, hc, hd, hbreak⟩
      · rw [hc, hd]
        exact InStep.bind
          (φ := fun _ _ => False) (inStep_unexpected (k := laidOut hstop hstop') hst _) nofun
      · rw [hc, hd]
        simp only [pure_bind]
        refine (statements_inStep hstop hstop' c₃ d₃ hbreak).bind ?_
        rintro rest _ rfl
        exact .pure rfl
termination_by c.left

end Grammar

end Pseudocode
