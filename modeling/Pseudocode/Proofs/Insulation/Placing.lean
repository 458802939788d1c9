import Pseudocode.Proofs.Layout.Reading

/-!
The same tokens in another program.

Some tokens are read twice: on their own, and where they stand in another program.  There they may
stand further down, other tokens may follow them from the next line on, and other names may be bound
in scopes that they do not look into. `Placing` says all of that.

If the first reading goes on, so does the second one, with the same result.  If the first one
rejects the program then, with nothing behind the tokens, the second one does so with the same error
further down.  With something behind them nothing is said of an error, since there the input may go
on where the first one ended (`Placing.pairing`).
-/

namespace Pseudocode

theorem dropWhile_newline_down (n : Nat) (ts : List Token) :
    (ts.map (Token.down n)).dropWhile (fun t => t.kind == .newline) =
      (ts.dropWhile fun t => t.kind == .newline).map (Token.down n) :=
  List.dropWhile_map

/-! ### Cursors -/

namespace Cursor

variable {input : Input} {c : Cursor input}

theorem peek_of_nil (h : c.rest = []) : c.peek = input.stop := by
  have hleft : c.left = 0 := by rw [← length_rest, h]; rfl
  have hread : ¬ c.read < input.tokens.size := by
    unfold left at hleft
    omega
  simp [peek, hread]

theorem rest_skipNewlines (c : Cursor input) :
    c.skipNewlines.val.rest = c.rest.dropWhile fun t => t.kind == .newline := by
  rw [skipNewlines]
  cases hrest : c.rest with
  | nil =>
    rw [skip?_eq_none (by simp [kinds, hrest])]
    exact hrest
  | cons t ts =>
    obtain ⟨⟨c₁, h₁⟩, rfl, hc₁, hstep⟩ := step?_of_rest hrest
    unfold skip?
    rw [hstep]
    by_cases hkind : c.peek.kind = .newline
    · rw [if_pos hkind, List.dropWhile_cons_of_pos (by simp [hkind]), ← hc₁]
      exact rest_skipNewlines c₁
    · rw [if_neg hkind, List.dropWhile_cons_of_neg (by simp [hkind]), ← hrest]
      rfl
termination_by c.left

theorem kinds_eq_nil : c.kinds = [] ↔ c.rest = [] :=
  List.map_eq_nil_iff

end Cursor

/-- How the tokens of one input stand in another one. -/
structure Placing (input input' : Input) where
  /-- So many lines further down they stand. -/
  lines : Nat
  /-- The tokens behind them. -/
  tail : List Token
  /-- The scopes whose names are bound in the same way. -/
  Shares : Scope → Prop
  breaks : ∀ t, tail.head? = some t → t.kind = .newline
  subroutines : ∀ name, Shares (.subroutine name)
  stop : input.stop.kind = .eof
  stop' : input'.stop.kind = .eof
  ends : tail = [] → input'.stop = input.stop.down lines

namespace Placing

variable {input input' : Input} {k : Placing input input'} {c : Cursor input} {d : Cursor input'}

/-- The second cursor has in front of it what the first one has, and then what stands behind
that. -/
def Stands (k : Placing input input') (c : Cursor input) (d : Cursor input') : Prop :=
  d.rest = c.rest.map (Token.down k.lines) ++ k.tail

namespace Stands

theorem kinds (h : k.Stands c d) : d.kinds = c.kinds ++ k.tail.map Token.kind := by
  unfold Cursor.kinds
  rw [h, List.map_append, List.map_map]
  rfl

theorem peek (h : k.Stands c d) (htail : k.tail = []) : d.peek = c.peek.down k.lines := by
  unfold Stands at h
  rw [htail, List.append_nil] at h
  cases hrest : c.rest with
  | nil =>
    rw [hrest] at h
    rw [Cursor.peek_of_nil hrest, Cursor.peek_of_nil h, k.ends htail]
  | cons t ts =>
    rw [hrest] at h
    obtain ⟨-, rfl, -⟩ := Cursor.step?_of_rest hrest
    obtain ⟨-, hpeek, -⟩ := Cursor.step?_of_rest h
    exact hpeek

/-- The same token stands before both cursors, or the line of both has ended. -/
theorem begins (h : k.Stands c d) :
    (∃ t ts u us, c.rest = t :: ts ∧ d.rest = u :: us ∧ t.kind ≠ .newline ∧
    u.kind = t.kind ∧ us = ts.map (Token.down k.lines) ++ k.tail) ∨ c.AtBreak ∧ d.AtBreak := by
  unfold Stands at h
  cases hrest : c.rest with
  | nil =>
    rw [hrest] at h
    refine .inr ⟨fun kind ks hks => ?_, fun kind ks hks => ?_⟩
    · rw [Cursor.kinds_eq_nil.2 hrest] at hks
      cases hks
    · rw [Cursor.kinds, h] at hks
      obtain ⟨t, ts, htail, rfl, -⟩ := List.map_eq_cons_iff.mp hks
      exact k.breaks t (congrArg List.head? htail)
  | cons t ts =>
    rw [hrest] at h
    by_cases hkind : t.kind = .newline
    · refine .inr ⟨fun kind ks hks => ?_, fun kind ks hks => ?_⟩
      · rw [Cursor.kinds, hrest] at hks
        exact (List.cons.inj hks).1.symm.trans hkind
      · rw [Cursor.kinds, h] at hks
        exact (List.cons.inj hks).1.symm.trans hkind
    · exact .inl ⟨t, ts, _, _, rfl, h, hkind, rfl, rfl⟩

theorem skip?_newline (h : k.Stands c d) {c₁ : c.After} (hc : c.skip? .newline = some c₁) :
    ∃ d₁, d.skip? .newline = some d₁ ∧ k.Stands c₁.val d₁.val := by
  unfold Stands at h
  cases hrest : c.rest with
  | nil =>
    rw [Cursor.skip?_eq_none (by simp [Cursor.kinds, hrest])] at hc
    cases hc
  | cons t ts =>
    rw [hrest] at h
    obtain ⟨c₂, rfl, hc₂, hcstep⟩ := Cursor.step?_of_rest hrest
    obtain ⟨d₁, hpeek, hd₁, hdstep⟩ := Cursor.step?_of_rest h
    unfold Cursor.skip? at hc ⊢
    rw [hcstep] at hc
    rw [hdstep, hpeek, Token.kind_down]
    by_cases hkind : c.peek.kind = .newline
    · rw [if_pos hkind] at hc ⊢
      obtain rfl : c₂ = c₁ := Option.some.inj hc
      exact ⟨d₁, rfl, by rw [Stands, hc₂, hd₁]; rfl⟩
    · rw [if_neg hkind] at hc
      cases hc

/-- Without a line break before the first cursor there is none before the second one, unless the
first input has ended before other tokens. -/
theorem skip?_newline_none (h : k.Stands c d) (hc : c.skip? .newline = none) :
    d.skip? .newline = none ∨ k.tail ≠ [] := by
  by_cases htail : k.tail = []
  · refine .inl (Cursor.skip?_eq_none fun hhead => ?_)
    rw [h.kinds, htail, List.map_nil, List.append_nil] at hhead
    obtain ⟨ks, hks⟩ := List.head?_eq_some_iff.mp hhead
    obtain ⟨c₁, hskip, -⟩ := Cursor.skip?_of_kinds hks
    rw [hc] at hskip
    cases hskip
  · exact .inr htail

theorem skipNewlines (h : k.Stands c d) : k.Stands c.skipNewlines.val d.skipNewlines.val ∨
    c.skipNewlines.val.rest = [] ∧ k.tail ≠ [] := by
  unfold Stands at h ⊢
  rw [Cursor.rest_skipNewlines, Cursor.rest_skipNewlines, h, List.dropWhile_append,
    dropWhile_newline_down]
  by_cases hnil : (c.rest.dropWhile fun t => t.kind == .newline) = []
  · by_cases htail : k.tail = []
    · exact .inl (by simp [hnil, htail])
    · exact .inr ⟨hnil, htail⟩
  · exact .inl (if_neg (by simpa using hnil))

end Stands

/-- Readings of the same tokens, of which the second ones stand in another program. -/
def pairing (k : Placing input input') : Pairing input input' where
  Shares := k.Shares
  subroutines := k.subroutines
  Lines line line' := k.tail = [] → line' = line + k.lines
  Blames e e' := k.tail = [] → e' = e.down k.lines
  Apart := k.tail ≠ []
  Beside := k.Stands
  Behind := k.Stands
  stop := k.stop
  stop' := k.stop'
  blames_line hE hline htail := by rw [hline htail, hE]
  blames_token hF h htail := by
    rw [h.peek htail, hF]
    rfl
  lines h htail := by
    rw [h.peek htail]
    rfl
  begins := by
    intro c d h
    refine h.begins.imp_left ?_
    rintro ⟨t, ts, u, us, hc, hd, hkind, hsame, hus⟩
    refine ⟨t, ts, u, us, hc, hd, hkind, hsame, fun hc₁ hd₁ => ?_⟩
    rw [Stands, hc₁, hd₁, hus]
  breaks := by
    intro c d h
    cases hc : c.skip? .newline with
    | none =>
      rcases h.skip?_newline_none hc with hd | htail
      · exact .inl ⟨rfl, hd⟩
      · exact .inr (.inr (.inl ⟨rfl, htail⟩))
    | some c₁ =>
      obtain ⟨d₁, hd, hnext⟩ := h.skip?_newline hc
      exact .inr (.inl ⟨c₁, d₁, rfl, hd, hnext⟩)
  skips := by
    intro c d h
    by_cases hlost : c.skipNewlines.val.rest = [] ∧ k.tail ≠ []
    · exact .inr ⟨Cursor.kinds_eq_nil.2 hlost.1, hlost.2⟩
    · have hskip := h.skipNewlines.resolve_right hlost
      refine .inl ⟨hskip, ?_⟩
      rw [Bool.eq_iff_iff, Cursor.atEnd_iff, Cursor.atEnd_iff, hskip.kinds, List.append_eq_nil_iff]
      refine ⟨fun hnil => ⟨hnil, List.map_eq_nil_iff.2 ?_⟩, And.left⟩
      exact Classical.not_not.1 fun htail => hlost ⟨Cursor.kinds_eq_nil.1 hnil, htail⟩

end Placing

/-! ### What comes before more statements -/

namespace Grammar

open Analysis

variable {input input' : Input} {k : Placing input input'}

theorem eq_of_rest {c d : Cursor input} (h : c.rest = d.rest) : c = d := by
  have hlength := congrArg List.length h
  rw [Cursor.length_rest, Cursor.length_rest] at hlength
  obtain ⟨m, hm⟩ := c
  obtain ⟨n, hn⟩ := d
  unfold Cursor.left at hlength
  obtain rfl : m = n := by
    dsimp only at hlength
    omega
  rfl

/-- Where only line breaks lie between two places, the statements from there on are the same. -/
theorem statements_of_skip {c d : Cursor input}
    (h : (c.rest.dropWhile fun t => t.kind == .newline) = d.rest.dropWhile
      fun t => t.kind == .newline) :
    statements c = statements d := by
  rw [← Cursor.rest_skipNewlines, ← Cursor.rest_skipNewlines] at h
  have hsame := eq_of_rest h
  rw [statements, statements]
  generalize c.skipNewlines = start at hsame
  generalize d.skipNewlines = start' at hsame
  obtain ⟨c₁, h₁⟩ := start
  obtain ⟨d₁, h₁'⟩ := start'
  dsimp only at hsame
  subst hsame
  rfl

/-- **Statements in front of others** are read as they are on their own, and then the others are
read. -/
theorem statements_before (hshares : k.Shares .top) (htail : k.tail ≠ []) {c : Cursor input}
    {d e : Cursor input'}
    (h : k.Stands c d) (he : e.rest = k.tail) {s s₁ t : Session} {p : Program}
    (hst : s.env.Shared k.Shares t.env)
    (hrun : Runs (statements c) s p s₁) : ∃ t₁, s₁.env.Shared k.Shares t₁.env ∧
      outcome (statements d) t = outcome (statements e >>= fun q => pure (p ++ q)) t₁ := by
  have hskip := h.skipNewlines
  have hnone : c.skipNewlines.val.rest = [] → statements d = statements e := by
    intro hnil
    refine statements_of_skip ?_
    rw [Cursor.rest_skipNewlines] at hnil
    rw [show d.rest = _ from h, he, List.dropWhile_append, dropWhile_newline_down, hnil]
    rfl
  rw [statements] at hrun
  by_cases hnil : c.skipNewlines.val.rest = []
  · -- There is no statement in front of the others.
    rw [hnone hnil]
    generalize c.skipNewlines = start at hrun hnil
    obtain ⟨c₁, h₁⟩ := start
    dsimp only at hrun hnil
    rw [if_pos (Cursor.atEnd_iff.mpr (by rw [Cursor.kinds, hnil]; rfl))] at hrun
    obtain ⟨rfl, rfl⟩ := runs_pure.1 hrun
    refine ⟨t, hst, ?_⟩
    simp
  replace hskip := hskip.resolve_right fun hended => hnil hended.1
  rw [statements]
  generalize c.skipNewlines = start at hrun hnil hskip
  generalize d.skipNewlines = start' at hskip
  obtain ⟨c₁, h₁⟩ := start
  obtain ⟨d₁, h₁'⟩ := start'
  dsimp only at hrun hnil hskip ⊢
  have hend : ¬ c₁.atEnd = true :=
    fun hend => hnil (by simpa [Cursor.kinds] using Cursor.atEnd_iff.mp hend)
  have hgoes : ∀ {c : Cursor input} {d : Cursor input'}, k.Stands c d → ¬ d.atEnd = true := by
    intro c d hstands hended
    have hkinds := Cursor.atEnd_iff.mp hended
    rw [hstands.kinds] at hkinds
    exact htail (List.map_eq_nil_iff.mp (List.append_eq_nil_iff.mp hkinds).2)
  rw [if_neg hend] at hrun
  obtain ⟨⟨st, c₂, h₂⟩, s₂, hread, hrun⟩ := runs_bind.1 hrun
  obtain ⟨⟨_, d₂, h₂'⟩, t₂, hread', ⟨rfl, hstands⟩, henv⟩ :=
    (statement_inStep (k := k.pairing) hshares c₁ d₁ hskip).runs hst hread
  dsimp only at hrun hstands
  rw [if_neg (hgoes hskip), outcome_bind, hread']
  dsimp only
  rw [if_neg (hgoes hstands)]
  by_cases hlast : c₂.atEnd = true
  · -- The others begin behind the line break that ends the last statement.
    rw [if_pos hlast] at hrun
    obtain ⟨rfl, rfl⟩ := runs_pure.1 hrun
    obtain ⟨first, rest, hfirst⟩ := List.exists_cons_of_ne_nil htail
    have hbreak : first.kind = .newline := k.breaks first (by rw [hfirst]; rfl)
    have hd₂ : d₂.rest = first :: rest := by
      have hnil : c₂.rest = [] := by simpa [Cursor.kinds] using Cursor.atEnd_iff.mp hlast
      rw [show d₂.rest = _ from hstands, hnil, hfirst]
      rfl
    obtain ⟨⟨d₃, h₃'⟩, hpeek, hd₃, hstep⟩ := Cursor.step?_of_rest hd₂
    have hskips : d₂.skip? .newline = some ⟨d₃, h₃'⟩ := by
      unfold Cursor.skip?
      rw [hstep, hpeek, if_pos hbreak]
      rfl
    have hsame : statements d₃ = statements e := by
      refine statements_of_skip ?_
      rw [he, hfirst, List.dropWhile_cons_of_pos (by simp [hbreak])]
      exact congrArg _ hd₃
    refine ⟨t₂, henv, ?_⟩
    rw [expect, hskips]
    simp [hsame]
  · rw [if_neg hlast] at hrun
    obtain ⟨⟨c₃, h₃⟩, s₃, hexpect, hrun⟩ := runs_bind.1 hrun
    obtain ⟨rest, hrest, rfl⟩ := runs_bind_pure.1 hrun
    unfold expect at hexpect ⊢
    cases hskips : c₂.skip? .newline with
    | none =>
      rw [hskips] at hexpect
      cases hexpect
    | some c₄ =>
    rw [hskips] at hexpect
    obtain ⟨rfl, rfl⟩ := runs_pure.1 hexpect
    obtain ⟨⟨d₃, h₃'⟩, hskips', hstands₃⟩ := hstands.skip?_newline hskips
    obtain ⟨t₄, henv₄, hout⟩ := statements_before hshares htail hstands₃ he henv hrest
    refine ⟨t₄, henv₄, ?_⟩
    rw [hskips', pure_bind, outcome_bind, hout, outcome_bind, outcome_bind]
    rcases outcome (statements e) t₄ with ⟨r, t₅⟩
    cases r with
    | ok q => rfl
    | error err => rfl
termination_by c.left

end Grammar

end Pseudocode
