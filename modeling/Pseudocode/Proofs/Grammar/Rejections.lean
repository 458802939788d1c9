import Pseudocode.Proofs.Grammar.Statements

/-!
Programs are rejected for a reason.

A rejection blames a line, and for what is not a matter of grammar it says what is wrong.  Reading
begins in a session that is sound, so what it says is so (`rejection_justified`).  What is left is
to go from the tokens that reading sees to those of the program.
-/

namespace Pseudocode

variable {tokens : List Token}

theorem Session.sound_start (tokens : List Token) : ({} : Session).Sound tokens .top := by
  refine ⟨rfl, ?_, ?_, ?_⟩
  · intro symbol hbound
    simp [Environment.contains] at hbound
  · intro symbol hty
    simp [Environment.shape, Shape.unknown] at hty
  · intro name ty hty
    simp [Environment.returnTy?] at hty

/-- The error of a program that is not read is explained by its tokens. -/
theorem explained_of_parse {e : SourceError} (h : parse tokens = .error e) :
    e.Explained (Input.ofTokens tokens).all True (analyze tokens).2 := by
  have hsound : True → Session.Sound (Input.ofTokens tokens).all .top {} :=
    fun _ => Session.sound_start _
  have hread := Grammar.statements_reads hsound (.start (.ofTokens tokens)) {} rfl
  have hout : outcome (Grammar.statements (.start (.ofTokens tokens))) {} =
    (.error e, (analyze tokens).2) :=
    Prod.ext h rfl
  rw [hout] at hread
  exact hread

/-- The tokens that reading sees are those of the program, and one more if they have no end. -/
theorem Input.mem_all_ofTokens {t : Token} (h : t ∈ (Input.ofTokens tokens).all) :
    t ∈ tokens ∨ t.kind = .eof ∧ (tokens ≠ [] → ∃ last ∈ tokens, last.line = t.line) := by
  rcases List.mem_append.mp h with h | h
  · left
    have h : t ∈ tokens.takeWhile fun t => t.kind != .eof := by simpa [ofTokens] using h
    exact (List.takeWhile_sublist _).subset h
  · have h : t = (tokens.find? fun t => t.kind == .eof).getD
      ⟨(tokens.getLast?.map Token.toPosition).getD .start, .eof, ""⟩ :=
      List.mem_singleton.mp h
    cases hfind : tokens.find? fun t => t.kind == .eof with
    | some stop =>
      rw [hfind] at h
      exact Or.inl (h ▸ List.mem_of_find?_eq_some hfind)
    | none =>
      rw [hfind] at h
      subst h
      refine Or.inr ⟨rfl, fun hne => ?_⟩
      refine ⟨tokens.getLast hne, List.getLast_mem hne, ?_⟩
      rw [List.getLast?_eq_some_getLast hne]
      rfl

theorem SourceError.Justified.ofTokens {s : Session} {e : SourceError} (hne : tokens ≠ [])
    (h : e.Justified (Input.ofTokens tokens).all s) : e.Justified tokens s := by
  -- A token that is not the end is one of the program.
  have hmem : ∀ t ∈ (Input.ofTokens tokens).all, t.kind ≠ .eof → t ∈ tokens := fun t ht hkind =>
    (Input.mem_all_ofTokens ht).resolve_right fun hend => hkind hend.1
  refine ⟨?_, ?_, h.undeclared, ?_⟩
  · obtain ⟨t, ht, hline⟩ := h.line
    rcases Input.mem_all_ofTokens ht with ht | ⟨-, hlast⟩
    · exact ⟨t, ht, hline⟩
    · obtain ⟨last, hlast, heq⟩ := hlast hne
      exact ⟨last, hlast, heq.trans hline⟩
  · intro name line heq
    obtain ⟨⟨t, ht, hkind⟩, hunbound⟩ := h.undefined name line heq
    exact ⟨⟨t, hmem t ht (by rw [hkind]; nofun), hkind⟩, hunbound⟩
  · intro line fault heq
    obtain ⟨t, ht, text, hkind⟩ := h.mismatch line fault heq
    exact ⟨t, hmem t ht (by rw [hkind]; nofun), text, hkind⟩

theorem analyze_nil : analyze [] = (.ok [], {}) := by
  have hleft : ∀ c : Cursor (Input.ofTokens []), c.atEnd = true := by
    intro c
    have := c.read_le
    simp [Cursor.atEnd, Cursor.left, Input.ofTokens]
  rw [analyze, Grammar.statements]
  generalize (Cursor.start (Input.ofTokens [])).skipNewlines = start
  obtain ⟨c, h⟩ := start
  simp only [hleft c, if_true]
  rfl

/-- **Programs are rejected for a reason**, whatever their tokens.  The line to blame is that of a
token.  A variable that is said to be undefined is in the text and not bound in the scope that was
being read, a subroutine that is said to be undefined has not been declared, and where types are
said not to match there is a string in the text. -/
theorem rejection_justified {tokens : List Token} {e : SourceError} {s : Session}
    (h : analyze tokens = (.error e, s)) : e.Justified tokens s := by
  have hne : tokens ≠ [] := by
    rintro rfl
    rw [analyze_nil] at h
    cases h
  refine SourceError.Justified.ofTokens hne ?_
  have hsound : True → Session.Sound (Input.ofTokens tokens).all .top {} :=
    fun _ => Session.sound_start _
  have hread := Grammar.statements_takes hsound (.start (.ofTokens tokens)) {} rfl
  have hout : outcome (Grammar.statements (.start (.ofTokens tokens))) {} = (.error e, s) := h
  rw [hout] at hread
  exact hread trivial

/-- Results whose errors can be compared are failures if their errors say so. -/
theorem eq_error_of_match {ε α : Type} {r : Except ε α} {e : ε} (h : (match r with
    | .error e => some e
    | .ok _ => none) = some e) : r = .error e := by
  cases r with
  | ok a => cases h
  | error e' => rw [Option.some.inj h]

/-- A subroutine that uses a variable of the top level. -/
def outOfScope : String :=
  "x = 1\nINT SUBROUTINE f(INT n)\nOUTPUT n + x\nENDSUBROUTINE\n"

theorem outOfScope_justified :
    ∃ s, analyze (scan outOfScope).tokens = (.error (.undefinedVariable "x" 3), s) ∧
    s.scope = .subroutine "f" ∧ s.env.contains ⟨"x", .top⟩ = true ∧
      (SourceError.undefinedVariable "x" 3).Justified (scan outOfScope).tokens s := by
  have herror : (match (analyze (scan outOfScope).tokens).1 with
      | .error e => some e
      | .ok _ => none) = some (.undefinedVariable "x" 3) := by decide +kernel
  have hleft : (analyze (scan outOfScope).tokens).2.scope = .subroutine "f" ∧
      (analyze (scan outOfScope).tokens).2.env.contains ⟨"x", .top⟩ = true := by decide +kernel
  rcases h : analyze (scan outOfScope).tokens with ⟨r, s⟩
  rw [h] at herror hleft
  cases r with
  | ok p => cases herror
  | error e =>
    obtain rfl := Option.some.inj herror
    exact ⟨s, rfl, hleft.1, hleft.2, rejection_justified h⟩

end Pseudocode
