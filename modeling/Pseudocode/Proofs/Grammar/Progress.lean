import Mathlib.Data.List.TakeWhile
import Pseudocode.Proofs.Grammar.Reading

/-!
Reading goes forward and stays among the tokens.

A cursor carries the bound that keeps it in its input, and every function of the grammar gives a
cursor further on than the one it is given.  Here is what that comes to for the tokens that reading
begins with, which may have no end of the input among them, or one in the middle.  With an end
behind them (`withEnd`), every place is a place in that list, and no end is passed
(`getElem?_withEnd`, `kind_before`).

The statements of a program are read up to such an end.  The cursor that is reached is not among
what `Grammar.statements` gives, so `Grammar.readAll` gives it as well, and otherwise does the same
(`statements_eq`).
-/

namespace Pseudocode

/-! ### Places in the list of tokens -/

/-- The tokens, with an end of the input behind them if they have none there. -/
def withEnd (tokens : List Token) : List Token :=
  if tokens.getLast?.map Token.kind = some .eof then tokens
  else tokens ++ [⟨(tokens.getLast?.map Token.toPosition).getD .start, .eof, ""⟩]

/-- What reading sees is the beginning of the list. -/
theorem withEnd_eq (tokens : List Token) :
    ∃ rest, withEnd tokens = (Input.ofTokens tokens).tokens.toList ++
    (Input.ofTokens tokens).stop :: rest := by
  unfold withEnd Input.ofTokens
  cases hfind : tokens.find? fun t => t.kind == .eof with
  | some stop =>
    obtain ⟨hstop, before, after, rfl, hbefore⟩ := List.find?_eq_some_iff_append.1 hfind
    have hall : before.takeWhile (fun t => t.kind != .eof) = before :=
      List.takeWhile_eq_self_iff.2 fun t ht => by simpa [bne] using hbefore t ht
    have hsplit : ((before ++ stop :: after).takeWhile fun t => t.kind != .eof) = before := by
      rw [List.takeWhile_append, hall, if_pos rfl,
        List.takeWhile_cons_of_neg (by simpa [bne] using hstop), List.append_nil]
    simp only [hsplit, Option.getD_some]
    split
    · exact ⟨after, rfl⟩
    · exact ⟨_, List.append_assoc _ _ _⟩
  | none =>
    have hnone : ∀ t ∈ tokens, (t.kind != .eof) = true := fun t ht => by
      simpa [bne] using List.find?_eq_none.1 hfind t ht
    have hall : tokens.takeWhile (fun t => t.kind != .eof) = tokens :=
      List.takeWhile_eq_self_iff.2 hnone
    have hlast : tokens.getLast?.map Token.kind ≠ some .eof := by
      intro hkind
      obtain ⟨t, ht, heof⟩ := Option.map_eq_some_iff.1 hkind
      simpa [heof] using hnone t (List.mem_of_getLast? ht)
    rw [if_neg hlast]
    simp only [hall]
    exact ⟨[], rfl⟩

/-- **A cursor is at a token of the list.** -/
theorem getElem?_withEnd {tokens : List Token} (c : Cursor (.ofTokens tokens)) :
    (withEnd tokens)[c.read]? = some c.peek := by
  obtain ⟨rest, heq⟩ := withEnd_eq tokens
  rw [heq]
  rcases Nat.lt_or_eq_of_le c.read_le with hlt | hend
  · rw [List.getElem?_append_left (by simpa using hlt)]
    simp [Cursor.peek, hlt]
  · have hlength : c.read = (Input.ofTokens tokens).tokens.toList.length := by simpa using hend
    rw [List.getElem?_append_right (Nat.le_of_eq hlength.symm), hlength, Nat.sub_self]
    simp [Cursor.peek, hend]

/-- **No end of the input is passed.** -/
theorem kind_before {tokens : List Token} (c : Cursor (.ofTokens tokens)) {i : Nat}
    (hi : i < c.read) {t : Token} (ht : (withEnd tokens)[i]? = some t) : t.kind ≠ .eof := by
  obtain ⟨rest, heq⟩ := withEnd_eq tokens
  have hlt : i < (Input.ofTokens tokens).tokens.toList.length := by
    have := c.read_le
    simp only [Array.length_toList]
    omega
  rw [heq, List.getElem?_append_left hlt] at ht
  have hmem : t ∈ tokens.takeWhile fun t => t.kind != .eof := by
    simpa [Input.ofTokens] using List.mem_of_getElem? ht
  simpa using List.mem_takeWhile_imp hmem

namespace Cursor

variable {input : Input} {c d : Cursor input}

theorem read_lt (h : d.left < c.left) : c.read < d.read := by
  unfold left at h
  omega

theorem read_le_of_left (h : d.left ≤ c.left) : c.read ≤ d.read := by
  have := d.read_le
  unfold left at h
  have := c.read_le
  omega

end Cursor

/-! ### Reading to the end -/

namespace Grammar

open Analysis

variable {input : Input}

section

variable {c c₁ c₂ c₃ c₄ : Cursor input} (hlines : c₁.left ≤ c.left) (hstatement : c₂.left < c₁.left)

include hlines hstatement

theorem left_le_behind : c₂.left ≤ c.left := by omega

theorem left_lt_line (hbreak : c₃.left < c₂.left) : c₃.left < c.left := by omega

theorem left_le_rest (hbreak : c₃.left < c₂.left) (hrest : c₄.left ≤ c₃.left) :
    c₄.left ≤ c.left := by omega

end

/-- The statements of a whole program, and the place where they end. -/
def readAll (c : Cursor input) : Analysis (List Stmt × c.From) := do
  let ⟨c₁, h₁⟩ := c.skipNewlines
  if c₁.atEnd then return ([], ⟨c₁, h₁⟩)
  let (s, ⟨c₂, h₂⟩) ← statement .top c₁
  if c₂.atEnd then return ([s], ⟨c₂, left_le_behind h₁ h₂⟩)
  let next ← expect c₂ .newline "line break after statement"
  let (rest, stop) ← readAll next.val
  return (s :: rest, ⟨stop.val, left_le_rest h₁ h₂ next.property stop.property⟩)
termination_by c.left
decreasing_by exact left_lt_line h₁ h₂ next.property

theorem statements_eq (c : Cursor input) : statements c = Prod.fst <$> readAll c := by
  rw [statements, readAll]
  obtain ⟨c₁, h₁⟩ := c.skipNewlines
  dsimp only
  split
  · rfl
  · rw [map_bind]
    refine bind_congr fun ⟨s, c₂, h₂⟩ => ?_
    dsimp only
    split
    · rfl
    · rw [map_bind]
      refine bind_congr fun ⟨c₃, h₃⟩ => ?_
      dsimp only
      rw [statements_eq c₃, map_bind]
      simp
termination_by c.left

theorem atEnd_of_readAll {c : Cursor input} {r : List Stmt × c.From} {s s' : Session}
    (h : Runs (readAll c) s r s') : r.2.val.atEnd = true := by
  rw [readAll] at h
  generalize c.skipNewlines = first at h
  obtain ⟨c₁, h₁⟩ := first
  dsimp only at h
  split at h
  next hend =>
    obtain ⟨rfl, rfl⟩ := runs_pure.1 h
    exact hend
  next =>
    obtain ⟨⟨st, c₂, h₂⟩, s₂, -, h⟩ := runs_bind.1 h
    dsimp only at h
    split at h
    next hend =>
      obtain ⟨rfl, rfl⟩ := runs_pure.1 h
      exact hend
    next =>
      obtain ⟨⟨c₃, h₃⟩, s₃, -, h⟩ := runs_bind.1 h
      obtain ⟨⟨rest, c₄, h₄⟩, s₄, hrest, h⟩ := runs_bind.1 h
      obtain ⟨rfl, rfl⟩ := runs_pure.1 h
      have hend := atEnd_of_readAll hrest
      exact hend
termination_by c.left

/-! ### Going forward -/

/-- Functions that read something, and give the place behind it. -/
abbrev Reader (input : Input) (α : Type) := (c : Cursor input) → Analysis (α × c.After)

/-- Functions that may find nothing to read. -/
abbrev LaxReader (input : Input) (α : Type) := (c : Cursor input) → Analysis (α × c.From)

/-- Whatever is read, the place behind it is further on. -/
def Advances {α : Type} (reader : Reader input α) : Prop :=
  ∀ c s r s', Runs (reader c) s r s' → c.read < r.2.val.read

/-- Whatever is read, the place behind it is not further back. -/
def NeverBack {α : Type} (reader : LaxReader input α) : Prop :=
  ∀ c s r s', Runs (reader c) s r s' → c.read ≤ r.2.val.read

/-- All functions of the grammar go forward. -/
structure Forward (input : Input) : Prop where
  skipNewlines (c : Cursor input) : c.read ≤ c.skipNewlines.val.read
  expect (kind : Kind) (what : String) :
    Advances fun c : Cursor input => Prod.mk () <$> expect c kind what
  expectName (what : String) : Advances fun c : Cursor input => expectName c what
  expectType : Advances (expectType : Reader input Ty)
  expressions (scope : Scope) :
    ∀ reader ∈ ([expression scope, sum scope, product scope, signed scope,
    atom scope, condition scope] : List (Reader input Expr)), Advances reader
  index (scope : Scope) (line : Nat) : Advances (index scope line : Reader input Expr)
  operations (scope : Scope) (lhs : Expr) :
    ∀ reader ∈ ([sumRest scope lhs, productRest scope lhs] : List (LaxReader input Expr)),
    NeverBack reader
  arguments (scope : Scope) :
    ∀ reader ∈ ([arguments scope, moreArguments scope] : List (Reader input (List Expr))),
    Advances reader
  statements (scope : Scope) :
    ∀ reader ∈ ([statement scope, arrayDeclaration scope, returnStatement scope,
    outputStatement scope, inputStatement scope, expressionStatement scope, declaration scope,
    whileStatement scope, forStatement scope] : List (Reader input Stmt)), Advances reader
  assignment (scope : Scope) : Advances (assignment scope : Reader input Assignment)
  conditional (scope : Scope) :
    Advances (conditional scope : Reader input (Expr × List Stmt × ElsePart))
  block (scope : Scope) (closers : List Keyword) (closer : Keyword) :
    NeverBack (block scope closers closer : LaxReader input (List Stmt))
  params : NeverBack (params : LaxReader input (List Param))
  moreParams (seen : List Param) : Advances (moreParams seen : Reader input (List Param))
  subroutineHead (scope : Scope) :
    Advances (subroutineHead scope : Reader input (Ty × String × List Param))
  forHead (scope : Scope) : Advances (forHead scope : Reader input (Assignment × Expr))
  forTail (counter : String) : Advances fun c : Cursor input => Prod.mk () <$> forTail counter c
  readAll : NeverBack (readAll : LaxReader input (List Stmt))

theorem advances {α : Type} (reader : Reader input α) : Advances reader :=
  fun _ _ r _ _ => Cursor.read_lt r.2.property

theorem neverBack {α : Type} (reader : LaxReader input α) : NeverBack reader :=
  fun _ _ r _ _ => Cursor.read_le_of_left r.2.property

theorem forward (input : Input) : Forward input where
  skipNewlines c := Cursor.read_le_of_left c.skipNewlines.property
  expect _ _ := advances _
  expectName _ := advances _
  expectType := advances _
  expressions _ reader _ := advances reader
  index _ _ := advances _
  operations _ _ reader _ := neverBack reader
  arguments _ reader _ := advances reader
  statements _ reader _ := advances reader
  assignment _ := advances _
  conditional _ := advances _
  block _ _ _ := neverBack _
  params := neverBack _
  moreParams _ := advances _
  subroutineHead _ := advances _
  forHead _ := advances _
  forTail _ := advances _
  readAll := neverBack _

end Grammar

/-- **Reading ends, and stays among the tokens**, whatever they are.  A place is one in the list of
tokens, with an end behind it, and it is at or before the first end.  All functions of the grammar
go forward: an expression and a statement that are read take the place further on, and nothing takes
it back.  A program that is read is read up to an end, and what is not read is rejected. -/
theorem reading_inside (tokens : List Token) :
    (∀ c : Cursor (.ofTokens tokens), (withEnd tokens)[c.read]? = some c.peek ∧
        ∀ i < c.read, ∀ t, (withEnd tokens)[i]? = some t → t.kind ≠ .eof) ∧
      Grammar.Forward (.ofTokens tokens) ∧
      ((∃ p d s, Runs (Grammar.readAll (.start (.ofTokens tokens))) {} (p, d) s ∧
        d.val.peek.kind = .eof ∧
          analyze tokens = (.ok p, s)) ∨
        ∃ e s, Fails (Grammar.readAll (.start (.ofTokens tokens))) {} e ∧
        analyze tokens = (.error e, s)) := by
  refine ⟨fun c => ⟨getElem?_withEnd c, fun i hi t => kind_before c hi⟩, Grammar.forward _, ?_⟩
  have hanalyze :
    analyze tokens = outcome (Prod.fst <$> Grammar.readAll (.start (.ofTokens tokens))) {} := by
    rw [← Grammar.statements_eq]
    rfl
  rw [map_eq_pure_bind, outcome_bind] at hanalyze
  rcases hout : outcome (Grammar.readAll (.start (.ofTokens tokens))) {} with ⟨r, s⟩
  rw [hout] at hanalyze
  cases r with
  | error e => exact .inr ⟨e, s, congrArg Prod.fst hout, hanalyze⟩
  | ok r =>
    refine .inl ⟨r.1, r.2, s, hout, ?_, hanalyze⟩
    rw [Cursor.kind_peek, Cursor.atEnd_iff.1 (Grammar.atEnd_of_readAll hout)]
    exact Input.kind_stop tokens

end Pseudocode
