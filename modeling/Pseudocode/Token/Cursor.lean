import Pseudocode.Token

/-!
A place in a sequence of tokens.

An input is what reading sees of a sequence of tokens: those before the first end of the input, and
that end.  Whatever follows the end is never looked at, and a sequence without an end ends at its
last token.

A cursor is a place in one input, given by how many of its tokens have been read; the bound it
carries says that it never leaves the input.  `After` and `From` are the cursors further on,
strictly or not. Functions that read tokens return them, and that is what makes recursion on the
tokens end.  Since the input is the same for all of them, a cursor further on has less of the same
tokens left (`rest_isSuffix`).
-/

namespace Pseudocode

/-- The tokens that can be read, and the token that stands for the end of them. -/
structure Input where
  tokens : Array Token
  stop : Token
  deriving DecidableEq, Repr, Inhabited

namespace Input

/-- What reading sees of a sequence of tokens. -/
def ofTokens (tokens : List Token) : Input :=
  let last := (tokens.getLast?.map Token.toPosition).getD .start
  { tokens := (tokens.takeWhile fun t => t.kind != .eof).toArray
    stop := (tokens.find? fun t => t.kind == .eof).getD ⟨last, .eof, ""⟩ }

end Input

/-- A place in an input: how many of its tokens have been read. -/
structure Cursor (input : Input) where
  read : Nat
  read_le : read ≤ input.tokens.size
  deriving DecidableEq, Repr

namespace Cursor

variable {input : Input}

/-- The place before all tokens. -/
def start (input : Input) : Cursor input :=
  ⟨0, Nat.zero_le _⟩

/-- How many tokens are still to be read. -/
def left (c : Cursor input) : Nat :=
  input.tokens.size - c.read

/-- The tokens that are still to be read. -/
def rest (c : Cursor input) : List Token :=
  input.tokens.toList.drop c.read

/-- Has everything been read? -/
def atEnd (c : Cursor input) : Bool :=
  c.left == 0

/-- The token at the cursor, which is the end of the input once everything has been read. -/
def peek (c : Cursor input) : Token :=
  input.tokens.getD c.read input.stop

/-- The cursors that have read more than this one. -/
abbrev After (c : Cursor input) := { d : Cursor input // d.left < c.left }

/-- The cursors that have read at least as much as this one. -/
abbrev From (c : Cursor input) := { d : Cursor input // d.left ≤ c.left }

/-- Reading on twice is reading on. -/
theorem lt_trans {c c₁ c₂ : Cursor input} (h₁ : c₁.left < c.left) (h₂ : c₂.left < c₁.left) :
    c₂.left < c.left :=
  Nat.lt_trans h₂ h₁

theorem left_le (c : Cursor input) : c.left ≤ c.left :=
  Nat.le_refl _

/-- Steps over the token at the cursor, if it passes the test, and gives what the test found. -/
def step? (c : Cursor input) (test : Token → Option α) : Option (α × c.After) :=
  if h : c.read < input.tokens.size then
    (test input.tokens[c.read]).map fun a => (a, ⟨⟨c.read + 1, h⟩, by simp only [left]; omega⟩)
  else none

/-- Steps over the token at the cursor, if it is of the given kind. -/
def skip? (c : Cursor input) (kind : Kind) : Option c.After :=
  (c.step? fun t => if t.kind = kind then some () else none).map Prod.snd

/-- Steps over all the line breaks at the cursor. -/
def skipNewlines (c : Cursor input) : c.From :=
  match c.skip? .newline with
  | some ⟨c₁, h₁⟩ =>
    let ⟨c₂, h₂⟩ := c₁.skipNewlines
    ⟨c₂, by omega⟩
  | none => ⟨c, c.left_le⟩
termination_by c.left

/-- Is there a name at the cursor? -/
def atName (c : Cursor input) : Bool :=
  match c.peek.kind with
  | .name _ => true
  | _ => false

/-- The kind of the token after the one at the cursor. -/
def secondKind? (c : Cursor input) : Option Kind :=
  input.tokens[c.read + 1]?.map Token.kind

/-- Inside so many open brackets, does the last of them close on the same line, with an assignment
sign after it? -/
def closesBeforeAssign (depth : Nat) (c : Cursor input) : Bool :=
  match c.step? fun t => some t.kind with
  | none => false
  | some (kind, ⟨d, _⟩) =>
    match kind with
    | .newline => false
    | .mark .leftBracket => d.closesBeforeAssign (depth + 1)
    | .mark .rightBracket =>
      if depth = 1 then d.peek.kind == .mark .assign else d.closesBeforeAssign (depth - 1)
    | _ => d.closesBeforeAssign depth
termination_by c.left

/-- Given a name at the cursor, is it assigned to?  Either an assignment sign follows, or an index
in brackets and then the sign. -/
def atAssignment (c : Cursor input) : Bool :=
  match c.step? some with
  | none => false
  | some (_, ⟨d, _⟩) =>
    match d.peek.kind with
    | .mark .assign => true
    | .mark .leftBracket => d.closesBeforeAssign 0
    | _ => false

/-! ### What is left -/

theorem length_rest (c : Cursor input) : c.rest.length = c.left := by
  simp [rest, left]

/-- A step reads the first of the tokens that are left. -/
theorem rest_eq_cons {c : Cursor input} {test : Token → Option α} {a : α} {d : c.After}
    (h : c.step? test = some (a, d)) : c.rest = c.peek :: d.val.rest ∧ test c.peek = some a := by
  unfold step? at h
  split at h
  next hlt =>
    obtain ⟨b, hb, heq⟩ := Option.map_eq_some_iff.1 h
    obtain ⟨rfl, rfl⟩ := Prod.mk.inj heq
    have hpeek : c.peek = input.tokens[c.read] := by simp [peek, hlt]
    refine ⟨?_, by rw [hpeek]; exact hb⟩
    rw [hpeek]
    exact List.drop_eq_getElem_cons (by simpa using hlt)
  next => cases h

/-- A cursor further on has less of the same tokens left. -/
theorem rest_isSuffix {c d : Cursor input} (h : d.left ≤ c.left) : d.rest <:+ c.rest := by
  have hle : c.read ≤ d.read := by
    have := c.read_le
    have := d.read_le
    simp only [left] at h
    omega
  obtain ⟨k, hk⟩ := Nat.exists_eq_add_of_le hle
  have hrest : d.rest = c.rest.drop k := by simp [rest, hk]
  rw [hrest]
  exact List.drop_suffix k c.rest

end Cursor

end Pseudocode
