import Pseudocode.Token

/-!
From text to tokens.

The text is cut into segments, from the front: each segment is the longest token that starts there,
or one character of white space between tokens, or one character that no token starts with.  The
last are reported and skipped, so scanning never fails.  Segments hold all of the text
(`text_segments`), and every one of them has at least one character, which is why the cutting ends.

A quotation mark starts a string only if another one follows on the same line; otherwise it is a
character that no token starts with, and what follows it is scanned on its own.
-/

namespace Pseudocode

/-- A character that no token starts with, and where it stands. -/
structure IllegalChar extends Position where
  char : Char
  deriving DecidableEq, Repr, Inhabited

namespace IllegalChar

/-- What is wrong with the character. -/
def complaint (i : IllegalChar) : String :=
  "illegal character '" ++ String.singleton i.char ++ "'"

/-- The complaint together with its place. -/
def message (i : IllegalChar) : String :=
  s!"lex warning at line {i.line}, column {i.column}: {i.complaint}"

end IllegalChar

namespace Scan

/-! ### The longest token at the front

Each function below is given the first character `c` of what is left and the characters `cs` after
it, and answers with a kind and with how many characters of `cs` the token takes.
-/

/-- White space inside a line, which separates tokens. -/
def isGap (c : Char) : Bool :=
  c == ' ' || c == '\t' || c == '\r'

/-- May a word start with this character? -/
def startsWord (c : Char) : Bool :=
  c == '_' || c.isAlpha

/-- May a word go on with this character? -/
def continuesWord (c : Char) : Bool :=
  c == '_' || c.isAlphanum

/-- Does a string go on with this character? -/
def continuesString (c : Char) : Bool :=
  c != '"' && c != '\n'

/-- The longest mark at the front. -/
def mark? (c : Char) (cs : List Char) : Option (Mark × Nat) :=
  match c, cs with
  | '(', _ => some (.leftParen, 0)
  | ')', _ => some (.rightParen, 0)
  | '[', _ => some (.leftBracket, 0)
  | ']', _ => some (.rightBracket, 0)
  | ',', _ => some (.comma, 0)
  | '+', _ => some (.plus, 0)
  | '-', _ => some (.minus, 0)
  | '*', _ => some (.star, 0)
  | '/', _ => some (.slash, 0)
  | '%', _ => some (.percent, 0)
  | '=', '=' :: _ => some (.equal, 1)
  | '=', _ => some (.assign, 0)
  | '<', '=' :: _ => some (.lessEqual, 1)
  | '<', '>' :: _ => some (.notEqual, 1)
  | '<', _ => some (.less, 0)
  | '>', '=' :: _ => some (.greaterEqual, 1)
  | '>', _ => some (.greater, 0)
  | _, _ => none

/-- The string whose opening quotation mark has been read, if its closing one is on the same
line. -/
def string? (cs : List Char) : Option (Kind × Nat) :=
  let body := cs.takeWhile continuesString
  match cs.drop body.length with
  | '"' :: _ => some (.string (String.ofList body), body.length + 1)
  | _ => none

/-- The numeral whose first digit has been read.  A point makes it a binary64 number, also with no
digit after the point. -/
def numeral (c : Char) (cs : List Char) : Kind × Nat :=
  let before := cs.takeWhile Char.isDigit
  match cs.drop before.length with
  | '.' :: rest =>
    let after := rest.takeWhile Char.isDigit
    (.double (Digits.pointed (c :: before) after), before.length + 1 + after.length)
  | _ => (.int (Digits.whole (c :: before)), before.length)

/-- The word whose first character has been read. -/
def word (c : Char) (cs : List Char) : Kind × Nat :=
  let rest := cs.takeWhile continuesWord
  (.ofWord (String.ofList (c :: rest)), rest.length)

/-- The longest token at the front: its kind, and how many characters it takes after the first. -/
def munch (c : Char) (cs : List Char) : Option (Kind × Nat) :=
  match mark? c cs with
  | some (m, n) => some (.mark m, n)
  | none =>
    if c = '\n' then some (.newline, (cs.takeWhile (· == '\n')).length)
    else if c = '"' then string? cs
    else if c.isDigit then some (numeral c cs)
    else if startsWord c then some (word c cs)
    else none

/-! ### Segments -/

/-- A piece of the text. -/
inductive Segment where
  /-- A token. -/
  | token (t : Token)
  /-- White space between tokens. -/
  | gap (c : Char)
  /-- A character that no token starts with. -/
  | illegal (i : IllegalChar)
  deriving DecidableEq, Repr

namespace Segment

/-- The characters of a piece. -/
def text : Segment → List Char
  | token t => t.lexeme.toList
  | gap c => [c]
  | illegal i => [i.char]

/-- The token that a piece holds, if it holds one. -/
def token? : Segment → Option Token
  | token t => some t
  | _ => none

/-- The character that a piece reports, if it reports one. -/
def illegal? : Segment → Option IllegalChar
  | illegal i => some i
  | _ => none

end Segment

/-- The segments of a text that begins at the given position. -/
def segments (p : Position) : List Char → List Segment
  | [] => []
  | c :: cs =>
    if isGap c then .gap c :: segments (p.after c) cs
    else
      match munch c cs with
      | some (kind, n) =>
        let lexeme := c :: cs.take n
        .token ⟨p, kind, String.ofList lexeme⟩ :: segments (p.afterAll lexeme) (cs.drop n)
      | none => .illegal ⟨p, c⟩ :: segments (p.after c) cs
termination_by cs => cs.length
decreasing_by all_goals simp only [List.length_cons, List.length_drop]; omega

/-- No character is lost: the segments of a text, put together, are the text. -/
theorem text_segments (p : Position) (cs : List Char) :
    (segments p cs).flatMap Segment.text = cs := by
  fun_induction segments p cs with
  | case1 => rfl
  | case2 p c cs _ ih => simp [Segment.text, ih]
  | case3 p c cs _ kind n _ lexeme ih => simp [Segment.text, ih, lexeme]
  | case4 p c cs _ _ ih => simp [Segment.text, ih]

end Scan

/-- What scanning a text gives: its tokens, the last of which is the end of the input, and the
characters that no token starts with. -/
structure Scan where
  tokens : List Token
  illegal : List IllegalChar
  deriving DecidableEq, Repr

/-- Scans a text. -/
def scan (text : String) : Scan :=
  let cs := text.toList
  let segments := Scan.segments .start cs
  { tokens := segments.filterMap Scan.Segment.token? ++ [⟨Position.start.afterAll cs, .eof, ""⟩]
    illegal := segments.filterMap Scan.Segment.illegal? }

end Pseudocode
