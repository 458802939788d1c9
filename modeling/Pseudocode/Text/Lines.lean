import Pseudocode.Text.Blank

/-!
Lines of a text.

A line ends at a line feed, and a carriage return just before that line feed belongs to the line end
and not to the line.  A carriage return anywhere else is an ordinary character, also as the last one
of a text that ends without a line feed.  A text that ends in a line feed has no empty line after
it.

`dedent` is the layout that a source file is brought into before it is read: blank lines are
dropped, and so is the white space that the other lines start with.
-/

namespace Pseudocode.Text

/-- The lines of a text, without their line ends. -/
def linesOf : List Char → List (List Char)
  | [] => []
  | '\n' :: cs => [] :: linesOf cs
  | '\r' :: '\n' :: cs => [] :: linesOf cs
  | c :: cs =>
    match linesOf cs with
    | [] => [[c]]
    | line :: lines => (c :: line) :: lines

/-- The lines of a text, without their line ends. -/
def lines (text : String) : List String :=
  (linesOf text.toList).map String.ofList

/-- A line without the white space it starts with. -/
def trimStart (line : List Char) : List Char :=
  line.dropWhile isBlank

/-- The text with its blank lines dropped and the indentation of the other lines removed. -/
def dedent (text : String) : String :=
  let kept := (linesOf text.toList).filter fun line => !line.all isBlank
  "\n".intercalate (kept.map fun line => String.ofList (trimStart line))

/-- The text of a line with a caret under the given column, which counts from one. -/
def underline (line : String) (column : Nat) : String :=
  line ++ "\n" ++ String.ofList (List.replicate (column - 1) ' ') ++ "^"

end Pseudocode.Text
