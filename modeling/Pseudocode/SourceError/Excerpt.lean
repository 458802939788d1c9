import Pseudocode.SourceError
import Pseudocode.Text.Lines

/-!
Errors shown with the line they blame.

The first line says what is wrong and the second where: the label of the source, the line, and the
column where it is known.  The blamed line follows, if the source has it, with a caret under the
blamed column.
-/

namespace Pseudocode.SourceError

/-- The error with the line of the source that it blames. -/
def excerpt (label source : String) (e : SourceError) : String :=
  let column := match e.column? with
    | some column => s!":{column}"
    | none => ""
  let head := s!"error: {e.message}\n--> {label}:{e.line}{column}"
  match (Text.lines source)[e.line - 1]? with
  | none => head
  | some line =>
    match e.column? with
    | some column => head ++ "\n" ++ Text.underline line column
    | none => head ++ "\n" ++ line

end Pseudocode.SourceError
