import Pseudocode.Expr
import Pseudocode.Token

/-!
Why a program is rejected.

There are four ways: its tokens do not follow the grammar, it uses a variable or a subroutine that
it does not define, or it uses a value as a type that the value does not have.  The first names a
line and a column, the others a line.  What exactly is wrong is kept as data, and `message` puts it
into words.
-/

namespace Pseudocode

/-- How the tokens of a program depart from the grammar. -/
inductive SyntaxFault where
  /-- Something was expected, and this token was found. -/
  | expected (what : String) (found : Token)
  /-- `FOR` is not followed by an assignment to a variable. -/
  | noLoopAssignment
  /-- The input ends before this keyword. -/
  | unclosed (closer : Keyword)
  /-- `NEXT` names another variable than the one its loop counts. -/
  | nextMismatch (named counter : String)
  /-- A subroutine is declared in the body of another. -/
  | nestedSubroutine (outer : String)
  /-- Two parameters of a subroutine have the same name. -/
  | duplicateParam (name : String)
  /-- A value is returned outside of a subroutine. -/
  | returnOutside
  /-- A whole numeral is no 32-bit integer. -/
  | wideLiteral (lexeme : String)
  /-- Anything else, in the words of whoever rejects the program. -/
  | other (words : String)
  deriving DecidableEq, Repr, Inhabited

namespace SyntaxFault

/-- The fault in words. -/
def message : SyntaxFault → String
  | expected what found => s!"expected {what}, found {found.describe}"
  | noLoopAssignment => "expected loop variable assignment after FOR"
  | unclosed closer => s!"expected {closer.spelling} before end of input"
  | nextMismatch named counter => s!"NEXT names '{named}' but the loop variable is '{counter}'"
  | nestedSubroutine outer => s!"subroutines cannot be declared inside '{outer}'"
  | duplicateParam name => s!"duplicate parameter '{name}'"
  | returnOutside => "RETURN is only allowed inside a SUBROUTINE"
  | wideLiteral lexeme => s!"integer literal {lexeme} does not fit in 32 bits"
  | other words => words

end SyntaxFault

/-- How a value is used as a type that it does not have. -/
inductive TypeFault where
  /-- A string is compared. -/
  | comparedString (op : BinaryOp)
  /-- Two strings are combined by an operator other than `+`. -/
  | combinedStrings (op : BinaryOp)
  /-- The operator has no meaning for operands of these types. -/
  | noCommonType (op : BinaryOp) (lhs rhs : Ty)
  /-- A string has its sign changed. -/
  | negatedString
  /-- A string stands where a number is needed. -/
  | stringAs (position : String)
  /-- A loop counts a variable that is no number. -/
  | loopVariable (name : String)
  /-- A string is stored in an array. -/
  | stringInArray (name : String)
  /-- Anything else, in the words of whoever rejects the program. -/
  | other (words : String)
  deriving DecidableEq, Repr, Inhabited

namespace TypeFault

/-- The fault in words. -/
def message : TypeFault → String
  | comparedString op => s!"strings cannot be compared with '{op.symbol}'"
  | combinedStrings op => s!"operator '{op.symbol}' is not defined for strings"
  | noCommonType op lhs rhs =>
    s!"operator '{op.symbol}' cannot combine '{lhs.name}' and '{rhs.name}'"
  | negatedString => "a string cannot be negated"
  | stringAs position => s!"a string cannot be used as {position}"
  | loopVariable name => s!"loop variable '{name}' must be numeric"
  | stringInArray name => s!"cannot store a string in array '{name}'"
  | other words => words

end TypeFault

/-- Why a program is rejected, and where. -/
inductive SourceError where
  | grammar (position : Position) (fault : SyntaxFault)
  | undefinedVariable (name : String) (line : Nat)
  | undefinedSubroutine (name : String) (line : Nat)
  | typeMismatch (line : Nat) (fault : TypeFault)
  deriving DecidableEq, Repr, Inhabited

namespace SourceError

/-- The line to blame. -/
def line : SourceError → Nat
  | grammar p _ => p.line
  | undefinedVariable _ line => line
  | undefinedSubroutine _ line => line
  | typeMismatch line _ => line

/-- The column to blame, where it is known. -/
def column? : SourceError → Option Nat
  | grammar p _ => some p.column
  | _ => none

/-- The error in words. -/
def message : SourceError → String
  | grammar p fault => s!"syntax error at line {p.line}, column {p.column}: {fault.message}"
  | undefinedVariable name line => s!"undefined variable '{name}' at line {line}"
  | undefinedSubroutine name line => s!"undefined function '{name}' at line {line}"
  | typeMismatch line fault => s!"type mismatch at line {line}: {fault.message}"

end SourceError

end Pseudocode
