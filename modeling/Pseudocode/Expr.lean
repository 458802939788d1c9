import Pseudocode.Number.Binary64
import Pseudocode.Ty

/-!
Expressions.

Every node carries the shape of its value, so that whoever holds an expression can read off its type
and its length.  Nothing here says that the shapes agree with one another: `Typing` builds nodes
whose shapes do.
-/

namespace Pseudocode

/-- The operators that stand between two operands. -/
inductive BinaryOp where
  | add | sub | mul | div | mod | eq | ne | lt | le | gt | ge
  deriving DecidableEq, Repr, Inhabited

namespace BinaryOp

/-- Does the operator compare its operands? -/
def isComparison : BinaryOp → Bool
  | eq => true
  | ne => true
  | lt => true
  | le => true
  | gt => true
  | ge => true
  | _ => false

/-- How messages write the operator. -/
def symbol : BinaryOp → String
  | add => "+"
  | sub => "-"
  | mul => "*"
  | div => "/"
  | mod => "%"
  | eq => "=="
  | ne => "!="
  | lt => "<"
  | le => "<="
  | gt => ">"
  | ge => ">="

end BinaryOp

/-- The value of a constant. -/
inductive Literal where
  | int (value : Int32)
  | double (value : Double)
  | string (text : String)
  deriving DecidableEq, Repr, Inhabited

/-- An expression, with the shape of the value of each of its nodes. -/
inductive Expr where
  /-- A constant. -/
  | constant (value : Literal) (shape : Shape)
  /-- The value of a variable. -/
  | var (name : String) (shape : Shape)
  /-- The value of an element of an array. -/
  | element (name : String) (index : Expr) (shape : Shape)
  /-- Two operands combined. -/
  | binary (op : BinaryOp) (lhs rhs : Expr) (shape : Shape)
  /-- An operand with its sign changed. -/
  | negate (operand : Expr) (shape : Shape)
  /-- What a subroutine returns. -/
  | call (name : String) (args : List Expr) (ty : Ty)
  deriving Repr, Inhabited

namespace Expr

/-- The shape of the value of an expression.  What a subroutine returns has length zero. -/
def shape : Expr → Shape
  | constant _ s => s
  | var _ s => s
  | element _ _ s => s
  | binary _ _ _ s => s
  | negate _ s => s
  | call _ _ ty => ⟨ty, 0⟩

/-- The type of the value of an expression. -/
def ty (e : Expr) : Ty := e.shape.ty

/-- The length of the value of an expression. -/
def length (e : Expr) : Nat := e.shape.length

/-- Is the expression a comparison? -/
def isComparison : Expr → Bool
  | binary op _ _ _ => op.isComparison
  | _ => false

end Expr

end Pseudocode
