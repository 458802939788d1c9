import Pseudocode.Expr

/-!
Statements and programs.

A statement is a tree: the bodies of conditionals, loops and subroutines are lists of statements.
A conditional is a chain of arms.  `ElsePart` is what follows the body of one arm: nothing, a last
body, or the next arm; the whole chain is closed once, however many arms it has.
-/

namespace Pseudocode

/-- Where a value is stored. -/
inductive Target where
  /-- A variable. -/
  | var (name : String) (shape : Shape)
  /-- An element of an array. -/
  | element (name : String) (index : Expr) (ty : Ty)
  deriving Repr, Inhabited

namespace Target

/-- The name of the variable or of the array. -/
def name : Target → String
  | var name _ => name
  | element name _ _ => name

/-- The type of what is stored. -/
def ty : Target → Ty
  | var _ shape => shape.ty
  | element _ _ ty => ty

end Target

/-- A value and where it is stored, as what type. -/
structure Assignment where
  target : Target
  value : Expr
  ty : Ty
  deriving Repr, Inhabited

/-- A parameter of a subroutine. -/
structure Param where
  name : String
  ty : Ty
  deriving DecidableEq, Repr, Inhabited

mutual

/-- A statement. -/
inductive Stmt where
  /-- An expression whose value is not used. -/
  | expr (e : Expr)
  /-- Storing a value. -/
  | assign (a : Assignment)
  /-- Declaring an array of so many elements of a type. -/
  | array (ty : Ty) (name : String) (size : Expr)
  /-- Printing a value on a line of its own. -/
  | output (e : Expr)
  /-- Reading a value. -/
  | input (target : Target) (ty : Ty)
  /-- The first arm of a conditional and what follows it. -/
  | ifThen (condition : Expr) (body : List Stmt) (rest : ElsePart)
  /-- Running a body until a condition fails. -/
  | whileLoop (condition : Expr) (body : List Stmt)
  /-- Counting a variable up to a bound. -/
  | forLoop (init : Assignment) (bound : Expr) (body : List Stmt)
  /-- Declaring a subroutine. -/
  | subroutine (name : String) (params : List Param) (body : List Stmt) (ty : Ty)
  /-- Leaving a subroutine with a value. -/
  | ret (e : Expr)
  deriving Repr, Inhabited

/-- What follows an arm of a conditional. -/
inductive ElsePart where
  /-- Nothing. -/
  | none
  /-- A last body. -/
  | body (body : List Stmt)
  /-- The next arm and what follows it. -/
  | elseIf (condition : Expr) (body : List Stmt) (rest : ElsePart)
  deriving Repr, Inhabited

end

namespace Stmt

/-- What the log calls a statement. -/
def label : Stmt → String
  | expr _ => "expression"
  | assign _ => "assignment"
  | array .. => "array declaration"
  | output _ => "OUTPUT"
  | input .. => "INPUT"
  | ifThen .. => "IF"
  | whileLoop .. => "WHILE"
  | forLoop .. => "FOR"
  | subroutine .. => "SUBROUTINE"
  | ret _ => "RETURN"

end Stmt

/-- A program is a list of statements. -/
abbrev Program := List Stmt

end Pseudocode
