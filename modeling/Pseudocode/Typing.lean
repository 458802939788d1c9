import Pseudocode.SourceError
import Pseudocode.Typing.Environment

/-!
Building expressions whose shapes agree.

Each function builds one node from operands that are already built, gives it its shape, or says why
it has none.  A name that is not bound gets the unknown shape and no complaint yet: the complaint
comes from `requireResolved`, where the value is needed, and names the leftmost unbound name below
that place.
-/

namespace Pseudocode

namespace Expr

/-- The name to blame for an expression of undetermined type. -/
def unresolvedName : Expr → String
  | constant .. => "<constant>"
  | var name _ => name
  | element name _ _ => name
  | binary _ lhs rhs _ => if lhs.ty.isResolved then rhs.unresolvedName else lhs.unresolvedName
  | negate operand _ => operand.unresolvedName
  | call name _ _ => name

/-- Accepts an expression whose type is known. -/
def requireResolved (e : Expr) (line : Nat) : Except SourceError Unit :=
  if e.ty.isResolved then .ok () else .error (.undefinedVariable e.unresolvedName line)

/-- Accepts an expression whose value is a number. -/
def requireNumeric (e : Expr) (position : String) (line : Nat) : Except SourceError Unit := do
  e.requireResolved line
  if e.ty = .string then throw (.typeMismatch line (.stringAs position))

/-- The constant that a 32-bit integer denotes. -/
def ofInt (value : Int32) : Expr :=
  constant (.int value) ⟨.int, 0⟩

/-- The constant that a binary64 number denotes. -/
def ofDouble (value : Double) : Expr :=
  constant (.double value) ⟨.double, 0⟩

/-- The constant that a string denotes, which takes a byte more than its text. -/
def ofString (text : String) : Expr :=
  constant (.string text) ⟨.string, text.utf8ByteSize + 1⟩

/-- Two operands combined.  Numbers are promoted to a common type; strings can be put together by
`+` and by nothing else, and cannot be compared. -/
def combine (op : BinaryOp) (lhs rhs : Expr) (line : Nat) : Except SourceError Expr := do
  lhs.requireResolved line
  rhs.requireResolved line
  if op.isComparison && (lhs.ty = .string || rhs.ty = .string) then
    throw (.typeMismatch line (.comparedString op))
  if lhs.ty = .string && rhs.ty = .string then
    if op = .add then
      return binary op lhs rhs ⟨.string, Shape.concatLength lhs.length rhs.length⟩
    throw (.typeMismatch line (.combinedStrings op))
  match Ty.promote? lhs.ty rhs.ty with
  | some ty => return binary op lhs rhs ⟨ty, 0⟩
  | none => throw (.typeMismatch line (.noCommonType op lhs.ty rhs.ty))

/-- An operand with its sign changed, which must be a number. -/
def negated (operand : Expr) (line : Nat) : Except SourceError Expr := do
  operand.requireResolved line
  if operand.ty = .string then throw (.typeMismatch line .negatedString)
  return negate operand operand.shape

end Expr

namespace Environment

/-- The value of a variable. -/
def readVar (env : Environment) (symbol : Symbol) : Expr :=
  .var symbol.name (env.shape symbol)

/-- The value of an element of an array.  The index must be a number. -/
def readElement (env : Environment) (symbol : Symbol) (index : Expr) (line : Nat) :
    Except SourceError Expr := do
  index.requireNumeric "an array index" line
  return .element symbol.name index ⟨(env.shape symbol).ty, 0⟩

/-- What a subroutine returns.  It must be declared, and every argument must be a number; how many
arguments there are is not looked at. -/
def call (env : Environment) (name : String) (args : List Expr) (line : Nat) :
    Except SourceError Expr :=
  match env.returnTy? name with
  | none => .error (.undefinedSubroutine name line)
  | some ty => do
    args.forM fun arg => arg.requireNumeric s!"an argument to '{name}'" line
    return .call name args ty

end Environment

end Pseudocode
