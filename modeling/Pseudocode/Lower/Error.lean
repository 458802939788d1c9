import Pseudocode.Expr
import Pseudocode.Ir.Fault
import Pseudocode.Scope

/-!
Why no code can be generated for a program.

Most of these cannot happen to a program that has been read from a source.  They stop code
generation for trees whose types do not agree, or whose names stand for nothing.
-/

namespace Pseudocode

/-- A value that does not fit the place where it is used. -/
inductive OperandFault where
  /-- The operands do not fit an instruction. -/
  | instr (fault : Ir.Fault)
  /-- A type that no value has. -/
  | undetermined
  /-- A value of undetermined type is printed or read. -/
  | noFormat
  /-- A value cannot be converted. -/
  | noConversion (source target : Ir.Ty)
  /-- A string is too long. -/
  | wideSize (size : Nat)
  /-- A routine without a result is used as a value. -/
  | noValue (callee : String)
  /-- The operator does not calculate with values of this type. -/
  | notArithmetic (op : BinaryOp) (ty : Ty)
  /-- The operator does not compare. -/
  | notComparison (op : BinaryOp)
  /-- Values of this type cannot be compared. -/
  | compared (ty : Ty)
  /-- Values of this type have no sign. -/
  | negated (ty : Ty)
  /-- Values of this type are neither true nor false. -/
  | condition (ty : Ty)
  /-- A whole array is used as a value. -/
  | wholeArray (name : String)
  /-- A variable is indexed that is no array. -/
  | notArray (name : String)
  /-- A value is read into a whole array. -/
  | inputArray (name : String)
  /-- A loop counts a variable, or up to a bound, that is no number. -/
  | loopVariable (name : String)
  /-- A value is returned where there is no subroutine. -/
  | returnOutside (scope : Scope)
  /-- A subroutine would have to return a value of this type without being told which. -/
  | noDefault (ty : Ty)
  deriving DecidableEq, Repr, Inhabited

namespace OperandFault

/-- The fault in words. -/
def message : OperandFault → String
  | instr fault => fault.message
  | undetermined => "undetermined type reached code generation"
  | noFormat => "no format for an undetermined value"
  | noConversion source target => s!"cannot convert {source.render} to {target.render}"
  | wideSize size => s!"size {size} does not fit in 32 bits"
  | noValue callee => s!"'{callee}' returns no value"
  | notArithmetic op ty => s!"'{op.symbol}' is not arithmetic on {ty.name}"
  | notComparison op => s!"'{op.symbol}' is not a comparison"
  | compared ty => s!"cannot compare {ty.name} values"
  | negated ty => s!"cannot negate a {ty.name} value"
  | condition ty => s!"a {ty.name} value cannot be a condition"
  | wholeArray name => s!"array '{name}' used without an index"
  | notArray name => s!"'{name}' is not an array"
  | inputArray name => s!"INPUT into array '{name}' needs an index"
  | loopVariable name => s!"loop variable '{name}' is not numeric"
  | returnOutside scope => s!"RETURN outside a subroutine in {scope.label}"
  | noDefault ty => s!"subroutines cannot return {ty.name}"

end OperandFault

/-- Why no code can be generated for a program. -/
inductive LowerError where
  /-- A name stands for no variable and no subroutine. -/
  | unresolvedName (name : String) (scope : Scope)
  /-- A subroutine is called with too few or too many arguments. -/
  | argumentCount (name : String) (expected found : Nat)
  /-- A subroutine has a name that the generated module needs itself. -/
  | reservedName (name : String)
  /-- Two subroutines have the same name. -/
  | duplicateSubroutine (name : String)
  /-- A value does not fit the place where it is used. -/
  | invalidOperand (fault : OperandFault)
  deriving DecidableEq, Repr, Inhabited

namespace LowerError

/-- The error in words. -/
def message : LowerError → String
  | unresolvedName name scope => s!"no storage for '{name}' in {scope.label}"
  | argumentCount name expected found =>
    s!"'{name}' expects {expected} argument(s) but was called with {found}"
  | reservedName name => s!"'{name}' is reserved and cannot name a subroutine"
  | duplicateSubroutine name => s!"subroutine '{name}' is defined more than once"
  | invalidOperand fault => s!"invalid operand: {fault.message}"

end LowerError

end Pseudocode
