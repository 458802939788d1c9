import Pseudocode.Ir.Value

/-!
Instructions.

Most instructions compute a value and put it into the register `dest`.  A block of them ends in a
terminator, which says where control goes next.  `unreachable` is also the terminator of a block
that has not been given one yet.
-/

namespace Pseudocode.Ir

/-- Arithmetic, on 32-bit integers and on binary64 numbers. -/
inductive ArithOp where
  | add | sub | mul | sdiv | srem | fadd | fsub | fmul | fdiv | frem
  deriving DecidableEq, Repr, Inhabited

/-- Comparisons of signed integers. -/
inductive IntPred where
  | eq | ne | slt | sle | sgt | sge
  deriving DecidableEq, Repr, Inhabited

/-- Comparisons of binary64 numbers, which hold as soon as one of them is not a number. -/
inductive FloatPred where
  | ueq | une | ult | ule | ugt | uge
  deriving DecidableEq, Repr, Inhabited

/-- Conversions. -/
inductive CastOp where
  | sitofp | fptosi | uitofp | zext | sext | bitcast
  deriving DecidableEq, Repr, Inhabited

/-- The types of what a function takes and of what it returns.  A variadic function takes any
further arguments. -/
structure Signature where
  ret : Ty
  params : List Ty
  variadic : Bool := false
  deriving DecidableEq, Repr, Inhabited

/-- An instruction. -/
inductive Instr where
  /-- Memory for a value of a type, as long as the function runs. -/
  | alloca (dest : String) (ty : Ty)
  /-- The value at an address. -/
  | load (dest : String) (ty : Ty) (ptr : Value)
  /-- Writing a value to an address. -/
  | store (value ptr : Value)
  /-- Arithmetic. -/
  | arith (dest : String) (op : ArithOp) (lhs rhs : Value)
  /-- Comparing integers. -/
  | icmp (dest : String) (pred : IntPred) (lhs rhs : Value)
  /-- Comparing binary64 numbers. -/
  | fcmp (dest : String) (pred : FloatPred) (lhs rhs : Value)
  /-- Converting a value to another type. -/
  | cast (dest : String) (op : CastOp) (value : Value) (target : Ty)
  /-- An address computed from another by indices. -/
  | gep (dest : String) (result : Ty) (base : Value) (indices : List Value) (inbounds : Bool)
  /-- Calling a function. -/
  | call (dest : Option String) (callee : String) (signature : Signature) (args : List Value)
  deriving DecidableEq, Repr, Inhabited

/-- Where control goes at the end of a block. -/
inductive Terminator where
  /-- Back to the caller, with a value or without. -/
  | ret (value : Option Value)
  /-- To the block with this label. -/
  | br (label : String)
  /-- To one of two blocks. -/
  | condBr (condition : Value) (ifTrue ifFalse : String)
  /-- Nowhere. -/
  | unreachable
  deriving DecidableEq, Repr, Inhabited

namespace Terminator

/-- Is it anything but the terminator of a block that has not been given one? -/
def isSet : Terminator → Bool
  | unreachable => false
  | _ => true

end Terminator

end Pseudocode.Ir
