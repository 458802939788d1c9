import Pseudocode.Number.Binary64

/-!
Types and values of the intermediate representation.

Pointers say what they point at.  A value is a register, the address of something in the module, or
a constant, and each of them knows its type.
-/

namespace Pseudocode.Ir

/-- A type of values. -/
inductive Ty where
  | void | i1 | i8 | i32 | i64 | double
  | ptr (pointee : Ty)
  | array (size : Nat) (element : Ty)
  deriving DecidableEq, Repr, Inhabited

namespace Ty

/-- The type of the address of a byte, which strings and fresh memory have. -/
def bytes : Ty := ptr i8

/-- What a pointer points at. -/
def pointee? : Ty → Option Ty
  | ptr t => some t
  | _ => none

/-- What a pointer points at, or what an array is made of. -/
def element? : Ty → Option Ty
  | ptr t => some t
  | array _ t => some t
  | _ => none

/-- How a type is written. -/
def render : Ty → String
  | void => "void"
  | i1 => "i1"
  | i8 => "i8"
  | i32 => "i32"
  | i64 => "i64"
  | double => "double"
  | ptr t => t.render ++ "*"
  | array n t => "[" ++ toString n ++ " x " ++ t.render ++ "]"

end Ty

/-- A value that an instruction works on. -/
inductive Value where
  /-- A name of the function: a parameter, or what an instruction has put there. -/
  | register (name : String) (ty : Ty)
  /-- The address of a name of the module. -/
  | global (name : String) (ty : Ty)
  /-- A whole number. -/
  | int (value : Int) (ty : Ty)
  /-- A binary64 number. -/
  | double (value : Double)
  /-- The pointer that points nowhere. -/
  | null (ty : Ty)
  deriving DecidableEq, Repr, Inhabited

namespace Value

/-- The type of a value. -/
def ty : Value → Ty
  | register _ t => t
  | global _ t => t
  | int _ t => t
  | double _ => .double
  | null t => t

/-- A 32-bit constant. -/
def i32 (value : Int) : Value := int value .i32

end Value

end Pseudocode.Ir
