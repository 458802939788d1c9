import Pseudocode.Ir.Instr

/-!
Functions and modules.

A function is a list of blocks, the first of which is where it is entered.  A module holds constant
byte strings, the signatures of functions defined elsewhere, and functions of its own.
-/

namespace Pseudocode.Ir

/-- Instructions that run one after another, and where control goes after them. -/
structure Block where
  label : String
  instrs : List Instr
  terminator : Terminator
  deriving DecidableEq, Repr, Inhabited

/-- A parameter of a function. -/
structure Param where
  name : String
  ty : Ty
  deriving DecidableEq, Repr, Inhabited

namespace Param

/-- The value that is passed for a parameter. -/
def value (p : Param) : Value := .register p.name p.ty

end Param

/-- A function. -/
structure Function where
  name : String
  params : List Param
  ret : Ty
  blocks : List Block
  deriving DecidableEq, Repr, Inhabited

namespace Function

/-- The first block with this label. -/
def block? (f : Function) (label : String) : Option Block :=
  f.blocks.find? (·.label == label)

/-- All the instructions of a function, in the order of its blocks. -/
def instrs (f : Function) : List Instr :=
  f.blocks.flatMap Block.instrs

end Function

/-- A constant string of bytes. -/
structure Global where
  name : String
  bytes : List UInt8
  deriving DecidableEq, Repr, Inhabited

namespace Global

/-- The type of the bytes. -/
def ty (g : Global) : Ty := .array g.bytes.length .i8

/-- The address of the bytes. -/
def address (g : Global) : Value := .global g.name (.ptr g.ty)

end Global

/-- A function that is defined elsewhere. -/
structure Declaration where
  name : String
  signature : Signature
  deriving DecidableEq, Repr, Inhabited

/-- A module, with the name of the source it comes from and of the machine it is for. -/
structure Module where
  name : String
  sourceName : String
  target : String
  globals : List Global
  declarations : List Declaration
  functions : List Function
  deriving DecidableEq, Repr, Inhabited

namespace Module

/-- The first function with this name. -/
def function? (m : Module) (name : String) : Option Function :=
  m.functions.find? (·.name == name)

end Module

end Pseudocode.Ir
