import Pseudocode.Ir.Value

/-!
Operands that do not fit an instruction.
-/

namespace Pseudocode.Ir

/-- Why an instruction cannot be built from its operands. -/
inductive Fault where
  /-- Something that is no pointer is loaded from. -/
  | loadThrough (ty : Ty)
  /-- A value is stored through something that is no pointer to its type. -/
  | storeThrough (value ptr : Ty)
  /-- Something that is no pointer is indexed. -/
  | indexThrough (ty : Ty)
  /-- An index steps into something without parts. -/
  | indexInto (ty : Ty)
  deriving DecidableEq, Repr, Inhabited

namespace Fault

/-- The fault in words. -/
def message : Fault → String
  | loadThrough ty => s!"cannot load through {ty.render}"
  | storeThrough value ptr => s!"cannot store {value.render} through {ptr.render}"
  | indexThrough ty => s!"cannot index through {ty.render}"
  | indexInto ty => s!"cannot index into {ty.render}"

end Fault

end Pseudocode.Ir
