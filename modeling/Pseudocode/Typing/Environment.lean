import Pseudocode.Scope
import Pseudocode.Ty

/-!
What a program has defined so far.

An environment gives every bound symbol its shape and every declared subroutine its return type.
Binding a symbol again replaces its shape, and so does declaring a subroutine again its type.
-/

namespace Pseudocode

/-- The symbols and the subroutines that are defined. -/
structure Environment where
  symbols : Std.TreeMap Symbol Shape := {}
  returns : Std.TreeMap String Ty := {}

namespace Environment

/-- The environment with a symbol bound to a shape. -/
def bind (env : Environment) (symbol : Symbol) (shape : Shape) : Environment :=
  { env with symbols := env.symbols.insert symbol shape }

/-- The environment with a subroutine declared. -/
def register (env : Environment) (name : String) (ty : Ty) : Environment :=
  { env with returns := env.returns.insert name ty }

/-- The shape of a symbol, which is unknown if the symbol is not bound. -/
def shape (env : Environment) (symbol : Symbol) : Shape :=
  env.symbols.getD symbol .unknown

/-- Is the symbol bound? -/
def contains (env : Environment) (symbol : Symbol) : Bool :=
  env.symbols.contains symbol

/-- The type that a subroutine returns, if it is declared. -/
def returnTy? (env : Environment) (name : String) : Option Ty :=
  env.returns[name]?

@[simp]
theorem shape_bind (env : Environment) (s t : Symbol) (shape : Shape) :
    (env.bind s shape).shape t = if s = t then shape else env.shape t := by
  simp [Environment.shape, bind, Std.TreeMap.getD_insert]

@[simp]
theorem contains_bind (env : Environment) (s t : Symbol) (shape : Shape) :
    (env.bind s shape).contains t = (s == t || env.contains t) := by
  rw [Bool.eq_iff_iff]
  simp [contains, bind, Std.TreeMap.contains_insert]

@[simp]
theorem returnTy?_bind (env : Environment) (s : Symbol) (shape : Shape) (name : String) :
    (env.bind s shape).returnTy? name = env.returnTy? name :=
  rfl

@[simp]
theorem returnTy?_register (env : Environment) (name other : String) (ty : Ty) :
    (env.register name ty).returnTy? other =
      if name = other then some ty else env.returnTy? other := by
  simp [returnTy?, register, Std.TreeMap.getElem?_insert]

@[simp]
theorem shape_register (env : Environment) (name : String) (ty : Ty) (s : Symbol) :
    (env.register name ty).shape s = env.shape s :=
  rfl

end Environment

end Pseudocode
