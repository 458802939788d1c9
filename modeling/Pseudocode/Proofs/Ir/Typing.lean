import Pseudocode.Ir.Module

/-!
Functions whose types agree.

An instruction has operands, and most instructions define a register.  `Instr.WellTyped` says that
the types of the operands are the ones that the instruction works on: both operands of an addition
are integers, what is stored fits the address, a conversion goes between two types that it can
convert, an address is indexed as far as its type has parts, and a call hands over what the
signature asks for.

Every operand carries a type of its own, and an instruction is judged by these.  So a function is
well typed only if they are also the right ones: a register is used at the type that it is defined
with.
-/

namespace Pseudocode.Ir

/-! ### What instructions use and define -/

namespace Instr

/-- The values that an instruction works on. -/
def operands : Instr → List Value
  | alloca _ _ => []
  | load _ _ ptr => [ptr]
  | store value ptr => [value, ptr]
  | arith _ _ lhs rhs => [lhs, rhs]
  | icmp _ _ lhs rhs => [lhs, rhs]
  | fcmp _ _ lhs rhs => [lhs, rhs]
  | cast _ _ value _ => [value]
  | gep _ _ base indices _ => base :: indices
  | call _ _ _ args => args

/-- The register that an instruction defines, with its type. -/
def result? : Instr → Option (String × Ty)
  | alloca dest ty => some (dest, .ptr ty)
  | load dest ty _ => some (dest, ty)
  | store _ _ => none
  | arith dest _ lhs _ => some (dest, lhs.ty)
  | icmp dest _ _ _ => some (dest, .i1)
  | fcmp dest _ _ _ => some (dest, .i1)
  | cast dest _ _ target => some (dest, target)
  | gep dest result _ _ _ => some (dest, result)
  | call dest _ signature _ => dest.map fun d => (d, signature.ret)

end Instr

/-- The values that a terminator works on. -/
def Terminator.operands : Terminator → List Value
  | ret value => value.toList
  | br _ => []
  | condBr condition _ _ => [condition]
  | unreachable => []

/-- The registers that instructions define, with their types. -/
def results (is : List Instr) : List (String × Ty) :=
  is.filterMap Instr.result?

@[simp]
theorem results_nil : results [] = [] := rfl

@[simp]
theorem results_append (is js : List Instr) : results (is ++ js) = results is ++ results js :=
  List.filterMap_append

/-! ### Instructions -/

/-- The type that an operation calculates in. -/
def ArithOp.ty : ArithOp → Ty
  | add => .i32
  | sub => .i32
  | mul => .i32
  | sdiv => .i32
  | srem => .i32
  | fadd => .double
  | fsub => .double
  | fmul => .double
  | fdiv => .double
  | frem => .double

/-- Does the operation convert from the one type to the other? -/
def CastOp.Converts : CastOp → Ty → Ty → Prop
  | sitofp, source, target => source = .i32 ∧ target = .double
  | fptosi, source, target => source = .double ∧ target = .i32
  | uitofp, source, target => source = .i1 ∧ target = .double
  | zext, source, target => source = .i1 ∧ target = .i32
  | sext, source, target => source = .i32 ∧ target = .i64
  | bitcast, source, target => source.pointee?.isSome ∧ target.pointee?.isSome

/-- The type that indices lead to, one part further in for each of them. -/
def Ty.step? : Ty → List Value → Option Ty
  | ty, [] => some ty
  | ty, _ :: indices => ty.element?.bind fun element => element.step? indices

/-- Do the types of the arguments fit a signature? -/
def Signature.Takes (s : Signature) (args : List Value) : Prop :=
  s.params <+: args.map Value.ty ∧ (s.variadic = false → args.length = s.params.length)

/-- Do the types of the operands fit the instruction? -/
def Instr.WellTyped : Instr → Prop
  | alloca _ _ => True
  | load _ ty ptr => ptr.ty = .ptr ty
  | store value ptr => ptr.ty = .ptr value.ty
  | arith _ op lhs rhs => lhs.ty = op.ty ∧ rhs.ty = op.ty
  | icmp _ _ lhs rhs => lhs.ty = .i32 ∧ rhs.ty = .i32
  | fcmp _ _ lhs rhs => lhs.ty = .double ∧ rhs.ty = .double
  | cast _ op value target => op.Converts value.ty target
  | gep _ result base indices _ =>
    -- The first index steps over what the base points at, and the others into it.
    (base.ty.pointee?.bind fun ty => ty.step? indices.tail).map .ptr = some result
  | call _ _ signature args => signature.Takes args

/-- Do the types of the operands fit the terminator of a function that returns the given type? -/
def Terminator.WellTyped (returns : Ty) : Terminator → Prop
  | ret (some value) => value.ty = returns
  | ret none => returns = .void
  | br _ => True
  | condBr condition _ _ => condition.ty = .i1
  | unreachable => True

/-! ### Functions -/

/-- All values that a block works on. -/
def Block.operands (b : Block) : List Value :=
  b.instrs.flatMap Instr.operands ++ b.terminator.operands

/-- The registers of a function, with the types that they are defined with. -/
def Function.definitions (f : Function) : List (String × Ty) :=
  f.params.map (fun p => (p.name, p.ty)) ++ results f.instrs

/-- Do all types in a function agree? -/
structure Function.WellTyped (f : Function) : Prop where
  /-- Every instruction is given operands of the types that it works on. -/
  instrs : ∀ b ∈ f.blocks, ∀ i ∈ b.instrs, i.WellTyped
  /-- Every branch is on a truth value, and what is returned has the type that the function
  returns. -/
  terminators : ∀ b ∈ f.blocks, b.terminator.WellTyped f.ret
  /-- Every register is used at a type that it is defined with. -/
  registers : ∀ b ∈ f.blocks, ∀ name ty, .register name ty ∈ b.operands → (name, ty) ∈ f.definitions

end Pseudocode.Ir
