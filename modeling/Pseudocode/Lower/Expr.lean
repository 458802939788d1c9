import Pseudocode.Lower.State

/-!
Code for expressions.

An expression is lowered to an operand: a value, or an address at which the value is to be found.
An operand is turned into a value of a given type where it is used, by `fetch`, which loads and
converts it. Lowering an expression adds instructions to the current block and may intern strings;
it changes nothing else.

The functions before `operand` take the lowering of the parts of an expression as their arguments.
That leaves `operand` itself as a recursion on the tree.
-/

namespace Pseudocode.Lower

/-- What an expression is lowered to. -/
inductive Operand where
  /-- The value itself. -/
  | value (v : Ir.Value)
  /-- Where the value is to be found. -/
  | address (ptr : Ir.Value)
  deriving DecidableEq, Repr, Inhabited

/-- The type that values of a type have in generated code. -/
def irTy (ty : Ty) : Lowering Ir.Ty :=
  match ty with
  | .int => return .i32
  | .double => return .double
  | .string => return .bytes
  | .undetermined => invalid .undetermined

/-- The conversion from one type to another, if there is one. -/
def castOp? : Ir.Ty → Ir.Ty → Option Ir.CastOp
  | .i32, .double => some .sitofp
  | .double, .i32 => some .fptosi
  | .i1, .i32 => some .zext
  | .i1, .double => some .uitofp
  | _, _ => none

/-- The value, as a value of the given type. -/
def convert (value : Ir.Value) (want : Ty) : Lowering Ir.Value := do
  let target ← irTy want
  if value.ty = target then return value
  match castOp? value.ty target with
  | some op => cast op value target
  | none => invalid (.noConversion value.ty target)

/-- The value of an operand, as a value of the given type. -/
def fetch (operand : Lowering Operand) (want : Ty) : Lowering Ir.Value := do
  match ← operand with
  | .value v => convert v want
  | .address ptr => convert (← load ptr) want

/-! ### Operators -/

/-- The comparison of integers that an operator asks for. -/
def intPred? : BinaryOp → Option Ir.IntPred
  | .eq => some .eq
  | .ne => some .ne
  | .lt => some .slt
  | .le => some .sle
  | .gt => some .sgt
  | .ge => some .sge
  | _ => none

/-- The comparison of binary64 numbers that an operator asks for. -/
def floatPred? : BinaryOp → Option Ir.FloatPred
  | .eq => some .ueq
  | .ne => some .une
  | .lt => some .ult
  | .le => some .ule
  | .gt => some .ugt
  | .ge => some .uge
  | _ => none

/-- The arithmetic that an operator asks for on values of a type. -/
def arithOp? : Ty → BinaryOp → Option Ir.ArithOp
  | .int, .add => some .add
  | .int, .sub => some .sub
  | .int, .mul => some .mul
  | .int, .div => some .sdiv
  | .int, .mod => some .srem
  | .double, .add => some .fadd
  | .double, .sub => some .fsub
  | .double, .mul => some .fmul
  | .double, .div => some .fdiv
  | .double, .mod => some .frem
  | _, _ => none

/-- The truth of a comparison, made in the given type. -/
def compare (op : BinaryOp) (ty : Ty) (lhs rhs : Lowering Operand) : Lowering Ir.Value := do
  let left ← fetch lhs ty
  let right ← fetch rhs ty
  match ty with
  | .int =>
    match intPred? op with
    | some pred => icmp pred left right
    | none => invalid (.notComparison op)
  | .double =>
    match floatPred? op with
    | some pred => fcmp pred left right
    | none => invalid (.notComparison op)
  | _ => invalid (.compared ty)

/-- The result of a calculation, made in the given type. -/
def calculate (op : BinaryOp) (ty : Ty) (lhs rhs : Lowering Operand) : Lowering Ir.Value := do
  let left ← fetch lhs ty
  let right ← fetch rhs ty
  match arithOp? ty op with
  | some op => arith op left right
  | none => invalid (.notArithmetic op ty)

/-- The value with its sign changed, in the given type. -/
def negate (ty : Ty) (operand : Lowering Operand) : Lowering Ir.Value := do
  let value ← fetch operand ty
  match ty with
  | .int => arith .sub (.i32 0) value
  | .double => arith .fsub (.double .negZero) value
  | _ => invalid (.negated ty)

/-- Fresh memory of the given size that holds the left string without its NUL, and then all of the
right one.  The lengths of the two strings say how much is copied. -/
def concat (length leftLength rightLength : Nat) (lhs rhs : Lowering Operand) :
    Lowering Ir.Value := do
  let left ← fetch lhs .string
  let right ← fetch rhs .string
  let buffer ← malloc (← byteCount length)
  let kept := leftLength - 1
  memcpy buffer left (← byteCount kept)
  let tail ← offset buffer (← word kept)
  memcpy tail right (← byteCount rightLength)
  return buffer

/-! ### Arrays and calls -/

/-- The type of the elements of an array. -/
def elementTy (symbol : Symbol) : Lowering Ty := do
  match (← slotOf symbol).kind with
  | .array ty => return ty
  | .scalar _ => invalid (.notArray symbol.name)

/-- The address of an element of an array. -/
def elementAddress (symbol : Symbol) (index : Lowering Operand) : Lowering Ir.Value := do
  let slot ← slotOf symbol
  match slot.kind with
  | .scalar _ => invalid (.notArray symbol.name)
  | .array _ =>
    let first ← load slot.address
    offset first (← fetch index .int)

/-- The slot of a variable, as the address of its value. -/
def variableAddress (symbol : Symbol) : Lowering Ir.Value := do
  let slot ← slotOf symbol
  match slot.kind with
  | .scalar _ => return slot.address
  | .array _ => invalid (.wholeArray symbol.name)

/-- The subroutine of a name, which must take so many arguments. -/
def subroutineOf (scope : Scope) (name : String) (found : Nat) : Lowering Subroutine := do
  match (← get).subroutines[name]? with
  | none => throw (.unresolvedName name scope)
  | some sub =>
    if found = sub.params.length then return sub
    throw (.argumentCount name sub.params.length found)

/-! ### Expressions -/

mutual

/-- The operand that an expression is lowered to. -/
def operand (scope : Scope) : Expr → Lowering Operand
  | .constant (.int value) _ => return .value (.i32 value.toInt)
  | .constant (.double value) _ => return .value (.double value)
  | .constant (.string text) _ => do
    let global ← modifyGet fun s =>
      let (global, m) := s.module.intern none text
      (global, { s with module := m })
    return .value (← firstByte global)
  | .var name _ => return .address (← variableAddress ⟨name, scope⟩)
  | .element name index _ => return .address (← elementAddress ⟨name, scope⟩ (operand scope index))
  | .binary op lhs rhs shape =>
    if op.isComparison then
      return .value (← compare op shape.ty (operand scope lhs) (operand scope rhs))
    else if shape.ty = .string then
      return .value
        (← concat shape.length lhs.length rhs.length (operand scope lhs) (operand scope rhs))
    else
      return .value (← calculate op shape.ty (operand scope lhs) (operand scope rhs))
  | .negate e shape => return .value (← negate shape.ty (operand scope e))
  | .call name args _ => do
    let sub ← subroutineOf scope name args.length
    return .value (← call name sub.signature (← arguments scope args sub.params))

/-- The values of the arguments of a call, as values of the types of the parameters. -/
def arguments (scope : Scope) : List Expr → List Ty → Lowering (List Ir.Value)
  | e :: es, ty :: tys => do
    let value ← fetch (operand scope e) ty
    return value :: (← arguments scope es tys)
  | _, _ => return []

end

/-- The value of an expression, as a value of the given type. -/
def valueOf (scope : Scope) (e : Expr) (want : Ty) : Lowering Ir.Value :=
  fetch (operand scope e) want

/-- The truth of an expression.  A number is true if it is not zero. -/
def truthOf (scope : Scope) (e : Expr) : Lowering Ir.Value :=
  match e with
  | .binary op lhs rhs shape =>
    if op.isComparison then compare op shape.ty (operand scope lhs) (operand scope rhs)
    else nonzero scope e
  | _ => nonzero scope e
where
  nonzero (scope : Scope) (e : Expr) : Lowering Ir.Value := do
    let value ← valueOf scope e e.ty
    match e.ty with
    | .int => icmp .ne value (.i32 0)
    | .double => fcmp .une value (.double .zero)
    | _ => invalid (.condition e.ty)

end Pseudocode.Lower
