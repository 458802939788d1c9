import Pseudocode.Lower.Expr
import Pseudocode.Stmt

/-!
Code for statements.

A variable gets its slot when it is first assigned to, and a new one when it is assigned a value of
another type.  The two arms of a conditional are lowered from the same storage, and what they leave
is joined.  All arms of a chain go on in one block, which the first arm creates.  Both loops run
their body before they test; since the body is also entered from its own end, the sizes of buffers
are forgotten before it is lowered.

As with expressions, the functions before `statement` take the lowering of bodies as their
arguments.
-/

namespace Pseudocode.Lower

/-! ### Storing values -/

/-- The slot for values of a type, as an address. -/
def scalarSlot (symbol : Symbol) (ty : Ty) : Lowering Ir.Value := do
  match (← get).storage[symbol]? with
  | some slot => if slot.kind = .scalar ty then return slot.address else fresh
  | none => fresh
where
  fresh : Lowering Ir.Value := do
    let address ← reserve symbol.name (← irTy ty)
    setSlot symbol { address, kind := .scalar ty }
    return address

/-- A buffer of the given size for a string variable.  One that has another size, or whose size is
not known, is resized. -/
def stringBuffer (symbol : Symbol) (length : Nat) : Lowering Ir.Value := do
  match (← get).storage[symbol]? with
  | some slot =>
    if slot.kind = .scalar .string then
      if slot.length = some length then load slot.address
      else
        let old ← load slot.address
        let resized ← realloc old (← byteCount length)
        store resized slot.address
        setSlot symbol { slot with length := some length }
        return resized
    else fresh
  | none => fresh
where
  fresh : Lowering Ir.Value := do
    let address ← reserve symbol.name .bytes
    storeFirst (.null .bytes) address
    let buffer ← malloc (← byteCount length)
    store buffer address
    setSlot symbol { address, kind := .scalar .string, length := some length }
    return buffer

/-- Storing a value. -/
def assign (scope : Scope) (a : Assignment) : Lowering Unit := do
  match a.target with
  | .var name shape =>
    if shape.ty = .string then
      let source ← valueOf scope a.value .string
      let buffer ← stringBuffer ⟨name, scope⟩ shape.length
      memcpy buffer source (← byteCount shape.length)
    else
      let value ← valueOf scope a.value shape.ty
      store value (← scalarSlot ⟨name, scope⟩ shape.ty)
  | .element name index _ =>
    let ty ← elementTy ⟨name, scope⟩
    let value ← valueOf scope a.value ty
    store value (← elementAddress ⟨name, scope⟩ (operand scope index))

/-- Declaring an array: fresh memory, as many bytes as the array has elements. -/
def declareArray (scope : Scope) (ty : Ty) (name : String) (size : Expr) : Lowering Unit := do
  let count ← valueOf scope size .int
  let memory ← malloc (← cast .sext count .i64)
  let element ← irTy ty
  let first ← cast .bitcast memory (.ptr element)
  let symbol : Symbol := ⟨name, scope⟩
  let fresh : Lowering Ir.Value := do
    let address ← reserve name (.ptr element)
    setSlot symbol { address, kind := .array ty }
    return address
  let address ← match (← get).storage[symbol]? with
    | some slot => if slot.kind = .array ty then pure slot.address else fresh
    | none => fresh
  store first address

/-! ### Printing and reading -/

/-- Printing a value on a line of its own. -/
def output (scope : Scope) (e : Expr) : Lowering Unit := do
  let value ← valueOf scope e e.ty
  printf [← format e.ty, value]
  printf [← firstByte (← get).routines.newlineFormat]

/-- Where a value is read to, and of what type it is.  A string is read into its buffer. -/
def inputPlace (scope : Scope) : Target → Lowering (Ir.Value × Ty)
  | .var name _ => do
    let slot ← slotOf ⟨name, scope⟩
    match slot.kind with
    | .scalar .string => return (← load slot.address, .string)
    | .scalar ty => return (slot.address, ty)
    | .array _ => invalid (.inputArray name)
  | .element name index _ => do
    let ty ← elementTy ⟨name, scope⟩
    return (← elementAddress ⟨name, scope⟩ (operand scope index), ty)

/-- Reading a value. -/
def input (scope : Scope) (target : Target) : Lowering Unit := do
  let (ptr, ty) ← inputPlace scope target
  scanf [← format ty, ptr]

/-! ### Conditionals and loops -/

/-- Replaces the storage, and gives the one that was there. -/
def swapStorage (storage : Storage) : Lowering Storage :=
  modifyGet fun s => (s.storage, { s with storage })

/-- One arm of a conditional: its body, and what follows it if anything does.  Both go on in the
block `join?`, which is created here if it is not given; then code generation goes on there. -/
def arm (scope : Scope) (condition : Expr) (join? : Option Nat) (body : Lowering Unit)
    (rest? : Option (Nat → Lowering Unit)) : Lowering Unit := do
  let truth ← truthOf scope condition
  let thenBlock ← createBlock "if.then"
  match rest? with
  | some rest =>
    let elseBlock ← createBlock "if.else"
    let join ← joinBlock
    condBranch truth thenBlock elseBlock
    let afterThen ← thenArm thenBlock join
    switchTo elseBlock
    rest join
    finish join afterThen
  | none =>
    let join ← joinBlock
    condBranch truth thenBlock join
    finish join (← thenArm thenBlock join)
where
  joinBlock : Lowering Nat :=
    match join? with
    | some join => return join
    | none => createBlock "if.end"
  /-- Lowers the body, and brings the storage back to what it was before. -/
  thenArm (thenBlock join : Nat) : Lowering Storage := do
    let before := (← get).storage
    switchTo thenBlock
    body
    fallThrough join
    swapStorage before
  finish (join : Nat) (afterThen : Storage) : Lowering Unit := do
    modify fun s => { s with storage := s.storage.join afterThen }
    if join?.isNone then switchTo join

/-- A loop that runs its body, then a step, and then does so again while a condition holds. -/
def loop (scope : Scope) (kind : String) (body step : Lowering Unit) (condition : Expr) :
    Lowering Unit := do
  let bodyBlock ← createBlock (kind ++ ".body")
  let exitBlock ← createBlock (kind ++ ".exit")
  branch bodyBlock
  switchTo bodyBlock
  modify fun s => { s with storage := s.storage.forgetLengths scope }
  body
  step
  let truth ← truthOf scope condition
  condBranch truth bodyBlock exitBlock
  switchTo exitBlock

/-- Is the variable that a loop counts not beyond the bound?  The comparison is made in the type
that the two have in common. -/
def counterTest (init : Assignment) (bound : Expr) : Lowering Expr :=
  match Ty.promote? init.ty bound.ty with
  | some ty => return .binary .le (.var init.target.name ⟨init.ty, 0⟩) bound ⟨ty, 0⟩
  | none => invalid (.loopVariable init.target.name)

/-- Adding one to the variable that a loop counts. -/
def counterStep (init : Assignment) : Assignment :=
  let counter : Shape := ⟨init.ty, 0⟩
  let one : Expr := .constant (.int 1) ⟨.int, 0⟩
  { target := .var init.target.name counter
    value := .binary .add (.var init.target.name counter) one counter
    ty := init.ty }

/-! ### Subroutines -/

/-- The value that a subroutine returns if it is not told which. -/
def defaultValue : Ty → Lowering Ir.Value
  | .int => return .i32 0
  | .double => return .double .zero
  | ty => invalid (.noDefault ty)

/-- Lowers code into a function of its own, which is added to the module, and goes on with the one
that was there. -/
def inFunction (name : String) (params : List Ir.Param) (ret : Ir.Ty) (code : Lowering Unit) :
    Lowering Unit := do
  let outer := (← get).function
  modify fun s => { s with function := .start name params ret }
  code
  modify fun s => { s with module := s.module.addFunction s.function.build, function := outer }

/-- A subroutine.  It is declared before its body is lowered, so that the body may call it; its
parameters are stored in slots like other variables. -/
def subroutine (name : String) (params : List Param) (ty : Ty) (body : Lowering Unit) :
    Lowering Unit := do
  if name ∈ Routines.reserved then throw (.reservedName name)
  if (← get).subroutines.contains name then throw (.duplicateSubroutine name)
  let irParams ← params.mapM fun p => return (⟨p.name ++ ".arg", ← irTy p.ty⟩ : Ir.Param)
  let ret ← irTy ty
  let sub : Subroutine := ⟨⟨ret, irParams.map Ir.Param.ty, false⟩, params.map Param.ty, ty⟩
  modify fun s => { s with subroutines := s.subroutines.insert name sub }
  inFunction name irParams ret do
    (params.zip irParams).forM fun (p, passed) => do
      store passed.value (← scalarSlot ⟨p.name, .subroutine name⟩ p.ty)
    body
    unless (← get).function.isTerminated do leave (← defaultValue ty)

/-- Leaving a subroutine with a value.  What follows is lowered into a block that nothing leads
to. -/
def leaveWith (scope : Scope) (e : Expr) : Lowering Unit := do
  let s ← get
  match s.subroutines[s.function.name]? with
  | none => invalid (.returnOutside scope)
  | some sub =>
    leave (← valueOf scope e sub.ty)
    switchTo (← createBlock "after.return")

/-! ### Statements -/

mutual

/-- Code for a statement. -/
def statement (scope : Scope) (s : Stmt) : Lowering Unit := do
  tell (.lowering s.label scope)
  match s with
  | .expr e => let _ ← operand scope e
  | .assign a => assign scope a
  | .array ty name size => declareArray scope ty name size
  | .output e => output scope e
  | .input target _ => input scope target
  | .ifThen condition body rest =>
    arm scope condition none (block scope body) (elsePart? scope rest)
  | .whileLoop condition body => loop scope "while" (block scope body) (pure ()) condition
  | .forLoop init bound body =>
    assign scope init
    let test ← counterTest init bound
    loop scope "for" (block scope body) (assign scope (counterStep init)) test
  | .subroutine name params body ty => subroutine name params ty (block (.subroutine name) body)
  | .ret e => leaveWith scope e

/-- Code for statements, one after another. -/
def block (scope : Scope) : List Stmt → Lowering Unit
  | [] => pure ()
  | s :: rest => do
    statement scope s
    block scope rest

/-- Code for what follows an arm of a conditional, if anything does, given where its arms go on. -/
def elsePart? (scope : Scope) : ElsePart → Option (Nat → Lowering Unit)
  | .none => none
  | .body body => some fun join => do
    block scope body
    fallThrough join
  | .elseIf condition body rest => some fun join =>
    arm scope condition (some join) (block scope body) (elsePart? scope rest)

end

end Pseudocode.Lower
