import Pseudocode.Event
import Pseudocode.Lower.Routines
import Pseudocode.Lower.Storage

/-!
Generating code with a memory.

The state holds the module and the function in the making, the slots of the variables, and the
subroutines that have been declared.  It outlives an error, like the log it carries.  The functions
below are the ways in which code generation changes it: instructions are added to the current
function, and everything else is built from them.
-/

namespace Pseudocode

/-- A subroutine that has been declared. -/
structure Subroutine where
  signature : Ir.Signature
  params : List Ty
  ty : Ty
  deriving Repr, Inhabited

namespace Lower

/-- What is known while code is generated. -/
structure State where
  module : Ir.ModuleDraft
  routines : Routines
  function : Ir.FunctionDraft
  storage : Storage := {}
  subroutines : Std.TreeMap String Subroutine := {}
  log : Array Event := #[]

/-- Generating code, which may fail. -/
abbrev Lowering := ExceptT LowerError (StateM State)

/-- Fails because of an operand. -/
def invalid (fault : OperandFault) : Lowering α :=
  throw (.invalidOperand fault)

/-- Tells an event. -/
def tell (e : Event) : Lowering Unit :=
  modify fun s => { s with log := s.log.push e }

/-! ### The function in the making -/

/-- Changes the function, and gives what the change gives. -/
def onFunction (change : Ir.FunctionDraft → α × Ir.FunctionDraft) : Lowering α :=
  modifyGet fun s =>
    let (a, f) := change s.function
    (a, { s with function := f })

/-- Changes the function, if it can be changed so. -/
def tryFunction (change : Ir.FunctionDraft → Except OperandFault (α × Ir.FunctionDraft)) :
    Lowering α := do
  match change (← get).function with
  | .ok (a, f) =>
    modify fun s => { s with function := f }
    return a
  | .error fault => invalid fault

/-- Changes the function, if the operands fit. -/
def tryInstr (change : Ir.FunctionDraft → Except Ir.Fault (α × Ir.FunctionDraft)) : Lowering α :=
  tryFunction fun f => (change f).mapError .instr

/-- Adds an empty block, and gives its number. -/
def createBlock (hint : String) : Lowering Nat :=
  onFunction fun f => f.createBlock hint

/-- Makes a block the current one. -/
def switchTo (block : Nat) : Lowering Unit :=
  onFunction fun f => ((), f.switchTo block)

/-- Goes on with a block. -/
def branch (block : Nat) : Lowering Unit :=
  onFunction fun f => ((), f.branch block)

/-- Goes on with a block, unless the current one already ends. -/
def fallThrough (block : Nat) : Lowering Unit := do
  unless (← get).function.isTerminated do branch block

/-- Goes on with one of two blocks. -/
def condBranch (condition : Ir.Value) (ifTrue ifFalse : Nat) : Lowering Unit :=
  onFunction fun f => ((), f.condBranch condition ifTrue ifFalse)

/-- Returns a value. -/
def leave (value : Ir.Value) : Lowering Unit :=
  onFunction fun f => ((), f.leave (some value))

/-- Reserves memory for a variable, and gives its address. -/
def reserve (name : String) (ty : Ir.Ty) : Lowering Ir.Value :=
  onFunction fun f => f.reserve (name ++ ".slot") ty

/-- The value at an address. -/
def load (ptr : Ir.Value) : Lowering Ir.Value :=
  tryInstr fun f => f.load ptr

/-- Stores a value at an address. -/
def store (value ptr : Ir.Value) : Lowering Unit :=
  tryInstr fun f => (f.store value ptr).map ((), ·)

/-- Stores a value at an address before the function begins. -/
def storeFirst (value ptr : Ir.Value) : Lowering Unit :=
  tryInstr fun f => (f.storeFirst value ptr).map ((), ·)

/-- Arithmetic. -/
def arith (op : Ir.ArithOp) (lhs rhs : Ir.Value) : Lowering Ir.Value :=
  onFunction fun f => f.arith op lhs rhs

/-- Comparing integers. -/
def icmp (pred : Ir.IntPred) (lhs rhs : Ir.Value) : Lowering Ir.Value :=
  onFunction fun f => f.icmp pred lhs rhs

/-- Comparing binary64 numbers. -/
def fcmp (pred : Ir.FloatPred) (lhs rhs : Ir.Value) : Lowering Ir.Value :=
  onFunction fun f => f.fcmp pred lhs rhs

/-- Converting a value. -/
def cast (op : Ir.CastOp) (value : Ir.Value) (target : Ir.Ty) : Lowering Ir.Value :=
  onFunction fun f => f.cast op value target

/-- The address so many elements further on. -/
def offset (base index : Ir.Value) : Lowering Ir.Value :=
  tryInstr fun f => f.gep base [index] false

/-- The address of the first byte of a constant string. -/
def firstByte (global : Ir.Value) : Lowering Ir.Value :=
  tryInstr fun f => Routines.firstByte global f

/-- The address of the first byte of the format for values of a type. -/
def format (ty : Ty) : Lowering Ir.Value := do
  let routines := (← get).routines
  tryFunction fun f => routines.format ty f

/-! ### Calls -/

/-- Calls a function, whatever it returns. -/
def run (callee : String) (signature : Ir.Signature) (args : List Ir.Value) : Lowering Unit := do
  let _ ← onFunction fun f => f.call callee signature args

/-- What a function returns. -/
def call (callee : String) (signature : Ir.Signature) (args : List Ir.Value) :
    Lowering Ir.Value := do
  match ← onFunction fun f => f.call callee signature args with
  | some value => return value
  | none => invalid (.noValue callee)

/-- A size as the 32-bit constant that it must be. -/
def word (size : Nat) : Lowering Ir.Value :=
  if size < 0x80000000 then return .i32 size else invalid (.wideSize size)

/-- A number of bytes, as the routines take it. -/
def byteCount (size : Nat) : Lowering Ir.Value := do
  cast .sext (← word size) .i64

/-- Fresh memory of so many bytes. -/
def malloc (size : Ir.Value) : Lowering Ir.Value := do
  call "malloc" (← get).routines.malloc [size]

/-- Memory of another size with what the old one holds. -/
def realloc (old size : Ir.Value) : Lowering Ir.Value := do
  call "realloc" (← get).routines.realloc [old, size]

/-- Copies so many bytes. -/
def memcpy (dest source size : Ir.Value) : Lowering Unit := do
  let _ ← call "memcpy" (← get).routines.memcpy [dest, source, size]

/-- Prints by a format. -/
def printf (args : List Ir.Value) : Lowering Unit := do
  run "printf" (← get).routines.printf args

/-- Reads by a format. -/
def scanf (args : List Ir.Value) : Lowering Unit := do
  run "scanf" (← get).routines.scanf args

/-! ### Variables -/

/-- The slot of a symbol, which must have one. -/
def slotOf (symbol : Symbol) : Lowering Slot := do
  match (← get).storage[symbol]? with
  | some slot => return slot
  | none => throw (.unresolvedName symbol.name symbol.scope)

/-- Gives a symbol a slot. -/
def setSlot (symbol : Symbol) (slot : Slot) : Lowering Unit :=
  modify fun s => { s with storage := s.storage.insert symbol slot }

end Lower

end Pseudocode
