import Pseudocode.Ir.Draft.Name
import Pseudocode.Ir.Fault
import Pseudocode.Ir.Module

/-!
A function in the making.

Instructions are added at the end of the current block.  Memory for variables is reserved elsewhere:
in the prologue, a list of instructions of its own that goes before all others of the first block,
so that the memory is there wherever a variable is first used.

Parameters, blocks and reserved memory get names that are free.  What an instruction computes goes
into the registers `t0`, `t1`, and so on, which are counted and not looked up.
-/

namespace Pseudocode.Ir

/-- A block in the making. -/
structure BlockDraft where
  label : String
  instrs : Array Instr := #[]
  terminator : Terminator := .unreachable
  deriving Inhabited

/-- A function in the making. -/
structure FunctionDraft where
  name : String
  params : List Param
  ret : Ty
  /-- What goes before all other instructions of the first block. -/
  prologue : Array Instr := #[]
  blocks : Array BlockDraft := #[]
  /-- The block that instructions are added to. -/
  current : Nat := 0
  /-- The names that are not free. -/
  taken : Std.TreeSet String := {}
  /-- The number of the next register. -/
  nextTemp : Nat := 0

namespace FunctionDraft

/-! ### Names and blocks -/

/-- A free name for the hint, which is free no longer. -/
def takeName (f : FunctionDraft) (hint : String) : String × FunctionDraft :=
  let name := Draft.freshName f.taken hint
  (name, { f with taken := f.taken.insert name })

/-- Adds an empty block, and gives its number. -/
def createBlock (f : FunctionDraft) (hint : String) : Nat × FunctionDraft :=
  let (label, f) := f.takeName hint
  (f.blocks.size, { f with blocks := f.blocks.push { label } })

/-- Makes a block the current one. -/
def switchTo (f : FunctionDraft) (block : Nat) : FunctionDraft :=
  { f with current := block }

/-- A function that has its first block and nothing in it. -/
def start (name : String) (params : List Param) (ret : Ty) : FunctionDraft :=
  let taken := params.foldl (fun taken p => taken.insert p.name) {}
  let (entry, f) := FunctionDraft.createBlock { name, params, ret, taken } "entry"
  f.switchTo entry

/-- The label of a block. -/
def label (f : FunctionDraft) (block : Nat) : String :=
  (f.blocks[block]?.map BlockDraft.label).getD ""

/-- Has the current block been given a terminator? -/
def isTerminated (f : FunctionDraft) : Bool :=
  (f.blocks[f.current]?.map fun b => b.terminator.isSet).getD true

/-! ### Adding instructions -/

/-- Adds an instruction to the current block. -/
def add (f : FunctionDraft) (i : Instr) : FunctionDraft :=
  { f with blocks := f.blocks.modify f.current fun b => { b with instrs := b.instrs.push i } }

/-- Gives the current block a terminator, in place of the one it has. -/
def terminate (f : FunctionDraft) (t : Terminator) : FunctionDraft :=
  { f with blocks := f.blocks.modify f.current fun b => { b with terminator := t } }

/-- Adds an instruction that puts a value of the given type into the next register. -/
def compute (f : FunctionDraft) (ty : Ty) (instr : String → Instr) : Value × FunctionDraft :=
  let dest := s!"t{f.nextTemp}"
  (.register dest ty, { f with nextTemp := f.nextTemp + 1 }.add (instr dest))

/-- Reserves memory for a value of a type, and gives its address. -/
def reserve (f : FunctionDraft) (hint : String) (ty : Ty) : Value × FunctionDraft :=
  let (dest, f) := f.takeName hint
  (.register dest (.ptr ty), { f with prologue := f.prologue.push (.alloca dest ty) })

/-- Can the value be stored at the address? -/
def checkStore (value ptr : Value) : Except Fault Unit :=
  if ptr.ty = .ptr value.ty then .ok () else .error (.storeThrough value.ty ptr.ty)

/-- Stores a value at an address. -/
def store (f : FunctionDraft) (value ptr : Value) : Except Fault FunctionDraft := do
  checkStore value ptr
  return f.add (.store value ptr)

/-- Stores a value at an address before the first block begins. -/
def storeFirst (f : FunctionDraft) (value ptr : Value) : Except Fault FunctionDraft := do
  checkStore value ptr
  return { f with prologue := f.prologue.push (.store value ptr) }

/-- The value at an address. -/
def load (f : FunctionDraft) (ptr : Value) : Except Fault (Value × FunctionDraft) :=
  match ptr.ty.pointee? with
  | some ty => .ok (f.compute ty fun dest => .load dest ty ptr)
  | none => .error (.loadThrough ptr.ty)

/-- Arithmetic. -/
def arith (f : FunctionDraft) (op : ArithOp) (lhs rhs : Value) : Value × FunctionDraft :=
  f.compute lhs.ty fun dest => .arith dest op lhs rhs

/-- Comparing integers. -/
def icmp (f : FunctionDraft) (pred : IntPred) (lhs rhs : Value) : Value × FunctionDraft :=
  f.compute .i1 fun dest => .icmp dest pred lhs rhs

/-- Comparing binary64 numbers. -/
def fcmp (f : FunctionDraft) (pred : FloatPred) (lhs rhs : Value) : Value × FunctionDraft :=
  f.compute .i1 fun dest => .fcmp dest pred lhs rhs

/-- Converting a value to another type. -/
def cast (f : FunctionDraft) (op : CastOp) (value : Value) (target : Ty) : Value × FunctionDraft :=
  f.compute target fun dest => .cast dest op value target

/-- The type that so many steps into a type lead to. -/
def stepInto : Ty → Nat → Except Fault Ty
  | ty, 0 => .ok ty
  | ty, steps + 1 =>
    match ty.element? with
    | some element => stepInto element steps
    | none => .error (.indexInto ty)

/-- An address computed from another.  The first index steps over what the base points at, and every
further one into it. -/
def gep (f : FunctionDraft) (base : Value) (indices : List Value) (inbounds : Bool) :
    Except Fault (Value × FunctionDraft) :=
  match base.ty.pointee? with
  | none => .error (.indexThrough base.ty)
  | some ty => do
    let result := .ptr (← stepInto ty (indices.length - 1))
    return f.compute result fun dest => .gep dest result base indices inbounds

/-- Calling a function, which gives a value unless the function returns none. -/
def call (f : FunctionDraft) (callee : String) (signature : Signature) (args : List Value) :
    Option Value × FunctionDraft :=
  if signature.ret = .void then (none, f.add (.call none callee signature args))
  else
    let (value, f) := f.compute signature.ret fun dest => .call (some dest) callee signature args
    (some value, f)

/-! ### Leaving a block -/

/-- Goes on with a block. -/
def branch (f : FunctionDraft) (block : Nat) : FunctionDraft :=
  f.terminate (.br (f.label block))

/-- Goes on with one of two blocks. -/
def condBranch (f : FunctionDraft) (condition : Value) (ifTrue ifFalse : Nat) : FunctionDraft :=
  f.terminate (.condBr condition (f.label ifTrue) (f.label ifFalse))

/-- Returns, with a value or without. -/
def leave (f : FunctionDraft) (value : Option Value) : FunctionDraft :=
  f.terminate (.ret value)

/-- The function as it stands. -/
def build (f : FunctionDraft) : Function :=
  let blocks := f.blocks.toList.map fun b => (⟨b.label, b.instrs.toList, b.terminator⟩ : Block)
  { name := f.name
    params := f.params
    ret := f.ret
    blocks := blocks.modifyHead fun b => { b with instrs := f.prologue.toList ++ b.instrs } }

end FunctionDraft

end Pseudocode.Ir
