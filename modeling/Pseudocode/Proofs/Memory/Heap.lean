import Pseudocode.Proofs.Ir.LastWrite

/-!
Memory along a path.

What is followed along a path is what there is to know about strings: where pointers point to, how
large the blocks are that have been allocated, and which of them have been given up.  A slot holds
what has been stored to it.  `malloc` and `realloc` give a block of the size that is asked for, and
a block that is passed to `realloc` is given up, whether the new one is found in another place or
not.  All else is not looked at: what is read from the memory of an array, or what a call returns,
is `unknown`, and a call may store anything in a slot whose address it is passed.

`copies` watches the copies that are made on a path.  A copy has to write inside of a block that has
not been given up (`CopiesInto`).  If it is watched where copies read, too, then the bytes that are
read have to be inside of such a block or of a constant string, unless they are those of a string
variable that has not been assigned (`CopiesFrom`); and then only paths are followed whose loads
find what has been stored last.
-/

namespace Pseudocode.Ir

/-- What is known of a value. -/
inductive Content where
  /-- Nothing. -/
  | unknown
  /-- It points nowhere, like what a slot holds at first.  If it has been read from a slot, it is
  known from which. -/
  | nowhere (slot? : Option String)
  | number (n : Int)
  /-- It is the address of a slot. -/
  | slot (name : String)
  /-- It points into a block that has been allocated, so many bytes behind its beginning. -/
  | block (index : Nat) (offset : Int)
  /-- It points to the first byte of a constant string. -/
  | constant (name : String)
  deriving DecidableEq

namespace Content

/-- What is kept of a value that is copied.  The address of a slot is known by its name alone. -/
def copied : Content → Content
  | slot _ => unknown
  | c => c

/-- What is read from a slot that holds this. -/
def readFrom (name : String) : Content → Content
  | nowhere _ => nowhere (some name)
  | c => c.copied

/-- A number as the size of a block. -/
def size? : Content → Option Nat
  | number n => some n.toNat
  | _ => none

end Content

/-- What has become of memory on a path. -/
structure Memory where
  registers : String → Content := fun _ => .unknown
  slots : String → Content := fun _ => .unknown
  /-- The sizes of the blocks that have been allocated, where they are known. -/
  sizes : List (Option Nat) := []
  /-- The blocks that have been passed to `realloc`. -/
  freed : List Nat := []
  /-- The slots that have been stored to, the last one first. -/
  stored : List String := []

namespace Memory

/-- Puts a value into a register. -/
def set (m : Memory) (dest : String) (c : Content) : Memory :=
  { m with registers := fun name => if name = dest then c else m.registers name }

/-- Puts the result of a call into a register, if there is one. -/
def set? (m : Memory) (dest? : Option String) (c : Content) : Memory :=
  match dest? with
  | some dest => m.set dest c
  | none => m

/-- Puts a value into a slot. -/
def setSlot (m : Memory) (name : String) (c : Content) : Memory :=
  { m with slots := fun other => if other = name then c else m.slots other }

/-- What a value is. -/
def eval (m : Memory) : Value → Content
  | .register name _ => m.registers name
  | .global name _ => .constant name
  | .int n _ => .number n
  | .double _ => .unknown
  | .null _ => .nowhere none

/-- What is found at an address. -/
def read (m : Memory) : Content → Content
  | .slot name => (m.slots name).readFrom name
  | _ => .unknown

/-- Stores a value at an address. -/
def write (m : Memory) (ptr value : Content) : Memory :=
  match ptr with
  | .slot name => m.setSlot name value.copied
  | _ => m

/-- The address that is so far from another. -/
def address (m : Memory) (base : Value) (indices : List Value) : Content :=
  match m.eval base, indices.map m.eval with
  | .block b offset, [.number n] => if base.ty = .bytes then .block b (offset + n) else .unknown
  | .constant name, [.number 0, .number 0] => .constant name
  | _, _ => .unknown

/-- Allocates a block. -/
def allocate (m : Memory) (size : Content) : Memory :=
  { m with sizes := m.sizes ++ [size.size?] }

/-- Gives up the block that is pointed into. -/
def release (m : Memory) : Content → Memory
  | .block b _ => { m with freed := b :: m.freed }
  | _ => m

/-- Stores anything in the slots whose addresses are among the arguments of a call. -/
def expose (m : Memory) (args : List Value) : Memory :=
  { m with
    slots := fun name =>
      if args.any (fun arg => m.eval arg = .slot name) then .unknown else m.slots name }

/-- Calls a function. -/
def call (m : Memory) (dest? : Option String) (callee : String) (args : List Value) : Memory :=
  match callee, args with
  | "malloc", [size] => (m.allocate (m.eval size)).set? dest? (.block m.sizes.length 0)
  | "realloc", [old, size] =>
    ((m.release (m.eval old)).allocate (m.eval size)).set? dest? (.block m.sizes.length 0)
  | _, _ => (m.expose args).set? dest? .unknown

/-- What an instruction does, but for what is taken down of it. -/
def exec (m : Memory) : Instr → Memory
  | .alloca dest _ => (m.setSlot dest (.nowhere none)).set dest (.slot dest)
  | .load dest _ ptr => m.set dest (m.read (m.eval ptr))
  | .store value ptr => m.write (m.eval ptr) (m.eval value)
  | .arith dest .. => m.set dest .unknown
  | .icmp dest .. => m.set dest .unknown
  | .fcmp dest .. => m.set dest .unknown
  | .cast dest op value _ =>
    m.set dest (if op = .sext ∨ op = .bitcast then (m.eval value).copied else .unknown)
  | .gep dest _ base indices _ => m.set dest (m.address base indices)
  | .call dest? callee _ args => m.call dest? callee args

/-- What an instruction makes of memory. -/
def step (i : Instr) (m : Memory) : Memory :=
  { m.exec i with stored := i.record m.stored }

/-! ### Copies -/

/-- Are so many bytes from the address on inside of a block that has not been given up? -/
def Spans (m : Memory) (ptr count : Content) : Prop :=
  ∃ (b : Nat) (offset n : Int) (size : Nat), ptr = .block b offset ∧ count = .number n ∧
    m.sizes[b]? = some (some size) ∧ 0 ≤ offset ∧ 0 ≤ n ∧ offset + n ≤ size ∧ b ∉ m.freed

/-- Are so many bytes from the address on inside of a constant string? -/
def SpansConstant (globals : List Global) (ptr count : Content) : Prop :=
  ∃ g ∈ globals, ∃ n : Int, ptr = .constant g.name ∧ count = .number n ∧ 0 ≤ n ∧ n ≤ g.bytes.length

/-- Has the address been read from a variable that has not been assigned? -/
def Unassigned (m : Memory) (ptr : Content) : Prop :=
  ∃ name x, ptr = .nowhere (some name) ∧ Draft.SlotOf x name ∧
    ∀ other ∈ m.stored, ¬ Draft.SlotOf x other

end Memory

/-- Does the instruction copy bytes? -/
def Instr.isCopy : Instr → Bool
  | .call _ callee _ _ => callee == "memcpy"
  | _ => false

/-- If the instruction copies bytes, it writes inside of a block. -/
def Instr.CopiesInto (i : Instr) (m : Memory) : Prop :=
  ∀ dest? signature dest source size, i = .call dest? "memcpy" signature [dest, source, size] →
    m.Spans (m.eval dest) (m.eval size)

/-- If the instruction copies bytes, it reads inside of a block or of a constant string, unless it
reads a variable that has not been assigned. -/
def Instr.CopiesFrom (globals : List Global) (i : Instr) (m : Memory) : Prop :=
  ∀ dest? signature dest source size, i = .call dest? "memcpy" signature [dest, source, size] →
    m.Spans (m.eval source) (m.eval size) ∨
    Memory.SpansConstant globals (m.eval source) (m.eval size) ∨
      m.Unassigned (m.eval source)

/-- Watching copies: where they write, and where they read if `reads` holds. -/
def copies (reads : Prop) (globals : List Global) : Watch Memory where
  step := Memory.step
  goes i m := reads → i.LoadsLast m.stored
  ok i m := i.CopiesInto m ∧ (reads → i.CopiesFrom globals m)

/-- Does every copy write inside of a block, on every path? -/
def Function.WritesInside (f : Function) : Prop :=
  f.Passes { step := Memory.step, ok := Instr.CopiesInto } {}

/-- Does every copy read inside of a block or of a constant string, on every path? -/
def Function.ReadsInside (globals : List Global) (f : Function) : Prop :=
  f.Passes { step := Memory.step, ok := Instr.CopiesFrom globals } {}

end Pseudocode.Ir
