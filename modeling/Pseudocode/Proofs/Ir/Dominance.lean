import Pseudocode.Proofs.Ir.Names
import Pseudocode.Proofs.Ir.Typing

/-!
Functions whose definitions dominate their uses.

Three kinds of registers occur in a function.  Counted registers are defined by the instructions of
a block and are used further on in the same block.  Slots are defined by the setup at the head of
the first block, and parameters by the caller, so both can be used everywhere.

`Function.Dominated` says so of a whole function.  A place in a block is the number of instructions
before it; the terminator has the last place.
-/

namespace Pseudocode.Ir

/-- Does the instruction reserve a slot, or store what is in it at first? -/
def Instr.IsSetup : Instr → Prop
  | alloca _ _ => True
  | store (.null _) _ => True
  | _ => False

namespace Block

/-- The values that are used at a place of a block. -/
def operandsAt (b : Block) (place : Nat) : List Value :=
  match b.instrs[place]? with
  | some i => i.operands
  | none => if place = b.instrs.length then b.terminator.operands else []

/-- Is the register defined by an instruction before the place? -/
def DefinesBefore (b : Block) (name : String) (place : Nat) : Prop :=
  ∃ j < place, ∃ i ty, b.instrs[j]? = some i ∧ i.result? = some (name, ty)

/-- Is the register defined by an instruction of the block? -/
def Defines (b : Block) (name : String) : Prop :=
  ∃ ty, (name, ty) ∈ results b.instrs

end Block

/-- Do the definitions of a function dominate their uses? -/
structure Function.Dominated (f : Function) (setup : List Instr) : Prop where
  /-- The setup stands at the head of the first block. -/
  entry : ∃ entry rest, f.blocks.head? = some entry ∧ entry.instrs = setup ++ rest
  /-- It is made of setup only. -/
  onlySetup : ∀ i ∈ setup, i.IsSetup
  /-- There is none anywhere else. -/
  body : ∀ (k : Nat) (b : Block) (place : Nat) (i : Instr), f.blocks[k]? = some b →
    b.instrs[place]? = some i → i.IsSetup → k = 0 ∧ place < setup.length
  /-- A counted register is used in the one block that defines it, after its definition. -/
  counted : ∀ (k : Nat) (b : Block) (place : Nat) (name : String) (ty : Ty), f.blocks[k]? = some b →
    .register name ty ∈ b.operandsAt place → Draft.IsTemp name →
      b.DefinesBefore name place ∧
        ∀ (j : Nat) (b' : Block), f.blocks[j]? = some b' → b'.Defines name → j = k
  /-- Any other register is a parameter of the function, or a slot that has been reserved before. -/
  slots : ∀ (k : Nat) (b : Block) (place : Nat) (name : String) (ty : Ty), f.blocks[k]? = some b →
    .register name ty ∈ b.operandsAt place → ¬ Draft.IsTemp name →
      name ∈ f.params.map Param.name ∨
        ∃ (j : Nat) (slot : Ty), setup[j]? = some (.alloca name slot) ∧ (k = 0 → j < place)

end Pseudocode.Ir
