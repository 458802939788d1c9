import Pseudocode.Ir.Draft.Module
import Pseudocode.Proofs.Ir.Soundness

/-!
Modules that link.

A module links if it gives no name twice, if every call is of a function that it declares or
defines, with the signature of that function, and if every address of a constant string is that of
one of its own strings, with its size (`Module.Links`).

Both calls and addresses stand in the instructions of functions (`Function.Only`).  Terminators are
given no addresses of strings.
-/

namespace Pseudocode.Ir

/-! ### What a module provides -/

/-- The types of what a function of a module takes and returns. -/
def Function.signature (f : Function) : Signature :=
  { ret := f.ret, params := f.params.map Param.ty }

namespace Module

/-- The names that a module gives: to constant strings, to what it declares, and to its
functions. -/
def names (m : Module) : List String :=
  m.globals.map Global.name ++ m.declarations.map Declaration.name ++ m.functions.map Function.name

/-- Is a function with this name and signature declared or defined? -/
def Provides (m : Module) (callee : String) (signature : Signature) : Prop :=
  ⟨callee, signature⟩ ∈ m.declarations ∨ ∃ f ∈ m.functions, f.name = callee ∧
    f.signature = signature

/-- Does everything that the functions of a module refer to exist, under one name only? -/
structure Links (m : Module) : Prop where
  names : m.names.Nodup
  calls : ∀ f ∈ m.functions, ∀ b ∈ f.blocks, ∀ dest callee signature args,
    .call dest callee signature args ∈ b.instrs → m.Provides callee signature
  addresses : ∀ f ∈ m.functions, ∀ b ∈ f.blocks, ∀ name ty, .global name ty ∈ b.operands →
    ∃ g ∈ m.globals, g.name = name ∧ ty = .ptr (.array g.bytes.length .i8)

end Module

/-! ### Operands and instructions -/

/-- If the value is the address of a constant string, is the string one of these? -/
def Value.Within (globals : List Global) (v : Value) : Prop :=
  v.Local ∨ ∃ g ∈ globals, v = g.address

/-- Is the instruction given addresses of these strings only, and does it call only what may be
called? -/
structure Instr.Linked (globals : List Global) (callable : String → Signature → Prop) (i : Instr) :
    Prop where
  operands : ∀ v ∈ i.operands, v.Within globals
  callee : ∀ dest callee signature args, i = .call dest callee signature args →
    callable callee signature

namespace Instr.Linked

variable {globals globals' : List Global} {callable callable' : String → Signature → Prop}
  {i : Instr}

theorem mono (h : i.Linked globals callable) (hglobals : globals ⊆ globals')
    (hcallable : ∀ callee signature, callable callee signature → callable' callee signature) :
    i.Linked globals' callable' := by
  refine ⟨fun v hv => (h.operands v hv).imp_right ?_, fun dest callee signature args hi =>
    hcallable callee signature (h.callee dest callee signature args hi)⟩
  rintro ⟨g, hg, hv⟩
  exact ⟨g, hglobals hg, hv⟩

theorem of_local (hlocal : ∀ v ∈ i.operands, v.Local)
    (hcall : ∀ dest callee signature args, i ≠ .call dest callee signature args) :
    i.Linked globals callable :=
  ⟨fun v hv => .inl (hlocal v hv),
    fun dest callee signature args hi => absurd hi (hcall dest callee signature args)⟩

end Instr.Linked

/-! ### Functions -/

/-- Are all instructions of a finished function like that, and are its terminators given no address
of a string? -/
structure Function.Only (P : Instr → Prop) (f : Function) : Prop where
  instrs : ∀ b ∈ f.blocks, ∀ i ∈ b.instrs, P i
  terminators : ∀ b ∈ f.blocks, ∀ v ∈ b.terminator.operands, v.Local

theorem Function.Only.mono {P Q : Instr → Prop} {f : Function} (h : f.Only P)
    (hPQ : ∀ i, P i → Q i) : f.Only Q :=
  ⟨fun b hb i hi => hPQ i (h.instrs b hb i hi), h.terminators⟩

/-- The instructions of a finished draft are those that it allows, and those of its prologue. -/
theorem FunctionDraft.Sound.only {globals : List Global} {callable : String → Signature → Prop}
    {f : FunctionDraft}
    (hf : f.Sound (Instr.Linked globals callable)) :
    f.build.Only (Instr.Linked globals callable) := by
  constructor
  · intro b hb i hi
    obtain ⟨k, hk⟩ := List.mem_iff_getElem?.mp hb
    obtain ⟨place, hplace⟩ := List.mem_iff_getElem?.mp hi
    rcases hf.instr_build hk hplace with ⟨-, hsetup⟩ | ⟨_, _, _, _, _, hfits⟩
    · rcases hf.setup place i hsetup with ⟨dest, ty, rfl⟩ | ⟨dest, ty, rfl, -⟩
      · exact .of_local (by simp [Instr.operands]) (by simp)
      · exact .of_local (by simp [Instr.operands, Value.Local]) (by simp)
    · exact hfits.allowed
  · intro b hb v hv
    obtain ⟨k, hk⟩ := List.mem_iff_getElem?.mp hb
    rw [getElem?_build] at hk
    obtain ⟨b₀, hb₀, rfl⟩ := Option.map_eq_some_iff.mp hk
    exact ((hf.terminators k b₀ hb₀).known v hv).local

end Pseudocode.Ir
