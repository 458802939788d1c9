import Pseudocode.Ir.Draft.Function
import Pseudocode.Ir.Draft.Module
import Pseudocode.Lower.Error

/-!
What generated code calls.

Generated code prints, reads, reserves and copies memory by routines of the C library, and hands the
first two the format strings for the types of a program.  Every module declares the routines and
holds the formats, so no subroutine can have one of their names, nor the name of the function that
the program starts with.
-/

namespace Pseudocode

/-- The routines of a module, by their signatures, and the addresses of its formats. -/
structure Routines where
  printf : Ir.Signature
  scanf : Ir.Signature
  malloc : Ir.Signature
  memcpy : Ir.Signature
  realloc : Ir.Signature
  doubleFormat : Ir.Value
  stringFormat : Ir.Value
  intFormat : Ir.Value
  newlineFormat : Ir.Value

namespace Routines

/-- The names that no subroutine can have. -/
def reserved : List String :=
  ["main", "printf", "scanf", "malloc", "memcpy", "realloc",
   "fmt_double", "fmt_string", "fmt_int", "fmt_newline"]

/-- Declares the routines in a module and interns the formats. -/
def declare (m : Ir.ModuleDraft) : Routines × Ir.ModuleDraft :=
  let bytes := Ir.Ty.bytes
  let (printf, m) := m.declare "printf" ⟨.i32, [bytes], true⟩
  let (scanf, m) := m.declare "scanf" ⟨.i32, [bytes], true⟩
  let (malloc, m) := m.declare "malloc" ⟨bytes, [.i64], false⟩
  let (memcpy, m) := m.declare "memcpy" ⟨bytes, [bytes, bytes, .i64], false⟩
  let (realloc, m) := m.declare "realloc" ⟨bytes, [bytes, .i64], false⟩
  let (doubleFormat, m) := m.intern (some "fmt_double") "%lf"
  let (stringFormat, m) := m.intern (some "fmt_string") "%s"
  let (intFormat, m) := m.intern (some "fmt_int") "%d"
  let (newlineFormat, m) := m.intern (some "fmt_newline") "\n"
  ({ printf, scanf, malloc, memcpy, realloc, doubleFormat, stringFormat, intFormat, newlineFormat },
    m)

/-- The format for values of a type, if there is one. -/
def format? (r : Routines) : Ty → Option Ir.Value
  | .int => some r.intFormat
  | .double => some r.doubleFormat
  | .string => some r.stringFormat
  | .undetermined => none

/-- The address of the first byte of a constant string. -/
def firstByte (global : Ir.Value) (f : Ir.FunctionDraft) :
    Except Ir.Fault (Ir.Value × Ir.FunctionDraft) :=
  f.gep global [.i32 0, .i32 0] true

/-- The address of the first byte of the format for values of a type. -/
def format (r : Routines) (ty : Ty) (f : Ir.FunctionDraft) :
    Except OperandFault (Ir.Value × Ir.FunctionDraft) :=
  match r.format? ty with
  | some global => (firstByte global f).mapError .instr
  | none => .error .noFormat

end Routines

end Pseudocode
