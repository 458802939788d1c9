/-!
Types of values.

A program computes with 32-bit integers, binary64 numbers and strings.  A name that is not bound
where it is used has the type `undetermined`, which no value has; it lets an expression be built
first and rejected where its value is needed.

A `Shape` is a type together with the number of bytes that a string of this shape takes, the closing
NUL included.  Numbers have length zero.  Lengths are added as words of sixty-four bits, so that a
sum that needs more of them is too small by a multiple of 2^64.
-/

namespace Pseudocode

/-- The type of a value, or of a name. -/
inductive Ty where
  | int | double | string | undetermined
  deriving DecidableEq, Repr, Inhabited

namespace Ty

/-- How a type is written in messages. -/
def name : Ty → String
  | int => "int"
  | double => "double"
  | string => "string"
  | undetermined => "undetermined"

/-- Is it a type of numbers? -/
def isNumeric : Ty → Bool
  | int => true
  | double => true
  | _ => false

/-- Is it a type that values have? -/
def isResolved : Ty → Bool
  | undetermined => false
  | _ => true

/-- The type in which two numbers are combined: `double` as soon as one of them is one. -/
def promote? : Ty → Ty → Option Ty
  | int, int => some int
  | int, double => some double
  | double, int => some double
  | double, double => some double
  | _, _ => none

end Ty

/-- A type, and for a string the number of bytes it takes. -/
structure Shape where
  ty : Ty
  length : Nat := 0
  deriving DecidableEq, Repr, Inhabited

namespace Shape

/-- The shape of a name that is not bound. -/
def unknown : Shape := ⟨.undetermined, 0⟩

/-- The length of one string followed by another, as a word: the NUL that closes the first is
dropped. -/
def concatLength (left right : Nat) : Nat :=
  (left - 1 + right) % UInt64.size

/-- The sum is exact if it fits in a word. -/
theorem concatLength_eq_iff {left right : Nat} :
    concatLength left right = left - 1 + right ↔ left - 1 + right < UInt64.size := by
  unfold concatLength UInt64.size
  omega

end Shape

end Pseudocode
