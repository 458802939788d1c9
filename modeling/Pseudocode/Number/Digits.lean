import Pseudocode.Number.Binary64

/-!
Numerals.

A run of decimal digits denotes a natural number.  As a whole number it is held to the range of
a signed 64-bit word, the largest of which stands for everything beyond it.  With a point among the
digits it denotes the binary64 number nearest to its exact value.
-/

namespace Pseudocode.Digits

/-- The number that a run of decimal digits denotes. -/
def value (digits : List Char) : Nat :=
  digits.foldl (fun n c => 10 * n + (c.toNat - '0'.toNat)) 0

/-- The largest signed 64-bit number. -/
def maxWord : Nat := 0x7FFFFFFFFFFFFFFF

/-- The value of a whole numeral, cut off at the largest signed 64-bit number. -/
def whole (digits : List Char) : Int :=
  (min (value digits) maxWord : Nat)

/-- The value of a numeral with a point: the digits before it and the digits after it. -/
def pointed (before after : List Char) : Double :=
  Double.ofRatio (value (before ++ after)) (Nat.pow 10 after.length)

end Pseudocode.Digits
