/-!
Numbers of the format binary64.

A number is kept as its bit pattern: one sign bit, eleven bits of exponent, fifty-two bits of
fraction. That keeps every pattern apart from every other, the two zeros and the many not-a-numbers
included, and makes equality of numbers in a program equality of what is written for them.

`Double.ofRatio` rounds a quotient of natural numbers to the nearest binary64, a tie going to the
even significand.  The quotient is scaled by a power of two so that its integer part has fifty-three
bits, or fewer below the normal range; that integer part, rounded, is the significand.  Writing it
into the bit pattern by addition lets a significand that rounds up to the next power of two carry
into the exponent field, where it is right for normal and subnormal numbers alike.
-/

namespace Pseudocode

/-- A binary64 number, given by its bit pattern. -/
structure Double where
  bits : UInt64
  deriving DecidableEq, Repr, Inhabited

namespace Double

/-- The number zero. -/
def zero : Double := ⟨0⟩

/-- Zero with its sign bit set. -/
def negZero : Double := ⟨0x8000000000000000⟩

/-- The quotient rounded to the nearest integer, a tie going to the even one. -/
def roundHalfEven (num den : Nat) : Nat :=
  let quotient := num / den
  let twiceRest := 2 * (num % den)
  if den < twiceRest || (twiceRest == den && quotient % 2 == 1) then quotient + 1 else quotient

/-- The exponent of the last place that a significand of fifty-three bits has for `num / den`. -/
def lastPlace (num den : Nat) : Int :=
  let guess : Int := (num.log2 : Int) - den.log2 - 52
  -- `num / den` lies between the powers `guess + 51` and `guess + 53` of two.
  let short := if 0 ≤ guess then num < den <<< (guess.toNat + 52)
    else num <<< (-guess).toNat < den <<< 52
  max (-1074) (if short then guess - 1 else guess)

/-- The binary64 number nearest to `num / den`, a tie going to the even significand. -/
def ofRatio (num den : Nat) : Double :=
  if num == 0 || den == 0 then zero
  else
    let place := lastPlace num den
    let significand := if 0 ≤ place then roundHalfEven num (den <<< place.toNat)
      else roundHalfEven (num <<< (-place).toNat) den
    let bits := ((place + 1074).toNat <<< 52) + significand
    ⟨UInt64.ofNat (min bits 0x7FF0000000000000)⟩

end Double

end Pseudocode
