import Pseudocode.Expr

/-!
What integer programs compute with and what can be seen of them.

The meaning of a program and the meaning of the code that is generated for it are given apart from
one another, but they speak of the same numbers and of the same prints.  Numbers are words of 32
bits: sums, differences and products wrap around, while a quotient is the exact one rounded toward
zero, or there is none.
-/

namespace Pseudocode

/-- Something that is printed. -/
inductive Printed where
  | number (n : Int32)
  | lineBreak
  deriving DecidableEq, Repr

/-- What is printed, in order. -/
abbrev Output := List Printed

namespace Printed

/-- How it looks. -/
def text : Printed → String
  | number n => toString n.toInt
  | lineBreak => "\n"

end Printed

/-- The word for a number, if there is one. -/
def word? (n : Int) : Option Int32 :=
  if -0x80000000 ≤ n ∧ n < 0x80000000 then some (.ofInt n) else none

/-- The quotient rounded toward zero.  There is none if the divisor is zero or if it does not fit a
word. -/
def quotient? (a b : Int32) : Option Int32 :=
  if b = 0 then none else word? (a.toInt.tdiv b.toInt)

/-- What is left by the quotient, if there is one. -/
def remainder? (a b : Int32) : Option Int32 :=
  (quotient? a b).map fun q => a - q * b

/-- The number that stands for a truth value. -/
def truthWord (b : Bool) : Int32 :=
  if b then 1 else 0

theorem truthWord_ne_zero (b : Bool) : truthWord b ≠ 0 ↔ b = true := by
  cases b <;> decide

example : quotient? (-7) 2 = some (-3) ∧ remainder? (-7) 2 = some (-1) ∧ quotient? 1 0 = none ∧
    quotient? (-2147483648) (-1) = none ∧ remainder? (-2147483648) (-1) = none := by decide

end Pseudocode
