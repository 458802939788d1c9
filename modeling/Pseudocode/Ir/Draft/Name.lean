import Std.Data.TreeSet

/-!
Names that are not taken yet.

A name is asked for by a hint.  If the hint itself is taken, the answer is the hint with the least
number `k ≥ 1` after it for which the result is free.  The search looks at no more numbers than
there are taken names, and needs no more: the numbered names are all different, and one of the first
`taken.size + 1` of them is free.
-/

namespace Pseudocode.Ir.Draft

/-- The hint with a number after it. -/
def numbered (hint : String) (k : Nat) : String :=
  hint ++ "." ++ toString k

/-- The least number, from `k` on, that makes the hint a free name, after at most `tries` taken
ones. -/
def firstFree (taken : Std.TreeSet String) (hint : String) : Nat → Nat → Nat
  | 0, k => k
  | tries + 1, k =>
    if taken.contains (numbered hint k) then firstFree taken hint tries (k + 1) else k

/-- A free name for the hint. -/
def freshName (taken : Std.TreeSet String) (hint : String) : String :=
  if taken.contains hint then numbered hint (firstFree taken hint taken.size 1) else hint

end Pseudocode.Ir.Draft
