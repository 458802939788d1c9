/-!
White space.

A line of a program is blank, or indented, by the characters that Unicode gives the property
`White_Space`.  There are twenty-five of them, and they are listed here as ranges of code points,
because the character classes of the core library stop at ASCII.  Zero-width characters such as
U+200B and U+FEFF do not have the property.
-/

namespace Pseudocode.Text

/-- The ranges of code points with the property `White_Space`, both ends included. -/
def blankRanges : List (Nat × Nat) :=
  [(0x09, 0x0D), (0x20, 0x20), (0x85, 0x85), (0xA0, 0xA0), (0x1680, 0x1680), (0x2000, 0x200A),
   (0x2028, 0x2029), (0x202F, 0x202F), (0x205F, 0x205F), (0x3000, 0x3000)]

/-- Is the character white space? -/
def isBlank (c : Char) : Bool :=
  blankRanges.any fun (low, high) => low ≤ c.toNat && c.toNat ≤ high

end Pseudocode.Text
