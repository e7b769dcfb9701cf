/-!
# Blank characters

Layout between tokens is made of the characters that have the Unicode property `White_Space`: twenty-five characters in
ten ranges. Control characters outside the ranges, the zero-width space and the byte order mark are not blank.
-/

namespace JackCompiler

/-- First and last code of each range of the property `White_Space`, in increasing order. -/
def blankRanges : List (Nat × Nat) :=
  [(0x09, 0x0D), (0x20, 0x20), (0x85, 0x85), (0xA0, 0xA0), (0x1680, 0x1680), (0x2000, 0x200A), (0x2028, 0x2029),
    (0x202F, 0x202F), (0x205F, 0x205F), (0x3000, 0x3000)]

/-- A character is blank when its code lies in one of the ranges. -/
def isBlank (c : Char) : Bool :=
  blankRanges.any fun range => range.1 ≤ c.toNat && c.toNat ≤ range.2

end JackCompiler
