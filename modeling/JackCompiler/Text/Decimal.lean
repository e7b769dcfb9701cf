/-!
# Decimal numbers

The value of a run of decimal digits. A run has no upper limit here; every reader of numbers sets its own.
-/

namespace JackCompiler.Decimal

/-- The value of an ASCII digit. -/
def digit (c : Char) : Nat :=
  c.toNat - '0'.toNat

/-- The value of a run of ASCII digits, most significant first; leading zeros add nothing. -/
def value (digits : List Char) : Nat :=
  digits.foldl (fun n c => 10 * n + digit c) 0

/-- A text of digits only, at least one. -/
def isRun (text : List Char) : Bool :=
  !text.isEmpty && text.all Char.isDigit

end JackCompiler.Decimal
