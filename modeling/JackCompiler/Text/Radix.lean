/-!
# Numbers in a base

Digits beyond nine are letters, small or capital. A run of digits has no upper limit here; every reader of numbers sets its
own.
-/

namespace JackCompiler.Radix

/-- The value of a hexadecimal digit. -/
def digit? (c : Char) : Option Nat :=
  if c.isDigit then some (c.toNat - '0'.toNat)
  else if 'a' ≤ c && c ≤ 'f' then some (c.toNat - 'a'.toNat + 10)
  else if 'A' ≤ c && c ≤ 'F' then some (c.toNat - 'A'.toNat + 10)
  else none

/-- The value of digits in a base, if all are digits in it and there is one. -/
def value? (base : Nat) (digits : List Char) : Option Nat :=
  if digits = [] then none
  else digits.foldlM (fun n c => (digit? c).bind fun d => if d < base then some (base * n + d) else none) 0

end JackCompiler.Radix
