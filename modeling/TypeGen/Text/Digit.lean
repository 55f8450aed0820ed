/-!
Digits and the numbers that they write.
-/

namespace TypeGen.Text

/-- What a hexadecimal digit stands for. -/
def hexValue (c : Char) : Option Nat :=
  if '0' ≤ c ∧ c ≤ '9' then some (c.toNat - '0'.toNat)
  else if 'a' ≤ c ∧ c ≤ 'f' then some (c.toNat - 'a'.toNat + 10)
  else if 'A' ≤ c ∧ c ≤ 'F' then some (c.toNat - 'A'.toNat + 10)
  else none

/-- What a decimal digit stands for. -/
def decimalValue (c : Char) : Option Nat := if c.isDigit then hexValue c else none

/-- The number that digits write in a base; `value` says what a digit stands for. -/
def numberIn (base : Nat) (value : Char → Option Nat) (digits : List Char) : Option Nat :=
  digits.foldlM (fun n c => (value c).map (base * n + ·)) 0

end TypeGen.Text
