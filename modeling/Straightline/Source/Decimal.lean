/-!
# Decimal numbers

A number is written with the ten ASCII digits and nothing else: no sign, no separators, and leading
zeros as many as one likes.
-/

set_option autoImplicit false

namespace Straightline

namespace Decimal

/-- What a digit stands for. -/
def digitValue (digit : Char) : Nat := digit.toNat - '0'.toNat

/-- The number that a run of digits stands for, the first of them weighing most. -/
def value (digits : List Char) : Nat :=
  digits.foldl (fun number digit => number * 10 + digitValue digit) 0

/-- The number that `digits` write, if they are digits and at least one. -/
def ofDigits? (digits : List Char) : Option Nat :=
  if digits ≠ [] ∧ digits.all Char.isDigit then some (value digits) else none

end Decimal

/-- The number that a word writes. -/
def decimal? (word : String) : Option Nat := Decimal.ofDigits? word.toList

end Straightline
