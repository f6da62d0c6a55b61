import Straightline.Source.Decimal
import Straightline.Ty.Basic

/-!
# Literals

A literal is a word that a type reads as a constant: `true` and `false` for truth values, decimal
digits for the integer types, as long as the number fits. There is no sign: a negative number is the
result of a subtraction.
-/

set_option autoImplicit false

namespace Straightline

namespace Ty

/-- The constant that `word` stands for as a value of `ty`. -/
def literal? (ty : Ty) (word : String) : Option Int :=
  match ty with
  | .primitive p =>
    if p.isTruth then
      if word = "true" then some 1 else if word = "false" then some 0 else none
    else if p.isInteger then
      match decimal? word with
      | some n => if n < Nat.pow 2 (p.bits - 1) then some n else none
      | none => none
    else none
  | .aggregate .. => none

end Ty

/-- Whether `word` looks like a literal of some type: it begins with a digit or is a truth value. -/
def looksLikeLiteral (word : String) : Bool :=
  word.toList.head?.any Char.isDigit || word = "true" || word = "false"

end Straightline
