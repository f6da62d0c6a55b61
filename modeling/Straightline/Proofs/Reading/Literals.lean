import Mathlib.Data.List.Induction
import Mathlib.Data.Nat.Digits.Defs
import Straightline.Ty.Literal

/-!
# Literals of integer types

An integer type reads decimal digits, as long as the number fits (`Ty.literal?_eq_some_iff`). This is what
remains of reading a number of two's complement, where a sign may stand before the digits, once the word has
to begin with a digit (`Ty.literal?_eq_signed`): neither a sign nor a digit of another script gets past the
first character. The digits may be read one by one up to the first that leads beyond the greatest number,
since no further digit leads back (`Decimal.readWithin?_eq`).
-/

set_option autoImplicit false

namespace Straightline

/-! ## Digits -/

namespace Decimal

/-- One more digit, and what a number is then. -/
def push (number : Nat) (digit : Char) : Nat := number * 10 + digitValue digit

theorem le_push (number : Nat) (digit : Char) : number ≤ push number digit := by
  unfold push
  omega

theorem le_foldl_push (number : Nat) (digits : List Char) : number ≤ digits.foldl push number := by
  induction digits generalizing number with
  | nil => exact Nat.le_refl number
  | cons digit rest ih => exact Nat.le_trans (le_push number digit) (ih (push number digit))

/-- The last digit counts ones, the one before it tens, and so on. -/
theorem value_eq_ofDigits (digits : List Char) :
    value digits = Nat.ofDigits 10 (digits.reverse.map digitValue) := by
  induction digits using List.reverseRecOn with
  | nil => rfl
  | append_singleton rest digit ih =>
    have hstep : value (rest ++ [digit]) = value rest * 10 + digitValue digit := by
      simp only [value, List.foldl_append, List.foldl_cons, List.foldl_nil]
    rw [hstep, ih, List.reverse_append, List.reverse_singleton, List.singleton_append, List.map_cons,
      Nat.ofDigits_cons]
    omega

/-- Reads digits on from `number`, and gives up at what is no digit or beyond `limit`. -/
def readWithin? (limit : Nat) : (number : Nat) → List Char → Option Nat
  | number, [] => some number
  | number, digit :: rest =>
    if digit.isDigit ∧ push number digit ≤ limit then readWithin? limit (push number digit) rest
    else none

/-- The first digit that leads beyond the limit is as good as the last. -/
theorem readWithin?_eq {limit number : Nat} (h : number ≤ limit) (digits : List Char) :
    readWithin? limit number digits =
      if digits.all Char.isDigit ∧ digits.foldl push number ≤ limit
        then some (digits.foldl push number) else none := by
  induction digits generalizing number with
  | nil => simp [readWithin?, h]
  | cons digit rest ih =>
    by_cases hdigit : digit.isDigit = true
    · by_cases hle : push number digit ≤ limit
      · simp only [readWithin?, hdigit, hle, and_self, if_true, ih hle, List.all_cons, Bool.true_and,
          List.foldl_cons]
      · have hbeyond : ¬rest.foldl push (push number digit) ≤ limit := fun hrest =>
          hle (Nat.le_trans (le_foldl_push _ rest) hrest)
        simp [readWithin?, hdigit, hle, hbeyond]
    · simp [readWithin?, hdigit]

/-- The number of `bits` bits in two's complement that a text writes: a sign or none, and at least one
digit. A minus reaches one further than a plus. -/
def signed? (bits : Nat) : List Char → Option Int
  | [] => none
  | '-' :: digit :: rest =>
    (readWithin? (2 ^ (bits - 1)) 0 (digit :: rest)).map fun n => -(n : Int)
  | '+' :: digit :: rest => (readWithin? (2 ^ (bits - 1) - 1) 0 (digit :: rest)).map Int.ofNat
  | text => (readWithin? (2 ^ (bits - 1) - 1) 0 text).map Int.ofNat

/-- No digit is a sign. -/
theorem signed?_of_isDigit (bits : Nat) {digit : Char} {rest : List Char} (h : digit.isDigit = true) :
    signed? bits (digit :: rest) =
      (readWithin? (2 ^ (bits - 1) - 1) 0 (digit :: rest)).map Int.ofNat := by
  have hminus : digit ≠ '-' := by
    rintro rfl
    cases h
  have hplus : digit ≠ '+' := by
    rintro rfl
    cases h
  cases rest <;> simp [signed?, hminus, hplus]

end Decimal

/-! ## Literals -/

section Literals

open Decimal (digitValue readWithin? signed?)

/-- The word is a number in decimal digits, and at least one. -/
structure Decimal.Writes (word : String) (n : Int) : Prop where
  nonempty : word ≠ ""
  digits : ∀ c ∈ word.toList, c.isDigit = true
  value : n = (Nat.ofDigits 10 (word.toList.reverse.map digitValue) : Nat)

variable {p : Primitive} {word : String}

/-- What an integer type reads, in one condition. -/
theorem Ty.literal?_eq_ite (h : p.isInteger = true) (word : String) :
    (Ty.primitive p).literal? word =
      if (word.toList ≠ [] ∧ word.toList.all Char.isDigit) ∧
          Decimal.value word.toList ≤ 2 ^ (p.bits - 1) - 1
        then some (Decimal.value word.toList : Int) else none := by
  have htruth : p.isTruth = false := by
    cases p with
    | bool => cases h
    | void | int8 | int16 | int32 | int64 => rfl
  have hpos : 0 < 2 ^ (p.bits - 1) := Nat.pow_pos (by decide)
  have hlt : ∀ n : Nat, n < Nat.pow 2 (p.bits - 1) ↔ n ≤ 2 ^ (p.bits - 1) - 1 := by
    intro n
    rw [Nat.pow_eq]
    omega
  by_cases hwritten : word.toList ≠ [] ∧ word.toList.all Char.isDigit
  · simp only [literal?, htruth, h, if_true, Bool.false_eq_true, if_false, decimal?, Decimal.ofDigits?,
      hwritten, ne_eq, not_false_eq_true, and_self, true_and, hlt]
  · simp only [literal?, htruth, h, if_true, Bool.false_eq_true, if_false, decimal?, Decimal.ofDigits?,
      hwritten, false_and]

/-- An integer type reads the words that begin with a digit, as numbers of two's complement. -/
theorem Ty.literal?_eq_signed (h : p.isInteger = true) (word : String) :
    (Ty.primitive p).literal? word =
      if word.toList.head?.any Char.isDigit then signed? p.bits word.toList else none := by
  rw [literal?_eq_ite h word]
  cases hword : word.toList with
  | nil => simp
  | cons digit rest =>
    by_cases hdigit : digit.isDigit = true
    · rw [Decimal.signed?_of_isDigit p.bits hdigit, Decimal.readWithin?_eq (Nat.zero_le _)]
      simp only [List.head?_cons, Option.any_some, hdigit, if_true, ne_eq, reduceCtorEq, not_false_eq_true,
        true_and, Decimal.value, apply_ite (Option.map Int.ofNat), Option.map_some, Option.map_none]
      rfl
    · simp [hdigit]

/-- The literals of an integer type are the decimal numbers that fit, with as many zeros before them as one
likes. -/
theorem Ty.literal?_eq_some_iff (h : p.isInteger = true) {n : Int} :
    (Ty.primitive p).literal? word = some n ↔ Decimal.Writes word n ∧ n ≤ 2 ^ (p.bits - 1) - 1 := by
  have hpos : 0 < 2 ^ (p.bits - 1) := Nat.pow_pos (by decide)
  have hcast : ((2 ^ (p.bits - 1) : Nat) : Int) = 2 ^ (p.bits - 1) := by push_cast; rfl
  rw [literal?_eq_ite h word, Option.ite_none_right_eq_some, Option.some.injEq]
  constructor
  · rintro ⟨⟨⟨hne, hall⟩, hle⟩, rfl⟩
    refine ⟨⟨fun hempty => hne (String.toList_eq_nil_iff.mpr hempty), List.all_eq_true.mp hall, ?_⟩, by omega⟩
    rw [Decimal.value_eq_ofDigits]
  · rintro ⟨⟨hne, hdigits, rfl⟩, hle⟩
    rw [← Decimal.value_eq_ofDigits] at hle ⊢
    refine ⟨⟨⟨fun hempty => hne (String.toList_eq_nil_iff.mp hempty), List.all_eq_true.mpr hdigits⟩, ?_⟩, rfl⟩
    omega

end Literals

end Straightline
