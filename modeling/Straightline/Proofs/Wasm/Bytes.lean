import Mathlib.Algebra.Order.Ring.Int
import Mathlib.Tactic.Positivity
import Mathlib.Tactic.Ring
import Straightline.Lowering.Data
import Straightline.Proofs.Wasm.Semantics

/-!
# Bytes

Reading bytes from a place and writing others over them, and the number that bytes make up. A number in
two's complement (`Lowering.littleEndian`) has the bytes of every natural number that is the same modulo
the power of two in question.
-/

set_option autoImplicit false

namespace Straightline.Wasm

open Lowering (littleEndian)

variable {byte byte' : Nat → UInt8} {a a' width : Nat} {bytes : List UInt8}

/-! ## Reading and writing -/

@[simp] theorem length_bytesAt : (bytesAt byte a width).length = width := by
  induction width generalizing a with
  | zero => rfl
  | succ width ih => rw [bytesAt, List.length_cons, ih]

theorem getElem?_bytesAt {i : Nat} (h : i < width) :
    (bytesAt byte a width)[i]? = some (byte (a + i)) := by
  induction width generalizing a i with
  | zero => omega
  | succ width ih =>
    cases i with
    | zero => rfl
    | succ i =>
      rw [bytesAt, List.getElem?_cons_succ, ih (by omega), Nat.add_assoc, Nat.add_comm 1 i]

/-- The bytes at a place are those of a list if each of them is. -/
theorem bytesAt_eq (h : ∀ i < bytes.length, some (byte (a + i)) = bytes[i]?) :
    bytesAt byte a bytes.length = bytes := by
  refine List.ext_getElem? fun i => ?_
  by_cases hi : i < bytes.length
  · rw [getElem?_bytesAt hi, h i hi]
  · rw [List.getElem?_eq_none (by simpa using hi), List.getElem?_eq_none (by simpa using hi)]

theorem bytesAt_congr (h : ∀ i < width, byte' (a' + i) = byte (a + i)) :
    bytesAt byte' a' width = bytesAt byte a width := by
  have hlength : width = (bytesAt byte a width).length := length_bytesAt.symm
  conv => lhs; rw [hlength]
  refine bytesAt_eq fun i hi => ?_
  rw [length_bytesAt] at hi
  rw [getElem?_bytesAt hi, h i hi]

theorem overlay_outside {x : Nat} (h : x < a ∨ a + bytes.length ≤ x) :
    overlay byte a bytes x = byte x := by
  unfold overlay
  split
  · rw [List.getElem?_eq_none (by omega)]
    rfl
  · rfl

theorem overlay_inside {i : Nat} (h : i < bytes.length) :
    overlay byte a bytes (a + i) = bytes[i] := by
  unfold overlay
  rw [if_pos (Nat.le_add_right _ _), Nat.add_sub_cancel_left, List.getElem?_eq_getElem h]
  rfl

theorem bytesAt_overlay : bytesAt (overlay byte a bytes) a bytes.length = bytes :=
  bytesAt_eq fun i hi => by rw [overlay_inside hi, List.getElem?_eq_getElem hi]

/-! ## Numbers -/

@[simp] theorem length_bytesOf {n : Nat} : (bytesOf n width).length = width := by
  induction width generalizing n with
  | zero => rfl
  | succ width ih => rw [bytesOf, List.length_cons, ih]

theorem length_littleEndian {n : Int} : (littleEndian n width).length = width := by
  induction width generalizing n with
  | zero => rfl
  | succ width ih => rw [littleEndian, List.length_cons, ih]

theorem littleEndian_natCast (n : Nat) : littleEndian n width = bytesOf n width := by
  induction width generalizing n with
  | zero => rfl
  | succ width ih =>
    rw [littleEndian, bytesOf, ← ih]
    rfl

/-- Multiples of the power of two are not seen. -/
theorem littleEndian_add_mul (n z : Int) :
    littleEndian (n + 256 ^ width * z) width = littleEndian n width := by
  induction width generalizing n with
  | zero => rfl
  | succ width ih =>
    have hpow : (256 : Int) ^ (width + 1) * z = 256 * (256 ^ width * z) := by ring
    rw [littleEndian, littleEndian, hpow, Int.add_mul_emod_self_left,
      Int.add_mul_ediv_left _ _ (by decide), ih]

/-- The bytes of an integer are those of every number that it differs from by a multiple. -/
theorem littleEndian_eq {n : Int} {k : Nat} (h : n % 256 ^ width = k % 256 ^ width) :
    littleEndian n width = bytesOf k width := by
  have hn := Int.emod_add_mul_ediv n (256 ^ width)
  have hk := Int.emod_add_mul_ediv k (256 ^ width)
  rw [← littleEndian_natCast, ← hn, ← hk, littleEndian_add_mul, littleEndian_add_mul, h]

theorem ofBytes_bytesOf (n : Nat) : ofBytes (bytesOf n width) = n % 256 ^ width := by
  induction width generalizing n with
  | zero => rw [bytesOf, ofBytes, Nat.pow_zero, Nat.mod_one]
  | succ width ih =>
    have hbyte : (n % 256).toUInt8.toNat = n % 256 :=
      Nat.mod_eq_of_lt (Nat.mod_lt _ (by decide))
    rw [bytesOf, ofBytes, hbyte, ih, Nat.pow_succ, Nat.mul_comm, Nat.mul_comm (256 ^ width),
      Nat.mod_mul, Nat.mul_comm]

/-- The bytes of the number that bytes make up are these bytes. -/
theorem bytesOf_ofBytes (bytes : List UInt8) : bytesOf (ofBytes bytes) bytes.length = bytes := by
  induction bytes with
  | nil => rfl
  | cons first rest ih =>
    have hlt := first.toNat_lt
    have hmod : (first.toNat + 256 * ofBytes rest) % 256 = first.toNat := by omega
    have hdiv : (first.toNat + 256 * ofBytes rest) / 256 = ofBytes rest := by omega
    rw [ofBytes, List.length_cons, bytesOf, hmod, hdiv, ih]
    simp

/-- Reading the bytes of an integer gives the least number that they are those of. -/
theorem ofBytes_littleEndian (n : Int) :
    (ofBytes (littleEndian n width) : Int) = n % 256 ^ width := by
  have hpos : (0 : Int) < 256 ^ width := by positivity
  have hnonneg := Int.emod_nonneg n hpos.ne'
  obtain ⟨k, hk⟩ := Int.eq_ofNat_of_zero_le hnonneg
  rw [littleEndian_eq (k := k) (by rw [← hk, Int.emod_emod]), ofBytes_bytesOf]
  push_cast
  rw [← hk, Int.emod_emod]

end Straightline.Wasm
