import Straightline.Proofs.Lowering.Inversion
import Straightline.Proofs.Lowering.Representation

/-!
# Numbers as words

A number and the word for it: what loads read, stores write and arithmetic gives. A word is determined
by its number modulo `2 ^ 32`, or `2 ^ 64` for the widest integers; a narrow integer is sign-extended, so
that the word for it is also what reading its bytes with a sign gives.
-/

set_option autoImplicit false

namespace Straightline

/-- The number that a value is, read with its sign. -/
def Wasm.Val.signed : Wasm.Val → Int
  | .i32 word => Int.bmod word.toNat UInt32.size
  | .i64 word => Int.bmod word.toNat UInt64.size

/-- A number of a width is not cut back. -/
theorem IR.Canonical.bmod_eq {bits : Nat} {n : Int} (hbits : bits ∈ IR.widths) (hone : bits ≠ 1)
    (h : IR.Canonical bits n) : n.bmod (Nat.pow 2 bits) = n := by
  rw [IR.Canonical, if_neg hone] at h
  obtain ⟨hlow, hhigh⟩ := h
  rcases IR.mem_widths.mp hbits with rfl | rfl | rfl | rfl | rfl
  · exact absurd rfl hone
  all_goals
    simp only [Nat.pow_eq] at hlow hhigh ⊢
    exact Int.bmod_eq_of_le (by omega) (by omega)

namespace Lowering

open IR (Address Canonical Datum mem_widths widths)
open Wasm (Instr Val bytesOf ofBytes)

/-! ## Words modulo their size -/

theorem ofInt32_eq {a b : Int} (h : a % 2 ^ 32 = b % 2 ^ 32) : UInt32.ofInt a = UInt32.ofInt b := by
  unfold UInt32.ofInt
  rw [h]

theorem ofInt64_eq {a b : Int} (h : a % 2 ^ 64 = b % 2 ^ 64) : UInt64.ofInt a = UInt64.ofInt b := by
  unfold UInt64.ofInt
  rw [h]

theorem toNat_ofInt32 (n : Int) : ((UInt32.ofInt n).toNat : Int) = n % 2 ^ 32 := by
  have hnonneg := Int.emod_nonneg n (by decide : (2 : Int) ^ 32 ≠ 0)
  have hlt := Int.emod_lt_of_pos n (by decide : (0 : Int) < 2 ^ 32)
  unfold UInt32.ofInt
  rw [UInt32.toNat_ofNat', Nat.mod_eq_of_lt (by omega), Int.toNat_of_nonneg hnonneg]

theorem toNat_ofInt64 (n : Int) : ((UInt64.ofInt n).toNat : Int) = n % 2 ^ 64 := by
  have hnonneg := Int.emod_nonneg n (by decide : (2 : Int) ^ 64 ≠ 0)
  have hlt := Int.emod_lt_of_pos n (by decide : (0 : Int) < 2 ^ 64)
  unfold UInt64.ofInt
  rw [UInt64.toNat_ofNat', Nat.mod_eq_of_lt (by omega), Int.toNat_of_nonneg hnonneg]

theorem ofNat32_eq (n : Nat) : UInt32.ofNat n = UInt32.ofInt n := by
  rw [← UInt32.toNat_inj, UInt32.toNat_ofNat']
  have := toNat_ofInt32 n
  omega

theorem ofNat64_eq (n : Nat) : UInt64.ofNat n = UInt64.ofInt n := by
  rw [← UInt64.toNat_inj, UInt64.toNat_ofNat']
  have := toNat_ofInt64 n
  omega

theorem ofInt32_toNat (a : UInt32) : UInt32.ofInt a.toNat = a := by
  rw [← ofNat32_eq, UInt32.ofNat_toNat]

theorem ofInt32_sub (a b : Int) : UInt32.ofInt (a - b) = UInt32.ofInt a - UInt32.ofInt b := by
  have hadd := UInt32.ofInt_add (a - b) b
  rw [Int.sub_add_cancel] at hadd
  rw [hadd, UInt32.add_sub_cancel]

theorem ofInt64_sub (a b : Int) : UInt64.ofInt (a - b) = UInt64.ofInt a - UInt64.ofInt b := by
  have hadd := UInt64.ofInt_add (a - b) b
  rw [Int.sub_add_cancel] at hadd
  rw [hadd, UInt64.add_sub_cancel]

/-- A sum of addresses that does not wrap. -/
theorem toNat_add32 {a b : UInt32} (h : a.toNat + b.toNat < UInt32.size) :
    (a + b).toNat = a.toNat + b.toNat := by
  rw [UInt32.toNat_add]
  exact Nat.mod_eq_of_lt h

/-! ## Reading and writing -/

section Access

variable {points : Address → IRType → Nat → Prop} {ty : IRType} {d : Datum} {n : Int}
variable {m : IR.Module}

/-- The number is what its bytes are read as. -/
theorem value_load (h : Numbered points ty d n) {code : List Instr} (hcode : loadScalar ty = .ok code) :
    ∃ access : Wasm.Load, code = [.load access 0] ∧ access.width = m.sizeOf ty ∧
      access.value (ofBytes (littleEndian n (m.sizeOf ty))) = word ty n := by
  have hbytes : ∀ width, (ofBytes (littleEndian n width) : Int) = n % 256 ^ width :=
    fun width => Wasm.ofBytes_littleEndian n
  cases h with
  | ptr _ hlt =>
    cases hcode
    refine ⟨.i32, rfl, rfl, ?_⟩
    refine congrArg Val.i32 ((ofNat32_eq _).trans (ofInt32_eq ?_))
    rw [hbytes]
    exact Int.emod_emod _ _
  | int hbits hn =>
    rcases mem_widths.mp hbits with rfl | rfl | rfl | rfl | rfl <;> cases hcode
    · refine ⟨.unsigned8, rfl, rfl, congrArg Val.i32 ((ofNat32_eq _).trans (ofInt32_eq ?_))⟩
      rw [hbytes]
      rcases hn with rfl | rfl <;> rfl
    · refine ⟨.signed8, rfl, rfl, congrArg Val.i32 (congrArg UInt32.ofInt ?_)⟩
      rw [hbytes]
      exact (Int.emod_bmod n 256).trans (hn.bmod_eq hbits (by decide))
    · refine ⟨.signed16, rfl, rfl, congrArg Val.i32 (congrArg UInt32.ofInt ?_)⟩
      rw [hbytes]
      exact (Int.emod_bmod n 65536).trans (hn.bmod_eq hbits (by decide))
    · refine ⟨.i32, rfl, rfl, congrArg Val.i32 ((ofNat32_eq _).trans (ofInt32_eq ?_))⟩
      rw [hbytes]
      exact Int.emod_emod _ _
    · refine ⟨.i64, rfl, rfl, congrArg Val.i64 ((ofNat64_eq _).trans (ofInt64_eq ?_))⟩
      rw [hbytes]
      exact Int.emod_emod _ _

/-- The bytes that are written are those of the number. -/
theorem bytes_store (h : Numbered points ty d n) {offset : UInt32} {code : List Instr}
    (hcode : storeScalar offset ty = .ok code) :
    ∃ access : Wasm.Store, code = [.store access offset] ∧ (word ty n).type = access.operand ∧
      bytesOf (word ty n).toNat access.width = littleEndian n (m.sizeOf ty) := by
  have hlow : ∀ width ≤ 4, bytesOf (UInt32.ofInt n).toNat width = littleEndian n width := by
    intro width hwidth
    refine (Wasm.littleEndian_eq ?_).symm
    rw [toNat_ofInt32, Int.emod_emod_of_dvd]
    exact pow_dvd_pow (256 : Int) hwidth
  cases h with
  | ptr =>
    cases hcode
    exact ⟨.i32, rfl, rfl, hlow 4 (by decide)⟩
  | int hbits hn =>
    rcases mem_widths.mp hbits with rfl | rfl | rfl | rfl | rfl <;> cases hcode
    · exact ⟨.low8, rfl, rfl, hlow 1 (by decide)⟩
    · exact ⟨.low8, rfl, rfl, hlow 1 (by decide)⟩
    · exact ⟨.low16, rfl, rfl, hlow 2 (by decide)⟩
    · exact ⟨.i32, rfl, rfl, hlow 4 (by decide)⟩
    · refine ⟨.i64, rfl, rfl, (Wasm.littleEndian_eq ?_).symm⟩
      exact ((congrArg (· % (256 : Int) ^ 8) (toNat_ofInt64 n)).trans (Int.emod_emod _ _)).symm

end Access

/-! ## Arithmetic -/

/-- A result that is cut back is canonical. -/
theorem canonical_bmod {bits : Nat} (hbits : bits ∈ widths) (hwide : bits ≠ 1) (n : Int) :
    Canonical bits (n.bmod (Nat.pow 2 bits)) := by
  have hpos : 0 < Nat.pow 2 bits := Nat.pow_pos (by decide)
  have hlow := Int.le_bmod (x := n) hpos
  have hhigh := Int.bmod_lt (x := n) hpos
  unfold Canonical
  rw [if_neg hwide]
  rcases mem_widths.mp hbits with rfl | rfl | rfl | rfl | rfl
  · exact absurd rfl hwide
  all_goals
    simp only [Nat.pow_eq] at hlow hhigh ⊢
    omega

theorem bmod_emod_of_dvd {n k : Int} {width : Nat} (h : (width : Int) ∣ k) :
    (n % k).bmod width = n.bmod width := by
  rw [← Int.emod_bmod, Int.emod_emod_of_dvd _ h, Int.emod_bmod]

/-- The widest word is not cut back. -/
theorem ofInt64_bmod (n : Int) : UInt64.ofInt (n.bmod (Nat.pow 2 64)) = UInt64.ofInt n := by
  have hpow : ((2 ^ 64 : Nat) : Int) = 2 ^ 64 := by norm_num
  refine ofInt64_eq ?_
  rw [Nat.pow_eq, ← hpow]
  exact Int.bmod_emod

/-- What `narrow` makes of a word that is right modulo its size. -/
def narrowed (ty : IRType) (a : UInt32) : UInt32 :=
  match ty with
  | .int bits =>
    if bits = 1 then a &&& 1
    else if bits = 8 then UInt32.ofInt (Int.bmod a.toNat 256)
    else if bits = 16 then UInt32.ofInt (Int.bmod a.toNat 65536)
    else a
  | _ => a

theorem narrowed_ofInt {bits : Nat} (hbits : bits ∈ widths) (hwide : bits ≠ 1) (hlong : bits ≠ 64)
    (n : Int) : narrowed (.int bits) (UInt32.ofInt n) = UInt32.ofInt (n.bmod (Nat.pow 2 bits)) := by
  rcases mem_widths.mp hbits with rfl | rfl | rfl | rfl | rfl
  · exact absurd rfl hwide
  · refine congrArg UInt32.ofInt ?_
    rw [toNat_ofInt32]
    exact bmod_emod_of_dvd (by decide)
  · refine congrArg UInt32.ofInt ?_
    rw [toNat_ofInt32]
    exact bmod_emod_of_dvd (by decide)
  · exact ofInt32_eq (Int.bmod_emod (m := 2 ^ 32)).symm
  · exact absurd rfl hlong

/-! ## Reading a word with its sign -/

theorem signed_ofInt32 (n : Int) : (Val.i32 (UInt32.ofInt n)).signed = n.bmod UInt32.size := by
  change Int.bmod ((UInt32.ofInt n).toNat : Int) UInt32.size = _
  rw [toNat_ofInt32]
  exact bmod_emod_of_dvd (by decide)

theorem signed_ofInt64 (n : Int) : (Val.i64 (UInt64.ofInt n)).signed = n.bmod UInt64.size := by
  change Int.bmod ((UInt64.ofInt n).toNat : Int) UInt64.size = _
  rw [toNat_ofInt64]
  exact bmod_emod_of_dvd (by decide)

/-- A word is the one for the number that it is read as. -/
theorem ofInt32_signed (a : UInt32) : UInt32.ofInt (Val.i32 a).signed = a := by
  have hmod : Int.bmod a.toNat UInt32.size % 2 ^ 32 = a.toNat % 2 ^ 32 :=
    Int.bmod_emod (x := a.toNat) (m := UInt32.size)
  exact (ofInt32_eq hmod).trans (ofInt32_toNat a)

theorem ofInt64_signed (a : UInt64) : UInt64.ofInt (Val.i64 a).signed = a := by
  have hmod : Int.bmod a.toNat UInt64.size % 2 ^ 64 = a.toNat % 2 ^ 64 :=
    Int.bmod_emod (x := a.toNat) (m := UInt64.size)
  refine (ofInt64_eq hmod).trans ?_
  rw [← ofNat64_eq, UInt64.ofNat_toNat]

theorem type_word (bits : Nat) (n : Int) : (word (.int bits) n).type = valType (.int bits) := by
  simp only [word, valType, IRType.int.injEq]
  split <;> rfl

/-- A number is what the word for it is, read with its sign. -/
theorem signed_word {bits : Nat} {n : Int} (hbits : bits ∈ widths) (hn : Canonical bits n) :
    (word (.int bits) n).signed = n := by
  rcases mem_widths.mp hbits with rfl | rfl | rfl | rfl | rfl
  · refine (signed_ofInt32 n).trans ?_
    rcases hn with rfl | rfl <;> decide
  all_goals
    obtain ⟨hlow, hhigh⟩ := hn
    simp only [Nat.pow_eq] at hlow hhigh
  case inr.inr.inr.inr =>
    refine (signed_ofInt64 n).trans (Int.bmod_eq_of_le ?_ ?_) <;> unfold UInt64.size <;> omega
  all_goals
    refine (signed_ofInt32 n).trans (Int.bmod_eq_of_le ?_ ?_) <;> unfold UInt32.size <;> omega

/-- A word of the right type that is read as a number is the word for it. -/
theorem eq_word_of_signed {bits : Nat} {n : Int} {v : Val} (htype : v.type = valType (.int bits))
    (hsigned : v.signed = n) : v = word (.int bits) n := by
  subst hsigned
  have hword : valType (.int bits) = if bits = 64 then .i64 else .i32 := rfl
  rw [hword] at htype
  by_cases hlong : bits = 64
  · subst hlong
    cases v with
    | i32 => cases htype
    | i64 a => exact congrArg Val.i64 (ofInt64_signed a).symm
  · rw [if_neg hlong] at htype
    have hne : IRType.int bits ≠ .int 64 := fun he => hlong (IRType.int.inj he)
    rw [word, if_neg hne]
    cases v with
    | i32 a => exact congrArg Val.i32 (ofInt32_signed a).symm
    | i64 => cases htype

/-- What a load gives is the number that was read, up to multiples. -/
theorem signed_value (access : Wasm.Load) (k : Nat) :
    (access.value k).signed % 256 ^ access.width = (k : Int) % 256 ^ access.width := by
  have hcut : ∀ {n : Int} {size : Nat} (width : Nat), (256 : Int) ^ width ∣ size →
      n.bmod size % 256 ^ width = n % 256 ^ width := by
    intro n size width hdvd
    rw [← Int.emod_emod_of_dvd _ hdvd, Int.bmod_emod, Int.emod_emod_of_dvd _ hdvd]
  cases access with
  | unsigned8 =>
    rw [Wasm.Load.value, ofNat32_eq, signed_ofInt32]
    exact hcut 1 (by decide)
  | signed8 =>
    rw [Wasm.Load.value, signed_ofInt32]
    exact (hcut 1 (by decide)).trans (hcut 1 (by decide))
  | signed16 =>
    rw [Wasm.Load.value, signed_ofInt32]
    exact (hcut 2 (by decide)).trans (hcut 2 (by decide))
  | i32 =>
    rw [Wasm.Load.value, ofNat32_eq, signed_ofInt32]
    exact hcut 4 (by decide)
  | i64 =>
    rw [Wasm.Load.value, ofNat64_eq, signed_ofInt64]
    exact hcut 8 (by decide)

/-- The bytes are those of the number that they are read as. -/
theorem bytes_eq_of_signed {access : Wasm.Load} {bytes : List UInt8} {n : Int}
    (hlength : bytes.length = access.width) (h : (access.value (ofBytes bytes)).signed = n) :
    bytes = littleEndian n access.width := by
  subst h
  rw [Wasm.littleEndian_eq (signed_value access (ofBytes bytes)), ← hlength, Wasm.bytesOf_ofBytes]

end Lowering

end Straightline
