/-!
# Integers of variable length

Seven bits to a byte, lowest first, and the high bit of every byte but the last is set. Both forms
are the shortest ones: the unsigned form ends when nothing is left, the signed form when what is
left repeats the sign bit of the last byte.
-/

set_option autoImplicit false

namespace Straightline.Wasm.Leb128

def unsigned (n : Nat) : List UInt8 :=
  if n < 128 then [n.toUInt8] else (n % 128 + 128).toUInt8 :: unsigned (n / 128)
termination_by n
decreasing_by omega

def signed (n : Int) : List UInt8 :=
  if -64 ≤ n ∧ n < 64 then [(n % 128).toNat.toUInt8]
  else ((n % 128).toNat + 128).toUInt8 :: signed (n / 128)
termination_by n.natAbs
decreasing_by omega

end Straightline.Wasm.Leb128
