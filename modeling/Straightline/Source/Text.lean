/-!
# Text of a run of bytes

A source is bytes, a name in it is text. `Text.ofBytes` reads UTF-8 and never fails: every maximal
prefix of a sequence that cannot be completed becomes one U+FFFD, and reading goes on at the byte
that broke it. Which bytes may follow which is the table of well-formed sequences in the Unicode
standard; the only irregular entries are the second bytes after `E0`, `ED`, `F0` and `F4`, which
keep out overlong forms, surrogates and code points above U+10FFFF.
-/

set_option autoImplicit false

namespace Straightline.Text

/-- What stands for bytes that are no text. -/
def replacement : Char := '\uFFFD'

/-- A sequence that has begun: the bits read so far, the range its next byte must lie in, and how
many bytes follow that one. -/
structure Pending where
  bits : Nat
  low : UInt8
  high : UInt8
  more : Nat
deriving DecidableEq, Repr

/-- Reads the first byte of a sequence: a character of its own, the start of a longer sequence, or
a byte that no sequence starts with. -/
def lead (b : UInt8) : List Char × Option Pending :=
  if b < 0x80 then ([Char.ofNat b.toNat], none)
  else if b < 0xC2 then ([replacement], none)
  else if b < 0xE0 then ([], some ⟨b.toNat % 32, 0x80, 0xBF, 0⟩)
  else if b == 0xE0 then ([], some ⟨0, 0xA0, 0xBF, 1⟩)
  else if b == 0xED then ([], some ⟨13, 0x80, 0x9F, 1⟩)
  else if b < 0xF0 then ([], some ⟨b.toNat % 16, 0x80, 0xBF, 1⟩)
  else if b == 0xF0 then ([], some ⟨0, 0x90, 0xBF, 2⟩)
  else if b < 0xF4 then ([], some ⟨b.toNat % 8, 0x80, 0xBF, 2⟩)
  else if b == 0xF4 then ([], some ⟨4, 0x80, 0x8F, 2⟩)
  else ([replacement], none)

/-- The characters of `bytes`, read after the sequence that `pending` has begun. -/
def decode : Option Pending → List UInt8 → List Char
  | none, [] => []
  | some _, [] => [replacement]
  | none, b :: rest => (lead b).1 ++ decode (lead b).2 rest
  | some p, b :: rest =>
    if p.low ≤ b ∧ b ≤ p.high then
      let bits := p.bits * 64 + b.toNat % 64
      match p.more with
      | 0 => Char.ofNat bits :: decode none rest
      | more + 1 => decode (some ⟨bits, 0x80, 0xBF, more⟩) rest
    else replacement :: ((lead b).1 ++ decode (lead b).2 rest)

/-- The text of `bytes`. -/
def ofBytes (bytes : List UInt8) : String := String.ofList (decode none bytes)

end Straightline.Text
