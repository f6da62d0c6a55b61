import Straightline.Proofs.Reading.Names

/-!
# Names in UTF-8

A name is text and a source is bytes. `Text.toBytes` writes a text in UTF-8, and reading what it
wrote gives the text back (`Text.ofBytes_toBytes`). A text is a word (`IsWord`) if its bytes are read
as one: there are some, and none of them ends a word. Every name that a reader took out of a source
is a word, whatever bytes it was spelled with (`Scan.isWord_nonemptyWord`).
-/

set_option autoImplicit false

namespace Straightline

namespace Text

/-- The bytes of a text in UTF-8. -/
def toBytes (text : String) : List UInt8 := text.toUTF8.data.toList

theorem toBytes_eq (text : String) :
    toBytes text = text.toList.flatMap String.utf8EncodeChar := by
  have h := congrArg String.toByteArray (String.ofList_toList (s := text))
  rw [String.toByteArray_ofList] at h
  rw [toBytes, String.toUTF8, ← h, List.utf8Encode, List.data_toByteArray]

/-! ## Sequences that have begun -/

/-- A byte after the first of a sequence, with the last six bits of `n`. -/
def continuation (n : Nat) : UInt8 := UInt8.ofNat (n % 64 + 128)

theorem toNat_continuation (n : Nat) : (continuation n).toNat = n % 64 + 128 := by
  rw [continuation, UInt8.toNat_ofNat']
  omega

/-- The next byte completes the bits to `n`, and `more` bytes follow it. -/
structure Pending.Awaits (p : Pending) (n more : Nat) : Prop where
  bits : p.bits = n / 64
  more : p.more = more
  low : p.low.toNat ≤ n % 64 + 128
  high : n % 64 + 128 ≤ p.high.toNat

section Decoding

variable {p : Pending} {n : Nat} {rest : List UInt8}

theorem Pending.Awaits.admits {more : Nat} (h : p.Awaits n more) :
    (p.low ≤ continuation n ∧ continuation n ≤ p.high)
      ∧ p.bits * 64 + (continuation n).toNat % 64 = n := by
  have hbits := h.bits
  refine ⟨⟨?_, ?_⟩, ?_⟩
  · rw [UInt8.le_iff_toNat_le, toNat_continuation]
    exact h.low
  · rw [UInt8.le_iff_toNat_le, toNat_continuation]
    exact h.high
  · rw [toNat_continuation]
    omega

theorem decode_last (h : p.Awaits n 0) :
    decode (some p) (continuation n :: rest) = Char.ofNat n :: decode none rest := by
  obtain ⟨hrange, hbits⟩ := h.admits
  simp only [decode, if_pos hrange, hbits, h.more]

theorem decode_next (rest : List UInt8) {more : Nat} (h : p.Awaits (n / 64) (more + 1)) :
    ∃ q : Pending, q.Awaits n more
      ∧ decode (some p) (continuation (n / 64) :: rest) = decode (some q) rest := by
  obtain ⟨hrange, hbits⟩ := h.admits
  refine ⟨⟨n / 64, 0x80, 0xBF, more⟩, ⟨rfl, rfl, ?_, ?_⟩, ?_⟩
  · simp only [UInt8.reduceToNat]
    omega
  · simp only [UInt8.reduceToNat]
    omega
  · simp only [decode, if_pos hrange, hbits, h.more]

/-- A byte that only begins a sequence gives no character yet. -/
theorem decode_lead {b : UInt8} (h : lead b = ([], some p)) :
    decode none (b :: rest) = decode (some p) rest := by
  simp only [decode, h, List.nil_append]

end Decoding

/-! ## First bytes -/

section Leading

variable {n : Nat}

theorem lead_one (h : n < 0x80) : lead (UInt8.ofNat n) = ([Char.ofNat n], none) := by
  have hb : (UInt8.ofNat n).toNat = n := by
    rw [UInt8.toNat_ofNat']
    omega
  unfold lead
  simp only [UInt8.lt_iff_toNat_lt, UInt8.reduceToNat, hb, if_pos h]

theorem lead_two (hlow : 0x80 ≤ n) (hhigh : n < 0x800) :
    ∃ p : Pending, lead (UInt8.ofNat (n / 64 % 32 + 192)) = ([], some p) ∧ p.Awaits n 0 := by
  have hb : (UInt8.ofNat (n / 64 % 32 + 192)).toNat = n / 64 + 192 := by
    rw [UInt8.toNat_ofNat']
    omega
  unfold lead
  simp only [beq_iff_eq, UInt8.lt_iff_toNat_lt, UInt8.reduceToNat, ← UInt8.toNat_inj, hb]
  rw [if_neg (by omega), if_neg (by omega), if_pos (by omega)]
  refine ⟨_, rfl, ?_, rfl, ?_, ?_⟩ <;> simp only [UInt8.reduceToNat] <;> omega

/-- The second bytes after `E0` and `ED` keep out overlong forms and surrogates. -/
theorem lead_three (hlow : 0x800 ≤ n) (hhigh : n < 0x10000) (hvalid : n < 0xD800 ∨ 0xDFFF < n) :
    ∃ p : Pending,
      lead (UInt8.ofNat (n / 4096 % 16 + 224)) = ([], some p) ∧ p.Awaits (n / 64) 1 := by
  have hb : (UInt8.ofNat (n / 4096 % 16 + 224)).toNat = n / 4096 + 224 := by
    rw [UInt8.toNat_ofNat']
    omega
  unfold lead
  simp only [beq_iff_eq, UInt8.lt_iff_toNat_lt, UInt8.reduceToNat, ← UInt8.toNat_inj, hb]
  rw [if_neg (by omega), if_neg (by omega), if_neg (by omega)]
  repeat' split
  all_goals first
    | omega
    | refine ⟨_, rfl, ?_, rfl, ?_, ?_⟩ <;> simp only [UInt8.reduceToNat] <;> omega

/-- The second bytes after `F0` and `F4` keep out overlong forms and what is no code point. -/
theorem lead_four (hlow : 0x10000 ≤ n) (hhigh : n < 0x110000) :
    ∃ p : Pending,
      lead (UInt8.ofNat (n / 262144 % 8 + 240)) = ([], some p) ∧ p.Awaits (n / 64 / 64) 2 := by
  have hb : (UInt8.ofNat (n / 262144 % 8 + 240)).toNat = n / 262144 + 240 := by
    rw [UInt8.toNat_ofNat']
    omega
  unfold lead
  simp only [beq_iff_eq, UInt8.lt_iff_toNat_lt, UInt8.reduceToNat, ← UInt8.toNat_inj, hb]
  rw [if_neg (by omega), if_neg (by omega), if_neg (by omega), if_neg (by omega), if_neg (by omega),
    if_neg (by omega)]
  repeat' split
  all_goals first
    | omega
    | refine ⟨_, rfl, ?_, rfl, ?_, ?_⟩ <;> simp only [UInt8.reduceToNat] <;> omega

end Leading

/-! ## Whole texts -/

/-- The bytes of a character are read as that character, whatever follows. -/
theorem decode_encoded (c : Char) (rest : List UInt8) :
    decode none (String.utf8EncodeChar c ++ rest) = c :: decode none rest := by
  obtain ⟨n, hn⟩ : ∃ n, c.val.toNat = n := ⟨_, rfl⟩
  have hvalid : n < 0xD800 ∨ 0xDFFF < n ∧ n < 0x110000 := hn ▸ c.valid
  have hchar : Char.ofNat n = c := hn ▸ Char.ofNat_toNat c
  unfold String.utf8EncodeChar
  simp only [hn]
  split
  · rename_i hone
    simp only [List.cons_append, List.nil_append, decode, lead_one (show n < 0x80 by omega), hchar]
  split
  · rename_i htwo
    obtain ⟨p, hlead, hp⟩ := lead_two (n := n) (by omega) (by omega)
    rw [List.cons_append, decode_lead hlead]
    exact hchar ▸ decode_last hp
  split
  · rename_i hthree
    obtain ⟨p, hlead, hp⟩ := lead_three (n := n) (by omega) (by omega) (by omega)
    rw [List.cons_append, decode_lead hlead]
    obtain ⟨q, hq, hnext⟩ := decode_next (continuation n :: rest) hp
    exact hchar ▸ hnext.trans (decode_last hq)
  · obtain ⟨p, hlead, hp⟩ := lead_four (n := n) (by omega) (by omega)
    rw [List.cons_append, decode_lead hlead]
    obtain ⟨q, hq, hnext⟩ := decode_next (continuation (n / 64) :: continuation n :: rest) hp
    obtain ⟨r, hr, hnext'⟩ := decode_next (continuation n :: rest) hq
    rw [show n / 4096 = n / 64 / 64 by omega]
    exact hchar ▸ hnext.trans (hnext'.trans (decode_last hr))

/-- Reading what was written gives the text back. -/
theorem ofBytes_toBytes (text : String) : ofBytes (toBytes text) = text := by
  have hdecode : ∀ cs : List Char, decode none (cs.flatMap String.utf8EncodeChar) = cs := by
    intro cs
    induction cs with
    | nil => rfl
    | cons c cs ih => rw [List.flatMap_cons, decode_encoded, ih]
  rw [ofBytes, toBytes_eq, hdecode, String.ofList_toList]

/-- A first byte gives a character or begins a sequence. -/
theorem lead_ne (b : UInt8) : (lead b).1 ≠ [] ∨ (lead b).2 ≠ none := by
  unfold lead
  repeat' split
  all_goals simp

/-- Bytes are read as some text, if there are any. -/
theorem decode_ne_nil {p : Option Pending} {bytes : List UInt8} (h : p ≠ none ∨ bytes ≠ []) :
    decode p bytes ≠ [] := by
  induction bytes generalizing p with
  | nil =>
    cases p with
    | none => simp at h
    | some p => simp [decode]
  | cons b rest ih =>
    have hlead : (lead b).1 ++ decode (lead b).2 rest ≠ [] := by
      intro hnil
      rw [List.append_eq_nil_iff] at hnil
      rcases lead_ne b with hone | hsome
      · exact hone hnil.1
      · exact ih (.inl hsome) hnil.2
    cases p with
    | none => exact hlead
    | some p =>
      simp only [decode]
      split
      · split
        · simp
        · exact ih (.inl (by simp))
      · simp

/-- A byte below 128 stands in a text only as the character that it names. -/
theorem mem_of_mem_toBytes {text : String} {b : UInt8} (hb : b ∈ toBytes text) (hlt : b.toNat < 128) :
    Byte.toChar b ∈ text.toList := by
  rw [toBytes_eq, List.mem_flatMap] at hb
  obtain ⟨c, hc, hb⟩ := hb
  suffices hcode : c.val.toNat = b.toNat by
    rw [Byte.toChar, ← hcode]
    exact (Char.ofNat_toNat c).symm ▸ hc
  unfold String.utf8EncodeChar at hb
  simp only at hb
  repeat' split at hb
  all_goals
    simp only [List.mem_cons, List.not_mem_nil, or_false] at hb
  · rw [hb, UInt8.toNat_ofNat']
    omega
  · rcases hb with rfl | rfl <;> rw [UInt8.toNat_ofNat'] at hlt <;> omega
  · rcases hb with rfl | rfl | rfl <;> rw [UInt8.toNat_ofNat'] at hlt <;> omega
  · rcases hb with rfl | rfl | rfl | rfl <;> rw [UInt8.toNat_ofNat'] at hlt <;> omega

end Text

/-! ## Words -/

/-- A text whose bytes are read as one word. -/
structure IsWord (text : String) : Prop where
  nonempty : text ≠ ""
  plain : ∀ b ∈ Text.toBytes text, Byte.isSpecial b = false

theorem IsWord.toBytes_ne_nil {text : String} (h : IsWord text) : Text.toBytes text ≠ [] := by
  intro hnil
  have hback := Text.ofBytes_toBytes text
  rw [hnil] at hback
  exact h.nonempty hback.symm

/-- The bytes that end words are ASCII characters. -/
theorem Byte.isSpecial_lt {b : UInt8} (h : isSpecial b = true) : 0 < b.toNat ∧ b.toNat < 128 := by
  simp only [isSpecial, isSpace, delimiters, Bool.or_eq_true, beq_iff_eq, List.contains_iff_mem,
    List.mem_cons, List.not_mem_nil, or_false] at h
  rcases h with ((rfl | rfl) | rfl) | h
  · decide
  · decide
  · decide
  · rcases h with rfl | rfl | rfl | rfl | rfl | rfl | rfl | rfl | rfl | rfl | rfl | rfl | rfl | rfl | rfl
      | rfl | rfl <;> decide

namespace Scan

/-- What was read as a word is one when it is written again. -/
theorem isWord_nonemptyWord : Ensures nonemptyWord fun _ name _ => IsWord name := by
  intro c name c' h
  refine ⟨?_, fun b hb => ?_⟩
  · obtain ⟨text, c₁, _, h⟩ := bind_ok h
    split at h
    · cases h
    · rename_i hempty
      cases h
      exact fun he => hempty (by rw [he]; rfl)
  · refine Bool.eq_false_iff.mpr fun hspecial => ?_
    obtain ⟨hpos, hlt⟩ := Byte.isSpecial_lt hspecial
    exact ensures_nonemptyWord (lacks_word hspecial hpos hlt) c name c' h
      (Text.mem_of_mem_toBytes hb hlt)

end Scan

end Straightline
