import Straightline.Proofs.Control
import Straightline.Project.Declarations

/-!
# Names have no dots

A byte that ends a word does not stand in one as a character either, for no sequence of other bytes is read
as one of the first 128 characters (`Scan.lacks_word`). The dot is among them. So the key `Owner.method` under
which a method is kept names its owner: it is split at its first dot (`methodKey_owner`).
-/

set_option autoImplicit false

namespace Straightline

/-- No dot stands in the text. -/
def Undotted (text : String) : Prop := '.' ∉ text.toList

/-- No blank and no opening bracket stands in the text. -/
structure Spelled (text : String) : Prop where
  blank : ' ' ∉ text.toList
  bracket : '(' ∉ text.toList

theorem Spelled.append {text text' : String} (h : Spelled text) (h' : Spelled text') :
    Spelled (text ++ text') := by
  constructor
  · rw [String.toList_append, List.mem_append, not_or]
    exact ⟨h.blank, h'.blank⟩
  · rw [String.toList_append, List.mem_append, not_or]
    exact ⟨h.bracket, h'.bracket⟩

namespace Text

section Lacking

variable {k : Nat}

theorem toNat_ofNat_of_valid {n : Nat} (h : n.isValidChar) : (Char.ofNat n).toNat = n := by
  rw [Char.ofNat, dif_pos h]
  rfl

/-- Another number is not read as one of the first characters, unless as the very first. -/
theorem ofNat_ne {n : Nat} (hpos : 0 < k) (hk : k < 128) (h : n ≠ k) :
    Char.ofNat n ≠ Char.ofNat k := by
  intro he
  have hn := (congrArg Char.toNat he).trans (toNat_ofNat_of_valid (.inl (by omega)))
  by_cases hvalid : n.isValidChar
  · exact h ((toNat_ofNat_of_valid hvalid).symm.trans hn)
  · rw [Char.ofNat, dif_neg hvalid] at hn
    exact absurd hn (Nat.ne_of_lt hpos)

theorem ne_replacement (hk : k < 128) : Char.ofNat k ≠ replacement := by
  intro he
  have hself := toNat_ofNat_of_valid (n := k) (.inl (by omega))
  rw [he, show replacement.toNat = 65533 by decide] at hself
  omega

/-- A sequence that has begun ends in a character above the first 128: its last byte adds six bits to
bits that are at least two by then. -/
structure Pending.Safe (p : Pending) : Prop where
  low : 0x80 ≤ p.low.toNat
  high : p.high.toNat ≤ 0xBF
  bits : 2 ≤ p.bits ∨ (1 ≤ p.more ∧ (1 ≤ p.bits ∨ 0x90 ≤ p.low.toNat))

theorem lead_lacks (hpos : 0 < k) (hk : k < 128) {b : UInt8} (h : b.toNat ≠ k) :
    Char.ofNat k ∉ (lead b).1 ∧ ∀ p, (lead b).2 = some p → p.Safe := by
  have hreplacement : Char.ofNat k ∉ [replacement] :=
    fun hm => ne_replacement hk (List.mem_singleton.mp hm)
  have hlt := b.toNat_lt
  unfold lead
  simp only [beq_iff_eq, UInt8.lt_iff_toNat_lt, UInt8.reduceToNat, ← UInt8.toNat_inj]
  split
  · exact ⟨fun hm => ofNat_ne hpos hk h (List.mem_singleton.mp hm).symm, by simp⟩
  split
  · exact ⟨hreplacement, by simp⟩
  repeat' split
  all_goals first
    | exact ⟨hreplacement, by simp⟩
    | refine ⟨by simp, ?_⟩
      rintro p ⟨⟩
      refine ⟨by simp, by simp, ?_⟩
      simp only [UInt8.reduceToNat]
      omega

/-- A character of the first 128 comes only out of its byte. -/
theorem decode_lacks (hpos : 0 < k) (hk : k < 128) {p : Option Pending} {bytes : List UInt8}
    (hp : ∀ q, p = some q → q.Safe) (h : ∀ b ∈ bytes, b.toNat ≠ k) :
    Char.ofNat k ∉ decode p bytes := by
  have hreplacement := ne_replacement hk
  induction bytes generalizing p with
  | nil =>
    cases p with
    | none => simp [decode]
    | some q => simp [decode, hreplacement]
  | cons b rest ih =>
    obtain ⟨hlead, hnext⟩ := lead_lacks hpos hk (h b List.mem_cons_self)
    have hrest : ∀ b ∈ rest, b.toNat ≠ k := fun b hb => h b (List.mem_cons_of_mem _ hb)
    cases p with
    | none =>
      simp only [decode, List.mem_append, not_or]
      exact ⟨hlead, ih hnext hrest⟩
    | some q =>
      obtain ⟨hlow, hhigh, hbits⟩ := hp q rfl
      simp only [decode]
      split
      · rename_i hrange
        obtain ⟨hlo, hhi⟩ := hrange
        rw [UInt8.le_iff_toNat_le] at hlo hhi
        cases hmore : q.more with
        | zero =>
          simp only [List.mem_cons, not_or]
          refine ⟨fun he => ofNat_ne hpos hk ?_ he.symm, ih (by simp) hrest⟩
          omega
        | succ more =>
          refine ih (fun r hr => ?_) hrest
          cases hr
          exact ⟨by simp, by simp, Or.inl (by simp only; omega)⟩
      · simp only [List.mem_cons, List.mem_append, not_or]
        exact ⟨hreplacement, hlead, ih hnext hrest⟩

theorem ofBytes_lacks (hpos : 0 < k) (hk : k < 128) {bytes : List UInt8}
    (h : ∀ b ∈ bytes, b.toNat ≠ k) : Char.ofNat k ∉ (ofBytes bytes).toList := by
  unfold ofBytes
  rw [String.toList_ofList]
  exact decode_lacks hpos hk (by simp) h

end Lacking

end Text

namespace Scan

/-- What holds of every value of the rest holds of the value of the whole. -/
theorem ensures_after {α β : Type} {m : Scan α} {k : α → Scan β} {P : β → Prop}
    (h : ∀ a, Ensures (k a) fun _ b _ => P b) : Ensures (m >>= k) fun _ b _ => P b := by
  intro c b c' hm
  obtain ⟨a, c₁, _, hk⟩ := bind_ok hm
  exact h a c₁ b c' hk

theorem ensures_pure {α : Type} {a : α} {P : α → Prop} (h : P a) :
    Ensures (pure a : Scan α) fun _ b _ => P b := by
  intro c b c' hm
  cases hm
  exact h

/-- A byte that ends a word does not stand in one as a character. -/
theorem lacks_word {b : UInt8} (hspecial : Byte.isSpecial b = true) (hpos : 0 < b.toNat)
    (hlt : b.toNat < 128) : Ensures word fun _ name _ => Byte.toChar b ∉ name.toList := by
  intro c name c' h
  cases h
  refine Text.ofBytes_lacks hpos hlt ?_
  intro b' hb' he
  have hkeep := List.all_eq_true.mp (List.all_takeWhile (l := c.rest)) b' hb'
  rw [UInt8.toNat_inj.mp he, hspecial] at hkeep
  cases hkeep

/-- What holds of every word holds of those that are not empty. -/
theorem ensures_nonemptyWord {P : String → Prop} (hword : Ensures word fun _ name _ => P name) :
    Ensures nonemptyWord fun _ name _ => P name := by
  intro c name c' h
  obtain ⟨text, c₁, htext, h⟩ := bind_ok h
  split at h <;> cases h
  exact hword _ _ _ htext

theorem undotted_nonemptyWord : Ensures nonemptyWord fun _ name _ => Undotted name :=
  ensures_nonemptyWord (lacks_word (b := Byte.dot) (by decide) (by decide) (by decide))

theorem spelled_nonemptyWord : Ensures nonemptyWord fun _ name _ => Spelled name :=
  ensures_nonemptyWord fun c name c' h =>
    ⟨lacks_word (b := Byte.space) (by decide) (by decide) (by decide) c name c' h,
      lacks_word (b := Byte.openParen) (by decide) (by decide) (by decide) c name c' h⟩

end Scan

/-- What stands before the first of a character is found by reading up to it. -/
theorem takeWhile_until {c : Char} {before after : List Char} (h : c ∉ before) :
    (before ++ c :: after).takeWhile (· != c) = before := by
  have hpos : ∀ c' ∈ before, (c' != c) = true :=
    fun c' hc' => bne_iff_ne.mpr fun he => h (he ▸ hc')
  rw [List.takeWhile_append_of_pos hpos]
  simp

/-- What stands behind it is found by dropping as much. -/
theorem dropWhile_until {c : Char} {before after : List Char} (h : c ∉ before) :
    (before ++ c :: after).dropWhile (· != c) = c :: after := by
  have hpos : ∀ c' ∈ before, (c' != c) = true :=
    fun c' hc' => bne_iff_ne.mpr fun he => h (he ▸ hc')
  rw [List.dropWhile_append_of_pos hpos]
  simp

/-- Of two owners whose names have no dot, the one under whose key a method is found is the one for
which it was declared. -/
theorem Declarations.methodKey_owner {owner owner' : Ty} {name name' : String}
    (h : Undotted owner.name) (h' : Undotted owner'.name)
    (hkey : methodKey owner name = methodKey owner' name') : owner.name = owner'.name := by
  have hlist := congrArg (fun key => key.toList.takeWhile (· != '.')) hkey
  have hdot : ".".toList = ['.'] := by decide
  simp only [methodKey, String.toList_append, hdot, List.append_assoc,
    List.singleton_append, takeWhile_until h, takeWhile_until h'] at hlist
  exact String.toList_inj.mp hlist

end Straightline
