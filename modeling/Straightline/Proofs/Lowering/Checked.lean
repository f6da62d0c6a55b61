import Straightline.Proofs.Lowering.Sizes

/-!
# Checked words

The program is stopped where a sum or a product of words is no word. So a computation with words comes to
what it comes to in the natural numbers, where that is a word, and is stopped otherwise (`Checked`). This is
proved of one sum and of one rounding, and goes from steps to sequences of steps (`Checked.bind`,
`Checked.mapM`), so that it holds of everything that lowering computes.
-/

set_option autoImplicit false

namespace Straightline.Lowering

/-- The step comes to a result of this kind if what it computes are words, and is stopped otherwise. -/
structure Checked {α : Type} (x : Except Fault α) (fits : Prop) (is : α → Prop) : Prop where
  ok : fits → ∃ a, x = .ok a ∧ is a
  stops : ¬fits → ∃ op, x = .error (.overflow op)

namespace Checked

variable {α β : Type} {x : Except Fault α} {k : α → Except Fault β} {a : α} {fits fits' : Prop}
variable {is is' : α → Prop} {is'' : β → Prop}

/-- A result was computed in words. -/
theorem of_ok (h : Checked x fits is) (hx : x = .ok a) : fits ∧ is a := by
  subst hx
  by_cases hfits : fits
  · obtain ⟨_, ⟨⟩, hresult⟩ := h.ok hfits
    exact ⟨hfits, hresult⟩
  · obtain ⟨_, hstop⟩ := h.stops hfits
    cases hstop

theorem done_of (hfits : fits) (h : is a) : Checked (.ok a) fits is :=
  ⟨fun _ => ⟨a, rfl, h⟩, fun hno => absurd hfits hno⟩

theorem done (h : is a) : Checked (.ok a) True is := done_of trivial h

theorem imp (h : Checked x fits is) (hfits : fits ↔ fits') (his : ∀ a, is a → is' a) :
    Checked x fits' is' where
  ok hok := (h.ok (hfits.mpr hok)).imp fun a ha => ⟨ha.1, his a ha.2⟩
  stops hno := h.stops fun hok => hno (hfits.mp hok)

/-- A step that does not compute anything with words changes nothing. -/
theorem ok_bind (hx : x = .ok a) (hk : Checked (k a) fits is'') : Checked (x >>= k) fits is'' := by
  subst hx
  exact hk

/-- The first step that leaves the words stops a sequence. -/
theorem bind (hx : Checked x fits is) (hk : ∀ a, is a → Checked (k a) fits' is'') :
    Checked (x >>= k) (fits ∧ fits') is'' where
  ok := by
    rintro ⟨hfits, hfits'⟩
    obtain ⟨a, rfl, ha⟩ := hx.ok hfits
    exact (hk a ha).ok hfits'
  stops := by
    intro hno
    by_cases hfits : fits
    · obtain ⟨a, rfl, ha⟩ := hx.ok hfits
      exact (hk a ha).stops fun hfits' => hno ⟨hfits, hfits'⟩
    · obtain ⟨op, rfl⟩ := hx.stops hfits
      exact ⟨op, rfl⟩

theorem mapM {l : List α} {fits : α → Prop} (h : ∀ a ∈ l, Checked (k a) (fits a) is'') :
    Checked (l.mapM k) (∀ a ∈ l, fits a) fun _ => True := by
  induction l with
  | nil => exact done_of (fun _ ha => nomatch ha) trivial
  | cons a rest ih =>
    have hrest := ih fun a' ha' => h a' (List.mem_cons_of_mem _ ha')
    rw [List.mapM_cons, List.forall_mem_cons]
    refine (h a List.mem_cons_self).bind fun b _ => (hrest.bind fun bs _ => ?_).imp
      (iff_of_eq (and_true _)) fun _ h => h
    exact done trivial

end Checked

/-! ## Sums and multiples -/

section Words

variable {a b value align : UInt32}

theorem addWords_checked : Checked (addWords a b) (a.toNat + b.toNat < UInt32.size) fun sum =>
    sum.toNat = a.toNat + b.toNat := by
  unfold addWords
  split
  case isTrue hfits =>
    refine .done_of hfits ?_
    rw [UInt32.toNat_add]
    exact Nat.mod_eq_of_lt hfits
  case isFalse hno => exact ⟨fun hfits => absurd hfits hno, fun _ => ⟨_, rfl⟩⟩

theorem mulWords_checked : Checked (mulWords a b) (a.toNat * b.toNat < UInt32.size) fun product =>
    product.toNat = a.toNat * b.toNat := by
  unfold mulWords
  split
  case isTrue hfits =>
    refine .done_of hfits ?_
    rw [UInt32.toNat_mul]
    exact Nat.mod_eq_of_lt hfits
  case isFalse hno => exact ⟨fun hfits => absurd hfits hno, fun _ => ⟨_, rfl⟩⟩

/-- The quotient that is rounded up is a word in any case. -/
theorem toNat_quotient : (if value % align = 0 then value / align else value / align + 1).toNat =
    if value.toNat % align.toNat = 0 then value.toNat / align.toNat
    else value.toNat / align.toNat + 1 := by
  have hcond : (value % align = 0) ↔ value.toNat % align.toNat = 0 := by
    rw [← UInt32.toNat_inj, UInt32.toNat_mod]
    rfl
  have hlt := value.toNat_lt
  simp only [hcond]
  split
  case isTrue => exact UInt32.toNat_div ..
  case isFalse hne =>
    -- The quotient can be followed by one more, since the alignment is not one.
    have hone : align.toNat ≠ 1 := fun hone => hne (by rw [hone, Nat.mod_one])
    have hquot : value.toNat / align.toNat ≤ value.toNat / 2 := by
      rcases Nat.eq_zero_or_pos align.toNat with hzero | hpos
      · rw [hzero, Nat.div_zero]
        exact Nat.zero_le _
      · exact Nat.div_le_div_left (by omega) (by decide)
    rw [UInt32.toNat_add, UInt32.toNat_div]
    exact Nat.mod_eq_of_lt (show _ + 1 < _ by omega)

theorem alignTo_checked (halign : 0 < align.toNat) :
    Checked (alignTo value align) (roundUp value.toNat align.toNat < UInt32.size) fun aligned =>
      aligned.toNat = roundUp value.toNat align.toNat := by
  rw [roundUp_eq halign, ← toNat_quotient]
  exact mulWords_checked

end Words

end Straightline.Lowering
