import Straightline.Proofs.Reading.Position

/-!
# How far readers look

A reader may look at more bytes than it takes: a word ends at a byte that is not part of it, a label is
told from a value by the colon after it. Two sources that agree up to some byte and then go on differently
(a `Fork`) show how far that goes. A reader is local (`Fork.Local`) if wherever it succeeds on the one
source and stops at or before that byte, it does the same on the other; it is closed (`Fork.Closed`) if that
byte is the last it takes and it still does the same, so that it has seen nothing of what follows.

Lists of arguments are closed by their parenthesis whatever fork they stand in, and a closed reader is local
in every fork. Where readers carry a bound on their steps, the other source may come with another bound, as
long as it exceeds the number of bytes that are left there.
-/

set_option autoImplicit false

namespace Straightline

/-- Two sources that agree up to and including the byte `stop`, after which they go on as `left` and as
`right`. Offsets into the part that agrees are counted from `leftStart` and from `rightStart`. -/
structure Fork where
  stop : UInt8
  left : List UInt8
  right : List UInt8
  leftStart : Nat
  rightStart : Nat

namespace Fork

variable {w : Fork} {c c' c₁ : Cursor}

/-- The offset on the right that stands for one on the left. -/
def move (w : Fork) (offset : Nat) : Nat := w.rightStart + (offset - w.leftStart)

@[simp] theorem move_add (k : Nat) : w.move (w.leftStart + k) = w.rightStart + k := by
  simp [move]

/-- The cursors are at the same place, not yet past the last byte that agrees. -/
def Before (w : Fork) (c c' : Cursor) : Prop :=
  ∃ agreed k, c = ⟨agreed ++ w.stop :: w.left, w.leftStart + k⟩
    ∧ c' = ⟨agreed ++ w.stop :: w.right, w.rightStart + k⟩

/-- The cursors are right after the last byte that agrees. -/
def After (w : Fork) (c c' : Cursor) : Prop :=
  ∃ k, c = ⟨w.left, w.leftStart + k⟩ ∧ c' = ⟨w.right, w.rightStart + k⟩

/-- The last byte that agrees has not been taken on the left. -/
def Ahead (w : Fork) (c : Cursor) : Prop := w.left.length < c.rest.length

/-- Another fork of the same sources. -/
def inner (w : Fork) (stop : UInt8) (left right : List UInt8) : Fork := { w with stop, left, right }

theorem Before.offset (h : w.Before c c') : w.move c.offset = c'.offset := by
  obtain ⟨agreed, k, rfl, rfl⟩ := h
  exact move_add k

theorem After.offset (h : w.After c c') : w.move c.offset = c'.offset := by
  obtain ⟨k, rfl, rfl⟩ := h
  exact move_add k

theorem Before.peek (h : w.Before c c') : c'.peek = c.peek := by
  obtain ⟨agreed, k, rfl, rfl⟩ := h
  cases agreed <;> rfl

theorem Before.isEmpty (h : w.Before c c') : c.rest.isEmpty = false ∧ c'.rest.isEmpty = false := by
  obtain ⟨agreed, k, rfl, rfl⟩ := h
  simp

/-- The cursor on the right comes closer to its end as the one on the left does. -/
theorem Before.taken {c₁' : Cursor} {taken : List UInt8} (h : w.Before c c')
    (htaken : c.rest = taken ++ c₁.rest) (h₁ : w.Before c₁ c₁') :
    c'.rest.length = taken.length + c₁'.rest.length := by
  obtain ⟨agreed, k, rfl, rfl⟩ := h
  obtain ⟨agreed', k', rfl, rfl⟩ := h₁
  have hlength := congrArg List.length htaken
  simp only [List.length_append, List.length_cons] at hlength ⊢
  omega

end Fork

namespace Scan

variable {α β γ δ : Type}

/-- A success takes some bytes off the front, at least `least` of them. -/
def Takes (least : Nat) (r : Scan α) : Prop :=
  Ensures r fun c _ c₁ => ∃ taken, c.rest = taken ++ c₁.rest ∧ least ≤ taken.length

/-- A success takes some bytes off the front, the last of which is `stop`. -/
def Closes (stop : UInt8) (r : Scan α) : Prop :=
  Ensures r fun c _ c₁ => ∃ taken, c.rest = taken ++ stop :: c₁.rest

theorem Advances.takes {r : Scan α} (h : Advances r) : Takes 0 r := by
  intro c a c₁ hr
  obtain ⟨taken, htaken, _⟩ := h c a c₁ hr
  exact ⟨taken, htaken, Nat.zero_le _⟩

namespace Takes

variable {m n : Nat} {r : Scan α} {k : α → Scan β}

/-- Fewer bytes are left. -/
theorem shorter (h : Takes 1 r) {c c₁ : Cursor} {a : α} (hr : r c = .ok a c₁) :
    c₁.rest.length < c.rest.length := by
  obtain ⟨taken, htaken, hlength⟩ := h c a c₁ hr
  rw [htaken, List.length_append]
  omega

theorem weaken (h : Takes n r) (hle : m ≤ n) : Takes m r := by
  intro c a c₁ hr
  obtain ⟨taken, htaken, hlength⟩ := h c a c₁ hr
  exact ⟨taken, htaken, Nat.le_trans hle hlength⟩

theorem bind (hr : Takes m r) (hk : ∀ a, Takes n (k a)) : Takes (m + n) (r >>= k) := by
  intro c b c₂ h
  obtain ⟨a, c₁, hra, hkb⟩ := bind_ok h
  obtain ⟨taken, htaken, hlength⟩ := hr c a c₁ hra
  obtain ⟨more, hmore, hlength'⟩ := hk a c₁ b c₂ hkb
  refine ⟨taken ++ more, ?_, ?_⟩
  · rw [htaken, hmore, List.append_assoc]
  · rw [List.length_append]
    omega

end Takes

namespace Closes

variable {stop : UInt8} {n : Nat} {r : Scan α} {k : α → Scan β}

theorem takes (h : Closes stop r) : Takes 1 r := by
  intro c a c₁ hr
  obtain ⟨taken, htaken⟩ := h c a c₁ hr
  exact ⟨taken ++ [stop], by rw [htaken, List.append_assoc]; rfl, by simp⟩

theorem after (hr : Takes n r) (hk : ∀ a, Closes stop (k a)) : Closes stop (r >>= k) := by
  intro c b c₂ h
  obtain ⟨a, c₁, hra, hkb⟩ := bind_ok h
  obtain ⟨taken, htaken, _⟩ := hr c a c₁ hra
  obtain ⟨more, hmore⟩ := hk a c₁ b c₂ hkb
  exact ⟨taken ++ more, by rw [htaken, hmore, List.append_assoc]⟩

end Closes

end Scan

namespace Fork

open Scan

variable {α β γ δ : Type} {w : Fork} {least N M : Nat}

/-- Where a reader begins that takes the last byte that agrees as its own last, that byte is ahead. -/
theorem Ahead.of_closes {r : Scan α} {c c₁ : Cursor} {a : α} (hr : Closes w.stop r)
    (h : r c = .ok a c₁) (hend : c₁.rest.length = w.left.length) : w.Ahead c := by
  obtain ⟨taken, htaken⟩ := hr c a c₁ h
  simp only [Ahead, htaken, List.length_append, List.length_cons]
  omega

/-- Where `r` succeeds before the last byte that agrees, `r'` does so at the same place, if fewer than `N`
bytes are left to it. Its value is the one that `g` gives. -/
structure Local (w : Fork) (N least : Nat) (g : α → β) (r : Scan α) (r' : Scan β) : Prop where
  takes : Takes least r
  follows : ∀ {c c' : Cursor} {a : α} {c₁ : Cursor}, w.Before c c' → c'.rest.length < N →
    r c = .ok a c₁ → w.Ahead c₁ → ∃ c₁', r' c' = .ok (g a) c₁' ∧ w.Before c₁ c₁'

/-- Where `r` succeeds right after the last byte that agrees, `r'` does so at the same place, if fewer than
`N` bytes are left to it. -/
structure Closed (w : Fork) (N : Nat) (g : α → β) (r : Scan α) (r' : Scan β) : Prop where
  closes : Closes w.stop r
  follows : ∀ {c c' : Cursor} {a : α} {c₁ : Cursor}, w.Before c c' → c'.rest.length < N →
    r c = .ok a c₁ → c₁.rest.length = w.left.length → ∃ c₁', r' c' = .ok (g a) c₁' ∧ w.After c₁ c₁'

namespace Local

variable {g : α → β} {h : γ → δ} {r : Scan α} {r' : Scan β} {k : α → Scan γ} {k' : β → Scan δ}

/-- What a reader ensures that looks no further than where it ends. -/
theorem of_before (htakes : Takes least r)
    (hfollows : ∀ {c c' : Cursor} {a : α} {c₁ : Cursor}, w.Before c c' → r c = .ok a c₁ → w.Ahead c₁ →
      ∃ c₁', r' c' = .ok (g a) c₁' ∧ w.Before c₁ c₁') : w.Local N least g r r' :=
  ⟨htakes, fun hbefore _ hr hahead => hfollows hbefore hr hahead⟩

theorem pure {a : α} {b : β} (hb : b = g a) : w.Local N 0 g (pure a) (pure b) := by
  subst hb
  refine of_before (Advances.pure a).takes ?_
  intro c c' a' c₁ hbefore hr _
  cases hr
  exact ⟨c', rfl, hbefore⟩

theorem throw (fault : Fault) (r' : Scan β) : w.Local N least g (throw fault) r' := by
  refine of_before (Ensures.throw fault) ?_
  intro c c' a c₁ _ hr
  cases hr

theorem mono (hr : w.Local N least g r r') (hle : M ≤ N) : w.Local M least g r r' :=
  ⟨hr.takes, fun hbefore hlt => hr.follows hbefore (Nat.lt_of_lt_of_le hlt hle)⟩

theorem weaken {n : Nat} (hr : w.Local N n g r r') (hle : least ≤ n) : w.Local N least g r r' :=
  ⟨hr.takes.weaken hle, hr.follows⟩

/-- Without bytes left nothing is asked of the right. -/
theorem zero {r'' : Scan β} (hr : w.Local 0 least g r r'') : w.Local 0 least g r r' :=
  ⟨hr.takes, fun _ hlt => absurd hlt (Nat.not_lt_zero _)⟩

/-- A sequence. What its first part takes is left less for the rest. -/
theorem seq {m n : Nat} (hr : w.Local N m g r r')
    (hk : ∀ a, w.Local (N - m) n h (k a) (k' (g a))) :
    w.Local N (m + n) h (r >>= k) (r' >>= k') := by
  refine ⟨hr.takes.bind fun a => (hk a).takes, ?_⟩
  intro c c' b c₂ hbefore hlt hrk hahead
  obtain ⟨a, c₁, hra, hkb⟩ := bind_ok hrk
  obtain ⟨taken, htaken, hone⟩ := hr.takes c a c₁ hra
  obtain ⟨more, hmore, _⟩ := (hk a).takes c₁ b c₂ hkb
  have hahead₁ : w.Ahead c₁ := by
    simp only [Ahead, hmore, List.length_append] at hahead ⊢
    omega
  obtain ⟨c₁', hra', hbefore₁⟩ := hr.follows hbefore hlt hra hahead₁
  have hlength := hbefore.taken htaken hbefore₁
  obtain ⟨c₂', hkb', hbefore₂⟩ := (hk a).follows hbefore₁ (by omega) hkb hahead
  exact ⟨c₂', (bind_of_ok hra').trans hkb', hbefore₂⟩

theorem bindMap (hr : w.Local N 0 g r r') (hk : ∀ a, w.Local N least h (k a) (k' (g a))) :
    w.Local N least h (r >>= k) (r' >>= k') :=
  (hr.seq hk).weaken (Nat.le_add_left _ _)

theorem takeMap (hr : w.Local N 1 g r r') (hk : ∀ a, w.Local (N - 1) 0 h (k a) (k' (g a))) :
    w.Local N 1 h (r >>= k) (r' >>= k') :=
  hr.seq hk

theorem ite {p : Prop} [Decidable p] {s : Scan α} {s' : Scan β} (hr : w.Local N least g r r')
    (hs : w.Local N least g s s') : w.Local N least g (if p then r else s) (if p then r' else s') := by
  split
  · exact hr
  · exact hs

section Same

variable {r r' : Scan α} {k k' : α → Scan γ} {h : γ → δ} {k' : α → Scan δ}

/-- `bindMap` after a reader whose values are the same on both sides. -/
theorem bind (hr : w.Local N 0 id r r') (hk : ∀ a, w.Local N least h (k a) (k' a)) :
    w.Local N least h (r >>= k) (r' >>= k') :=
  hr.bindMap hk

/-- `takeMap` after a reader whose values are the same on both sides. -/
theorem take (hr : w.Local N 1 id r r') (hk : ∀ a, w.Local (N - 1) 0 h (k a) (k' a)) :
    w.Local N 1 h (r >>= k) (r' >>= k') :=
  hr.takeMap hk

end Same

/-- A bound that exceeds the number of bytes left on each side. -/
theorem bounded {reader : Nat → Scan α} {reader' : Nat → Scan β}
    (h : ∀ n m K, K ≤ m → K ≤ N → w.Local K least g (reader n) (reader' m)) :
    w.Local N least g (bounded reader) (bounded reader') := by
  refine ⟨fun c a c₁ hr => (h _ 0 0 (Nat.le_refl 0) (Nat.zero_le N)).takes c a c₁ hr, ?_⟩
  intro c c' a c₁ hbefore hlt hr hahead
  exact (h (c.rest.length + 1) (c'.rest.length + 1) (c'.rest.length + 1) (Nat.le_refl _)
    hlt).follows hbefore (Nat.lt_succ_self _) hr hahead

/-- A reader with a bound is local if it is with one step more on both sides. -/
theorem of_succ {reader : Nat → Scan α} {reader' : Nat → Scan β} {n : Nat}
    (h : ∀ m K, K ≤ m + 1 → K ≤ N → w.Local K least g (reader n) (reader' (m + 1))) (m K : Nat)
    (hm : K ≤ m) (hN : K ≤ N) : w.Local K least g (reader n) (reader' m) := by
  cases m with
  | zero =>
    obtain rfl := Nat.le_zero.mp hm
    exact (h 0 0 (Nat.zero_le _) hN).zero
  | succ m => exact h m K hm hN

end Local

namespace Closed

variable {g : α → β} {h : γ → δ} {r : Scan α} {r' : Scan β} {k : α → Scan γ} {k' : β → Scan δ}

theorem throw (fault : Fault) (r' : Scan β) : w.Closed N g (throw fault) r' := by
  refine ⟨Ensures.throw fault, ?_⟩
  intro c c' a c₁ _ _ hr
  cases hr

theorem zero {r'' : Scan β} (hr : w.Closed 0 g r r'') : w.Closed 0 g r r' :=
  ⟨hr.closes, fun _ hlt => absurd hlt (Nat.not_lt_zero _)⟩

/-- A sequence whose end is closed. What its first part takes is left less for the rest. -/
theorem seq {m : Nat} (hr : w.Local N m g r r')
    (hk : ∀ a, w.Closed (N - m) h (k a) (k' (g a))) : w.Closed N h (r >>= k) (r' >>= k') := by
  refine ⟨.after hr.takes fun a => (hk a).closes, ?_⟩
  intro c c' b c₂ hbefore hlt hrk hend
  obtain ⟨a, c₁, hra, hkb⟩ := bind_ok hrk
  obtain ⟨taken, htaken, hm⟩ := hr.takes c a c₁ hra
  obtain ⟨c₁', hra', hbefore₁⟩ :=
    hr.follows hbefore hlt hra (.of_closes (hk a).closes hkb hend)
  have hlength := hbefore.taken htaken hbefore₁
  obtain ⟨c₂', hkb', hafter⟩ := (hk a).follows hbefore₁ (by omega) hkb hend
  exact ⟨c₂', (bind_of_ok hra').trans hkb', hafter⟩

/-- After the end nothing is taken, and nothing is looked at but the offset. -/
theorem finish {s : α → Scan γ} {s' : β → Scan δ} (hr : w.Closed N g r r')
    (hs : ∀ a c b c₁, s a c = .ok b c₁ → c₁ = c ∧ ∀ c', w.After c c' → s' (g a) c' = .ok (h b) c') :
    w.Closed N h (r >>= s) (r' >>= s') := by
  refine ⟨?_, ?_⟩
  · intro c b c₁ hrs
    obtain ⟨a, c₂, hra, hsb⟩ := bind_ok hrs
    obtain ⟨rfl, _⟩ := hs a c₂ b c₁ hsb
    exact hr.closes c a c₁ hra
  · intro c c' b c₁ hbefore hlt hrs hend
    obtain ⟨a, c₂, hra, hsb⟩ := bind_ok hrs
    obtain ⟨rfl, hsb'⟩ := hs a c₂ b c₁ hsb
    obtain ⟨c₁', hra', hafter⟩ := hr.follows hbefore hlt hra hend
    exact ⟨c₁', (bind_of_ok hra').trans (hsb' c₁' hafter), hafter⟩

theorem map {f : α → γ} {f' : β → δ} (hr : w.Closed N g r r') (hf : ∀ a, f' (g a) = h (f a)) :
    w.Closed N h (r >>= fun a => pure (f a)) (r' >>= fun b => pure (f' b)) := by
  refine hr.finish ?_
  intro a c b c₁ hpure
  cases hpure
  exact ⟨rfl, fun c' _ => by rw [hf]; rfl⟩

theorem mapOffset {f : α → Nat → γ} {f' : β → Nat → δ} (hr : w.Closed N g r r')
    (hf : ∀ a offset, f' (g a) (w.move offset) = h (f a offset)) :
    w.Closed N h (r >>= fun a => offset >>= fun x => pure (f a x))
      (r' >>= fun b => offset >>= fun x => pure (f' b x)) := by
  refine hr.finish ?_
  intro a c b c₁ hpure
  cases hpure
  refine ⟨rfl, fun c' hafter => ?_⟩
  rw [← hf, hafter.offset]
  rfl

/-- A reader that ends with the last byte that agrees, or else goes on and is closed. -/
theorem ending {a : γ} {a' : δ} {k : Scan γ} {k' : Scan δ} (ha : a' = h a) (hk : w.Closed N h k k') :
    w.Closed N h
      (lookingAt w.stop >>= fun here => if here then advance >>= fun _ => pure a else k)
      (lookingAt w.stop >>= fun here => if here then advance >>= fun _ => pure a' else k') := by
  subst ha
  refine ⟨?_, ?_⟩
  · intro c b c₁ hr
    obtain ⟨here, c₂, hhere, hr⟩ := bind_ok hr
    cases hhere
    split at hr
    · rename_i hpeek
      obtain ⟨_, c₃, hadvance, hr⟩ := bind_ok hr
      cases hadvance
      cases hr
      obtain ⟨rest, offset⟩ := c
      cases rest with
      | nil => cases hpeek
      | cons b rest =>
        simp only [Cursor.peek, List.head?_cons, beq_iff_eq, Option.some.injEq] at hpeek
        subst hpeek
        exact ⟨[], rfl⟩
    · exact hk.closes _ _ _ hr
  · intro c c' b c₁ hbefore hlt hr hend
    obtain ⟨here, c₂, hhere, hr⟩ := bind_ok hr
    cases hhere
    have hhere' : lookingAt w.stop c' = .ok (c.peek == some w.stop) c' := by
      simp only [lookingAt, hbefore.peek]
    rw [bind_of_ok hhere']
    split at hr
    · rename_i hpeek
      obtain ⟨_, c₃, hadvance, hr⟩ := bind_ok hr
      cases hadvance
      cases hr
      rw [if_pos hpeek]
      obtain ⟨agreed, k, rfl, rfl⟩ := hbefore
      -- The reader ended behind the last byte that agrees, so this byte is that one.
      cases agreed with
      | nil => exact ⟨⟨w.right, w.rightStart + k + 1⟩, rfl, k + 1, rfl, rfl⟩
      | cons b agreed =>
        simp only [Cursor.advance, List.cons_append, List.length_append, List.length_cons] at hend
        omega
    · rename_i hpeek
      rw [if_neg hpeek]
      exact hk.follows hbefore hlt hr hend

theorem bounded {reader : Nat → Scan α} {reader' : Nat → Scan β}
    (h : ∀ n m K, K ≤ m → K ≤ N → w.Closed K g (reader n) (reader' m)) :
    w.Closed N g (bounded reader) (bounded reader') := by
  refine ⟨fun c a c₁ hr => (h _ 0 0 (Nat.le_refl 0) (Nat.zero_le N)).closes c a c₁ hr, ?_⟩
  intro c c' a c₁ hbefore hlt hr hend
  exact (h (c.rest.length + 1) (c'.rest.length + 1) (c'.rest.length + 1) (Nat.le_refl _)
    hlt).follows hbefore (Nat.lt_succ_self _) hr hend

/-- A reader with a bound is closed if it is with one step more on both sides. -/
theorem of_succ {reader : Nat → Scan α} {reader' : Nat → Scan β} {n : Nat}
    (h : ∀ m K, K ≤ m + 1 → K ≤ N → w.Closed K g (reader n) (reader' (m + 1))) (m K : Nat)
    (hm : K ≤ m) (hN : K ≤ N) : w.Closed K g (reader n) (reader' m) := by
  cases m with
  | zero =>
    obtain rfl := Nat.le_zero.mp hm
    exact (h 0 0 (Nat.zero_le _) hN).zero
  | succ m => exact h m K hm hN

/-- A reader that is closed by a byte sees nothing of what follows it, whichever fork of the sources it
stands in. -/
theorem isLocal {stop : UInt8} (hr : ∀ left right, (w.inner stop left right).Closed N g r r') :
    w.Local N 1 g r r' := by
  refine ⟨(hr [] []).closes.takes, ?_⟩
  intro c c' a c₁ hbefore hlt hra hahead
  obtain ⟨taken, htaken⟩ := (hr [] []).closes c a c₁ hra
  obtain ⟨agreed, k, rfl, rfl⟩ := hbefore
  -- What is left on the left still has the last byte that agrees, so the bytes taken all agree.
  have hsplit : ∃ more, agreed = taken ++ stop :: more ∧ c₁.rest = more ++ w.stop :: w.left := by
    simp only [Ahead] at hahead
    rcases List.append_eq_append_iff.mp htaken with ⟨extra, _, hrest⟩ | ⟨extra, hextra, hrest⟩
    · have hlength := congrArg List.length hrest
      simp only [List.length_append, List.length_cons] at hlength
      omega
    · cases extra with
      | nil =>
        rw [(List.cons.inj hrest).2] at hahead
        exact absurd hahead (Nat.lt_irrefl _)
      | cons b more =>
        obtain ⟨hb, htail⟩ := List.cons.inj hrest
        cases hb
        exact ⟨more, hextra, htail⟩
  obtain ⟨more, rfl, hrest⟩ := hsplit
  have hinner := hr (more ++ w.stop :: w.left) (more ++ w.stop :: w.right)
  obtain ⟨c₁', hra', k', rfl, rfl⟩ := hinner.follows
    ⟨taken, k, by simp [inner], by simp [inner]⟩ hlt hra (congrArg List.length hrest)
  exact ⟨_, hra', more, k', rfl, rfl⟩

end Closed

namespace Local

variable {h : γ → δ} {r r' : Scan α} {k : α → Scan γ} {k' : α → Scan δ}

/-- `Closed.seq` after a reader whose values are the same on both sides. -/
theorem closed (hr : w.Local N 0 id r r') (hk : ∀ a, w.Closed N h (k a) (k' a)) :
    w.Closed N h (r >>= k) (r' >>= k') :=
  Closed.seq hr hk

end Local

/-! ## Bytes and words -/

section Bytes

variable {c c' : Cursor} {keep : UInt8 → Bool}

/-- A run that ends in the part that agrees is the same on both sides. -/
theorem Before.skip (h : w.Before c c') (hahead : w.Ahead (c.skip keep)) :
    c'.run keep = c.run keep ∧ w.Before (c.skip keep) (c'.skip keep) := by
  obtain ⟨agreed, k, rfl, rfl⟩ := h
  -- The run is followed byte by byte in the part that agrees. If it took the last byte as well, it would end
  -- outside.
  induction agreed generalizing k with
  | nil =>
    cases hkeep : keep w.stop with
    | true =>
      refine absurd hahead ?_
      have hle := (List.dropWhile_sublist (p := keep) (l := w.left)).length_le
      simp only [Ahead, Cursor.skip, List.nil_append, List.dropWhile_cons, hkeep, if_true]
      omega
    | false =>
      refine ⟨by simp [Cursor.run, hkeep], [], k, ?_⟩
      simp [Cursor.skip, Cursor.run, hkeep]
  | cons b agreed ih =>
    cases hkeep : keep b with
    | true =>
      have hahead' : w.Ahead
          (Cursor.skip ⟨agreed ++ w.stop :: w.left, w.leftStart + (k + 1)⟩ keep) := by
        simpa [Ahead, Cursor.skip, hkeep] using hahead
      obtain ⟨hrun, agreed', k', hleft, hright⟩ := ih (k + 1) hahead'
      simp only [Cursor.skip, Cursor.run, Cursor.mk.injEq] at hrun hleft hright
      refine ⟨?_, agreed', k', ?_⟩
      · simp [Cursor.run, hkeep, hrun]
      · simp only [Cursor.skip, Cursor.run, List.cons_append, List.dropWhile_cons,
          List.takeWhile_cons, hkeep, if_true, List.length_cons, Cursor.mk.injEq]
        exact ⟨⟨hleft.1, by omega⟩, hright.1, by omega⟩
    | false =>
      refine ⟨by simp [Cursor.run, hkeep], b :: agreed, k, ?_⟩
      simp [Cursor.skip, Cursor.run, hkeep]

/-- A run that the last byte which agrees ends is in the part that agrees. -/
theorem Before.ahead_skip (h : w.Before c c') (hstop : keep w.stop = false) :
    w.Ahead (c.skip keep) := by
  obtain ⟨agreed, k, rfl, rfl⟩ := h
  induction agreed generalizing k with
  | nil => simp [Ahead, Cursor.skip, hstop]
  | cons b agreed ih =>
    cases hkeep : keep b with
    | true => simpa [Ahead, Cursor.skip, hkeep] using ih k
    | false =>
      simp only [Ahead, Cursor.skip, List.cons_append, List.dropWhile_cons, hkeep,
        Bool.false_eq_true, if_false, List.length_cons, List.length_append]
      omega

end Bytes

theorem local_skipSpace (lines : Bool) : w.Local N 0 id (skipSpace lines) (skipSpace lines) := by
  refine .of_before (advances_skipSpace lines).takes ?_
  intro c c' a c₁ hbefore hr hahead
  cases hr
  exact ⟨_, rfl, (hbefore.skip hahead).2⟩

theorem local_word : w.Local N 0 id word word := by
  refine .of_before advances_word.takes ?_
  intro c c' a c₁ hbefore hr hahead
  cases hr
  obtain ⟨hrun, hbefore⟩ := hbefore.skip hahead
  refine ⟨_, ?_, hbefore⟩
  simp only [word, hrun, id]

theorem local_peek : w.Local N 0 id peek peek := by
  refine .of_before advances_peek.takes ?_
  intro c c' a c₁ hbefore hr _
  cases hr
  exact ⟨c', by simp only [Scan.peek, hbefore.peek, id], hbefore⟩

theorem local_lookingAt (b : UInt8) : w.Local N 0 id (lookingAt b) (lookingAt b) := by
  refine .of_before (advances_lookingAt b).takes ?_
  intro c c' a c₁ hbefore hr _
  cases hr
  exact ⟨c', by simp only [lookingAt, hbefore.peek, id], hbefore⟩

theorem local_offset : w.Local N 0 w.move offset offset := by
  refine .of_before advances_offset.takes ?_
  intro c c' a c₁ hbefore hr _
  cases hr
  exact ⟨c', by simp only [Scan.offset, hbefore.offset], hbefore⟩

theorem local_assertMore : w.Local N 0 id assertMore assertMore := by
  refine .of_before advances_assertMore.takes ?_
  intro c c' a c₁ hbefore hr _
  obtain ⟨hempty, hempty'⟩ := hbefore.isEmpty
  simp only [assertMore, hempty, Bool.false_eq_true, if_false] at hr
  cases hr
  exact ⟨c', by simp [assertMore, hempty'], hbefore⟩

theorem local_advance : w.Local N 0 id advance advance := by
  refine .of_before advances_advance.takes ?_
  intro c c' a c₁ hbefore hr hahead
  cases hr
  obtain ⟨agreed, k, rfl, rfl⟩ := hbefore
  cases agreed with
  | nil =>
    simp only [Ahead, Cursor.advance, List.nil_append] at hahead
    exact absurd hahead (Nat.lt_irrefl _)
  | cons b agreed => exact ⟨_, rfl, agreed, k + 1, rfl, rfl⟩

theorem local_require (holds : Bool) (fault : Fault) :
    w.Local N 0 id (require holds fault) (require holds fault) :=
  .ite (.pure rfl) (.throw _ _)

theorem local_check {outcome : Except Fault α} : w.Local N 0 id (check outcome) (check outcome) := by
  cases outcome with
  | ok value => exact .pure rfl
  | error fault => exact .throw _ _

theorem local_skipToContent : w.Local N 0 id skipToContent skipToContent :=
  (local_skipSpace true).bind fun _ => local_assertMore

theorem takes_nonemptyWord : Takes 1 nonemptyWord := by
  intro c name c₁ h
  obtain ⟨text, c₂, hword, h⟩ := bind_ok h
  cases hword
  split at h
  · cases h
  · rename_i hempty
    cases h
    refine ⟨c.run fun b => !Byte.isSpecial b, List.takeWhile_append_dropWhile.symm, ?_⟩
    refine Nat.pos_of_ne_zero fun hlength => hempty ?_
    rw [List.eq_nil_of_length_eq_zero hlength]
    rfl

theorem local_nonemptyWord : w.Local N 1 id nonemptyWord nonemptyWord :=
  ⟨takes_nonemptyWord, (local_word.bind fun _ => .ite (.throw _ _) (.pure rfl)).follows⟩

theorem local_expect (expected : UInt8) : w.Local N 0 id (expect expected) (expect expected) := by
  refine local_peek.bind ?_
  intro next
  cases next with
  | none => exact .throw _ _
  | some b => exact .ite local_advance (.throw _ _)

theorem local_arrow : w.Local N 0 id arrow arrow := (local_expect _).bind fun _ => local_expect _

theorem local_moreOnLine : w.Local N 0 id moreOnLine moreOnLine := by
  refine (local_skipSpace false).bind fun _ => local_peek.bind ?_
  intro next
  cases next with
  | none => exact .pure rfl
  | some b => exact .pure rfl

/-! ## Heads -/

theorem local_expressionContinues :
    w.Local N 0 id expressionContinues expressionContinues := by
  refine local_moreOnLine.bind fun more => .ite (local_peek.bind fun next => ?_) (.pure rfl)
  cases next with
  | none => exact .pure rfl
  | some b => exact .pure rfl

theorem takes_operator : Takes 1 operator := by
  intro c o c₁ h
  obtain ⟨next, c₂, hpeek, h⟩ := bind_ok h
  cases hpeek
  obtain ⟨rest, offset⟩ := c
  cases rest with
  | nil => cases h
  | cons b rest =>
    refine ⟨[b], ?_, Nat.le_refl _⟩
    simp only [Cursor.peek, List.head?_cons] at h
    split at h
    · cases h
      rfl
    · split at h
      · cases h
        rfl
      · cases h

theorem local_operator : w.Local N 1 id operator operator := by
  have hlocal : w.Local N 0 id operator operator := by
    refine local_peek.bind ?_
    intro next
    cases next with
    | none => exact .throw _ _
    | some b =>
      exact .ite (local_advance.bind fun _ => .pure rfl)
        (.ite (local_advance.bind fun _ => .pure rfl) (.throw _ _))
  exact ⟨takes_operator, hlocal.follows⟩

theorem local_suffix : w.Local N 0 id suffix suffix := by
  refine (local_lookingAt _).bind fun _ => .ite (local_advance.bind fun _ => .pure rfl) ?_
  refine (local_lookingAt _).bind fun _ => .ite (local_advance.bind fun _ => ?_) (.pure rfl)
  refine (local_nonemptyWord.weaken (Nat.zero_le _)).bind fun _ => (local_lookingAt _).bind ?_
  intro _
  exact .ite (local_advance.bind fun _ => .pure rfl) (.pure rfl)

theorem local_termHead : w.Local N 1 id termHead termHead := by
  refine local_nonemptyWord.take fun _ => local_suffix.bind ?_
  intro after
  cases after <;> exact .pure rfl

theorem local_nameHead (name : String) : w.Local N 0 id (nameHead name) (nameHead name) := by
  refine (local_skipSpace true).bind fun _ => local_peek.bind ?_
  intro next
  cases next with
  | none => exact .throw _ _
  | some b =>
    exact .ite (local_advance.bind fun _ => .pure rfl)
      (.ite (local_advance.bind fun _ => .pure rfl) (.throw _ _))

theorem local_statementHead : w.Local N 1 id statementHead statementHead := by
  refine local_nonemptyWord.take ?_
  intro name
  cases ReservedWord.ofText? name with
  | some word => exact .pure rfl
  | none =>
    refine local_suffix.bind ?_
    intro after
    cases after with
    | none => exact local_nameHead name
    | call | member | memberCall => exact .pure rfl

/-! ## Argument lists -/

theorem local_separator (index : Nat) : w.Local N 0 id (separator index) (separator index) := by
  cases index with
  | zero => exact .pure rfl
  | succ index => exact (local_expect _).bind fun _ => local_skipToContent

/-- To find out whether an element has a label, its first word and the blanks after it are looked at. The
parenthesis that closes the list ends both. -/
theorem local_label (hstop : w.stop = Byte.closeParen) : w.Local N 0 id label label := by
  refine .of_before advances_label.takes ?_
  intro c c' name c₁ hbefore h hahead
  obtain ⟨_, _, hget, hrest⟩ := bind_ok h
  cases hget
  obtain ⟨text, c₂, hword, _⟩ := bind_ok hrest
  have hahead₂ : w.Ahead c₂ := by
    obtain ⟨text', c₃, hrun, hempty⟩ := bind_ok hword
    cases hrun
    split at hempty <;> cases hempty
    exact hbefore.ahead_skip (by rw [hstop]; rfl)
  obtain ⟨c₂', hword', hbefore₂⟩ :=
    local_nonemptyWord.follows hbefore (Nat.lt_succ_self _) hword hahead₂
  have hblanks : w.Before (c₂.skip fun b => Byte.isSpace b && (true || b != Byte.lineFeed))
      (c₂'.skip fun b => Byte.isSpace b && (true || b != Byte.lineFeed)) :=
    (hbefore₂.skip (hbefore₂.ahead_skip (by rw [hstop]; rfl))).2
  rw [label_of_word hword] at h
  rw [label_of_word hword']
  dsimp only at h ⊢
  rw [hblanks.peek]
  split at h
  · cases h
    obtain ⟨c₁', hadvance, hbefore₁⟩ :=
      local_advance.follows hblanks (Nat.lt_succ_self _) rfl hahead
    cases hadvance
    rw [if_pos ‹_›]
    exact ⟨_, rfl, hbefore₁⟩
  · cases h
    rw [if_neg ‹_›]
    exact ⟨c', rfl, hbefore⟩

section Arguments

variable {g : α → β} {read : Nat → Scan α} {read' : Nat → Scan β}

/-- The parenthesis that closes a list of arguments is the last byte that is looked at for it. -/
theorem closed_argumentsWithin (hstop : w.stop = Byte.closeParen)
    (hread : ∀ index, w.Local N 1 g (read index) (read' index)) (n m K index : Nat) (hm : K ≤ m)
    (hN : K ≤ N) :
    w.Closed K (List.map (Prod.map id g)) (argumentsWithin read index n)
      (argumentsWithin read' index m) := by
  induction n generalizing m K index with
  | zero => exact .throw _ _
  | succ n ih =>
    refine Closed.of_succ ?_ m K hm hN
    intro m K hm hN
    refine local_skipToContent.closed fun _ => ?_
    rw [← hstop]
    refine .ending rfl ?_
    refine (local_separator index).closed fun _ => (local_label hstop).closed ?_
    intro name
    refine Closed.seq ((hread index).mono hN) fun value => ?_
    exact (ih m (K - 1) (index + 1) (by omega) (by omega)).map fun others => rfl

theorem closed_arguments (hstop : w.stop = Byte.closeParen)
    (hread : ∀ index, w.Local N 1 g (read index) (read' index)) :
    w.Closed N (List.map (Prod.map id g)) (arguments read) (arguments read') :=
  .bounded fun n m K hm hN => closed_argumentsWithin hstop hread n m K 0 hm hN

/-- A list of arguments is read alike wherever the sources fork after it. -/
theorem local_arguments (hread : ∀ left right index,
      (w.inner Byte.closeParen left right).Local N 1 g (read index) (read' index)) :
    w.Local N 1 (List.map (Prod.map id g)) (arguments read) (arguments read') :=
  Closed.isLocal fun left right => closed_arguments rfl (hread left right)

end Arguments

/-- A positional list is read alike, since the types say for each element what it has to be. -/
theorem local_positional {expected : List Ty} {read read' : Ty → Scan α}
    (hread : ∀ left right ty, (w.inner Byte.closeParen left right).Local N 1 id (read ty) (read' ty)) :
    w.Local N 1 id (positional expected read) (positional expected read') := by
  refine (local_arguments (g := id) fun left right index => ?_).takeMap fun elements => ?_
  · split
    · exact .throw _ _
    · exact local_skipToContent.bind fun _ => hread left right _
  · rw [Prod.map_id, List.map_id]
    exact .ite (.throw _ _) (.pure rfl)

end Fork

end Straightline
