import Straightline.Project.Compiling
import Straightline.Proofs.Control

/-!
# A pass in one go and a pass in two

A body can be compiled as it is read, or it can be read as a tree from which instructions are made
afterwards. `Compile.Ends` says what the two have to do with each other at one place. Where a tree is read,
the pass in one go ends like the making of instructions from it: with the same value, the same instructions
and events and behind the tree, or with the same refusal at the same offset. Where no tree is read, it fails
as well, but perhaps earlier and for another reason.

`Compile.Follows` is inherited by sequences, so a pass in one go is compared with a reader piece by piece.
-/

set_option autoImplicit false

namespace Straightline

namespace Compile

variable {τ τ₁ τ₂ α β : Type} {c : Cursor}

/-- How the pass in one go ends, if the reader ends like this. -/
inductive Ends (emit : τ → Emit α) (made : Emission) :
    EStateM.Result Fault Cursor τ → EStateM.Result Fault BodyState α → Prop where
  | ok {t : τ} {a : α} {c : Cursor} {made' : Emission} (emitted : emit t made = .ok a made') :
      Ends emit made (.ok t c) (.ok a ⟨made', c⟩)
  | refused {t : τ} {fault : Fault} {c c' : Cursor} {made' : Emission}
      (refused : emit t made = .error ⟨fault, c'.offset⟩ made') :
      Ends emit made (.ok t c) (.error fault ⟨made', c'⟩)
  | unread {fault fault' : Fault} {c : Cursor} {s : BodyState} :
      Ends emit made (.error fault c) (.error fault' s)

/-- What is read, and where it ends. -/
def closing (read : Scan τ) : Scan (τ × Nat) := do
  let t ← read
  let close ← Scan.offset
  return (t, close)

/-- From `c` on, `pass` does in one go what reading by `read` and making instructions by `emit` do. -/
def Follows (c : Cursor) (read : Scan τ) (emit : τ → Emit α) (pass : Compile α) : Prop :=
  ∀ made, Ends emit made (read c) (pass ⟨made, c⟩)

/-- A step tells its refusals at the offset that it is given. -/
def Placed (step : Nat → Emit α) : Prop := ∀ n, Refuses (step n) fun r => r.offset = n

theorem placed_of_never {step : Emit α} (h : Refuses step fun _ => False) : Placed fun _ => step :=
  fun _ => h.imp fun _ hfalse => hfalse.elim

theorem placed_refuse (fault : Fault) : Placed fun n => (Emit.refuse fault n : Emit α) := by
  intro n made refusal made' h
  cases h
  rfl

theorem placed_check (outcome : Except Fault α) : Placed fun n => Emit.check n outcome := by
  intro n made refusal made' h
  cases outcome with
  | ok a => cases h
  | error fault =>
    cases h
    rfl

theorem placed_require (holds : Bool) (fault : Fault) : Placed fun n => Emit.require holds fault n := by
  intro n made refusal made' h
  cases holds with
  | true => cases h
  | false =>
    cases h
    rfl

/-- A check that looks at no bytes is a step that makes nothing. -/
theorem scan_check (outcome : Except Fault α) :
    scan (Scan.check outcome) = emit fun n => Emit.check n outcome := by
  cases outcome <;> rfl

theorem scan_require (holds : Bool) (fault : Fault) :
    scan (Scan.require holds fault) = emit fun n => Emit.require holds fault n := by
  cases holds <;> rfl

namespace Follows

variable {read : Scan τ} {emit : τ → Emit α} {pass : Compile α}

/-- The tree is there, and nothing is left but to make instructions. -/
theorem pure {t : τ} {step : Nat → Emit α} (hstep : Placed step) (h : emit t = step c.offset) :
    Follows c (pure t) emit (Compile.emit step) := by
  intro made
  change Ends emit made (.ok t c) (Compile.emit step ⟨made, c⟩)
  unfold Compile.emit
  cases hmade : step c.offset made with
  | ok a made' => exact .ok (h ▸ hmade)
  | error refusal made' =>
    obtain ⟨fault, offset⟩ := refusal
    obtain rfl : offset = c.offset := hstep _ _ _ _ hmade
    exact .refused (h ▸ hmade)

/-- Nothing is made. -/
theorem unit {t : τ} {a : α} (h : emit t = Pure.pure a) : Follows c (Pure.pure t) emit (Pure.pure a) :=
  fun made => .ok (by rw [h]; rfl)

/-- The reader has failed. -/
theorem throw (fault fault' : Fault) : Follows c (throw fault : Scan τ) emit (throw fault') :=
  fun _ => .unread

/-- Both read the same. -/
theorem scan {r : Scan β} {k : β → Scan τ} {k' : β → Compile α}
    (h : ∀ a c', r c = .ok a c' → Follows c' (k a) emit (k' a)) :
    Follows c (r >>= k) emit (Compile.scan r >>= k') := by
  intro made
  cases hr : r c with
  | ok a c' =>
    have hscan : Compile.scan r ⟨made, c⟩ = .ok a ⟨made, c'⟩ := by simp only [Compile.scan, hr]
    rw [bind_of_ok hr, bind_of_ok hscan]
    exact h a c' hr made
  | error fault c' =>
    have hscan : Compile.scan r ⟨made, c⟩ = .error fault ⟨made, c'⟩ := by simp only [Compile.scan, hr]
    rw [bind_of_error hr, bind_of_error hscan]
    exact .unread

/-- The one reads what the other skips. -/
theorem skip {r : Scan β} {k : β → Scan τ} {next : Compile α}
    (h : ∀ a c', r c = .ok a c' → Follows c' (k a) emit next) :
    Follows c (r >>= k) emit (Compile.scan (discard r) >>= fun _ => next) := by
  intro made
  cases hr : r c with
  | ok a c' =>
    have hscan : Compile.scan (discard r) ⟨made, c⟩ = .ok () ⟨made, c'⟩ := by
      simp only [Compile.scan, discard_eq, bind_of_ok hr]
      rfl
    rw [bind_of_ok hr, bind_of_ok hscan]
    exact h a c' hr made
  | error fault c' =>
    have hscan : Compile.scan (discard r) ⟨made, c⟩ = .error fault ⟨made, c'⟩ := by
      simp only [Compile.scan, discard_eq, bind_of_error hr]
    rw [bind_of_error hr, bind_of_error hscan]
    exact .unread

/-- The reader keeps the offset. -/
theorem offset {k : Nat → Scan τ} (h : Follows c (k c.offset) emit pass) :
    Follows c (Scan.offset >>= k) emit pass := h

/-- Instructions are made before more is read. -/
theorem step {step : Nat → Emit β} {emit : β → τ → Emit α} {k : β → Compile α} (hstep : Placed step)
    (h : ∀ x, Follows c read (emit x) (k x)) :
    Follows c read (fun t => step c.offset >>= fun x => emit x t) (Compile.emit step >>= k) := by
  intro made
  cases hmade : step c.offset made with
  | ok x made' =>
    have hpass : Compile.emit step ⟨made, c⟩ = .ok x ⟨made', c⟩ := by simp only [Compile.emit, hmade]
    rw [bind_of_ok hpass]
    have hrest := h x made'
    generalize read c = left at hrest ⊢
    generalize k x ⟨made', c⟩ = ended at hrest ⊢
    cases hrest with
    | ok emitted => exact .ok ((bind_of_ok hmade).trans emitted)
    | refused refused => exact .refused ((bind_of_ok hmade).trans refused)
    | unread => exact .unread
  | error refusal made' =>
    obtain ⟨fault, offset⟩ := refusal
    obtain rfl : offset = c.offset := hstep _ _ _ _ hmade
    have hpass : Compile.emit step ⟨made, c⟩ = .error fault ⟨made', c⟩ := by simp only [Compile.emit, hmade]
    rw [bind_of_error hpass]
    cases read c with
    | ok t c' => exact .refused (bind_of_error hmade)
    | error fault' c' => exact .unread

/-- Nothing is read any more once a fault of meaning is found. -/
theorem refuse {fault : Fault} (h : ∀ t c', read c = .ok t c' → emit t = Emit.refuse fault c.offset) :
    Follows c read emit (MonadExcept.throw fault) := by
  intro made
  cases hread : read c with
  | ok t c' => exact .refused (by rw [h t c' hread]; rfl)
  | error fault' c' => exact .unread

/-- One thing is read and compiled, and then another. -/
theorem bind {first : Scan τ₁} {second : τ₁ → Scan τ₂} {mk : τ₁ → τ₂ → τ} {emit₁ : τ₁ → Emit β}
    {emit₂ : τ₁ → β → τ₂ → Emit α} {pass₁ : Compile β} {pass₂ : β → Compile α}
    (h₁ : Follows c first emit₁ pass₁)
    (h₂ : ∀ a x c', first c = .ok a c' → Follows c' (second a) (emit₂ a x) (pass₂ x))
    (hemit : ∀ a b, emit (mk a b) = emit₁ a >>= fun x => emit₂ a x b) :
    Follows c (do let a ← first; let b ← second a; return mk a b) emit (pass₁ >>= pass₂) := by
  intro made
  have hfirst := h₁ made
  generalize hpass : pass₁ ⟨made, c⟩ = ended at hfirst
  generalize hread : first c = left at hfirst
  cases hfirst with
  | @ok a x c₁ made₁ emitted =>
    rw [bind_of_ok hread, bind_of_ok hpass]
    have hsecond := h₂ a x c₁ hread made₁
    generalize pass₂ x ⟨made₁, c₁⟩ = ended at hsecond ⊢
    generalize hread₂ : second a c₁ = left at hsecond
    cases hsecond with
    | @ok b y c₂ made₂ emitted₂ =>
      rw [bind_of_ok hread₂]
      refine .ok ?_
      rw [hemit, bind_of_ok emitted]
      exact emitted₂
    | @refused b fault c₂ c' made₂ refused₂ =>
      rw [bind_of_ok hread₂]
      refine .refused ?_
      rw [hemit, bind_of_ok emitted]
      exact refused₂
    | unread =>
      rw [bind_of_error hread₂]
      exact .unread
  | @refused a fault c₁ c' made₁ refused =>
    rw [bind_of_ok hread, bind_of_error hpass]
    cases hread₂ : second a c₁ with
    | ok b c₂ =>
      rw [bind_of_ok hread₂]
      refine .refused ?_
      rw [hemit, bind_of_error refused]
    | error fault' c₂ =>
      rw [bind_of_error hread₂]
      exact .unread
  | unread =>
    rw [bind_of_error hread, bind_of_error hpass]
    exact .unread

/-- The parts `read₁` of a tree are read and put together by `f`; of the parts the instructions are made
by `emit₁`. -/
theorem shape (f : τ₁ → τ) (read₁ : Scan τ₁) (emit₁ : τ₁ → Emit α)
    (hread : read = read₁ >>= fun t => Pure.pure (f t)) (hemit : ∀ t, emit (f t) = emit₁ t)
    (h : Follows c read₁ emit₁ pass) : Follows c read emit pass := by
  intro made
  have hends := h made
  generalize pass ⟨made, c⟩ = ended at hends ⊢
  generalize hleft : read₁ c = left at hends
  rw [hread]
  cases hends with
  | ok emitted =>
    rw [bind_of_ok hleft]
    exact .ok (hemit _ ▸ emitted)
  | refused refused =>
    rw [bind_of_ok hleft]
    exact .refused (hemit _ ▸ refused)
  | unread =>
    rw [bind_of_error hleft]
    exact .unread

theorem map {f : τ₁ → τ} {read : Scan τ₁} (h : Follows c read (fun t => emit (f t)) pass) :
    Follows c (read >>= fun t => Pure.pure (f t)) emit pass :=
  shape f read _ rfl (fun _ => rfl) h

/-- The reader keeps where it has ended. -/
theorem closing (h : Follows c read emit pass) :
    Follows c (Compile.closing read) (fun p => emit p.1) pass := by
  unfold Compile.closing
  intro made
  have hends := h made
  generalize pass ⟨made, c⟩ = ended at hends ⊢
  generalize hread : read c = left at hends
  cases hends with
  | ok emitted =>
    rw [bind_of_ok hread]
    exact .ok emitted
  | refused refused =>
    rw [bind_of_ok hread]
    exact .refused refused
  | unread =>
    rw [bind_of_error hread]
    exact .unread

/-- What is made last is told where reading has ended. -/
theorem last {emit' : τ → Emit α} {emit : τ → Emit β} {pass : Compile β} (h : Follows c read emit pass)
    (step : β → Nat → Emit α) (hstep : ∀ x, Placed (step x))
    (hemit : ∀ t c', read c = .ok t c' → emit' t = emit t >>= fun x => step x c'.offset) :
    Follows c read emit' (pass >>= fun x => Compile.emit (step x)) := by
  intro made
  have hends := h made
  generalize hpass : pass ⟨made, c⟩ = ended at hends
  generalize hread : read c = left at hends ⊢
  cases hends with
  | @ok t x c' made' emitted =>
    have hemit := hemit t c' hread
    rw [bind_of_ok hpass]
    cases hmade : step x c'.offset made' with
    | ok a made'' =>
      have hlast : Compile.emit (step x) ⟨made', c'⟩ = .ok a ⟨made'', c'⟩ := by
        simp only [Compile.emit, hmade]
      rw [hlast]
      exact .ok (by rw [hemit, bind_of_ok emitted, hmade])
    | error refusal made'' =>
      obtain ⟨fault, offset⟩ := refusal
      obtain rfl : offset = c'.offset := hstep _ _ _ _ _ hmade
      have hlast : Compile.emit (step x) ⟨made', c'⟩ = .error fault ⟨made'', c'⟩ := by
        simp only [Compile.emit, hmade]
      rw [hlast]
      exact .refused (by rw [hemit, bind_of_ok emitted, hmade])
  | @refused t fault c' c'' made' refused =>
    rw [bind_of_error hpass]
    exact .refused (by rw [hemit t c' hread, bind_of_error refused])
  | unread =>
    rw [bind_of_error hpass]
    exact .unread

/-- What is made last is not refused. -/
theorem finish {emit : τ → Emit β} {pass : Compile β} (h : Follows c read emit pass) (last : β → Emit α)
    (hlast : ∀ x, Refuses (last x) fun _ => False) :
    Follows c read (fun t => emit t >>= last) (pass >>= fun x => Compile.emit fun _ => last x) :=
  h.last _ (fun x => placed_of_never (hlast x)) fun _ _ _ => rfl

/-- Something is made of the value. -/
theorem result {emit : τ → Emit β} {pass : Compile β} (h : Follows c read emit pass) (f : β → α) :
    Follows c read (fun t => emit t >>= fun x => Pure.pure (f x)) (pass >>= fun x => Pure.pure (f x)) :=
  h.finish _ fun _ => .pure _

/-- Compiling succeeds exactly where a tree is read and its instructions are made. -/
theorem ok_iff (h : Follows c read emit pass) {made : Emission} {a : α} {s : BodyState} :
    pass ⟨made, c⟩ = .ok a s ↔ ∃ t, read c = .ok t s.cursor ∧ emit t made = .ok a s.toEmission := by
  have hends := h made
  generalize pass ⟨made, c⟩ = ended at hends ⊢
  generalize read c = left at hends ⊢
  cases hends with
  | ok emitted =>
    constructor
    · rintro ⟨⟩
      exact ⟨_, rfl, emitted⟩
    · rintro ⟨t, ⟨⟩, hemit⟩
      cases emitted.symm.trans hemit
      rfl
  | refused refused =>
    constructor
    · rintro ⟨⟩
    · rintro ⟨t, ⟨⟩, hemit⟩
      cases refused.symm.trans hemit
  | unread =>
    constructor
    · rintro ⟨⟩
    · rintro ⟨t, ⟨⟩, _⟩

theorem congr {emit' : τ → Emit α} {pass' : Compile α} (h : Follows c read emit pass)
    (hemit : ∀ t, emit' t = emit t) (hpass : pass' = pass) : Follows c read emit' pass' := by
  rw [hpass, funext hemit]
  exact h

end Follows

/-- A bound computed from the cursor is the same for both. -/
theorem Follows.bounded {read : Nat → Scan τ} {emit : τ → Emit α} {pass : Nat → Compile α}
    (h : ∀ bound, Follows c (read bound) emit (pass bound)) :
    Follows c (Scan.bounded read) emit (Scan.bounded pass) := h _

end Compile

end Straightline
