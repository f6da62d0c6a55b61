/-!
# Passes that may fail

Readers, declaring and emission are all functions from a state to a result and a state. Four things
are said about such a pass, each of which a sequence inherits from its parts:

* `Ensures m Q`: a success of `m` satisfies `Q` of the state before, the value and the state after;
* `Refuses m P`: every error of `m` satisfies `P`;
* `Keeps R m`: however `m` ends, the state after is related to the state before by `R`;
* `Blind f m`: `m` does the same on a state that `f` has changed.

The first is mostly used by inversion: `bind_ok` takes a successful sequence apart. What a pass does with a
given input can be evaluated: whether it succeeds with a value of which something decidable holds is itself
decidable.
-/

set_option autoImplicit false

namespace Straightline

section Control

variable {ε σ α β : Type} {m : EStateM ε σ α} {k : α → EStateM ε σ β}

/-! ## Sequences -/

theorem bind_of_ok {s s₁ : σ} {a : α} (h : m s = .ok a s₁) : (m >>= k) s = k a s₁ := by
  simp only [bind, EStateM.bind, h]

theorem bind_of_error {s s₁ : σ} {e : ε} (h : m s = .error e s₁) :
    (m >>= k) s = .error e s₁ := by
  simp only [bind, EStateM.bind, h]

/-- A sequence sees no more of its first part than how that ends. -/
theorem bind_of_eq {m' : EStateM ε σ α} {s s' : σ} (h : m s = m' s') :
    (m >>= k) s = (m' >>= k) s' := by
  simp only [bind, EStateM.bind, h]

/-- A sequence that succeeds is a first part that succeeds, and the rest from where it ended. -/
theorem bind_ok {s s' : σ} {b : β} (h : (m >>= k) s = .ok b s') :
    ∃ a s₁, m s = .ok a s₁ ∧ k a s₁ = .ok b s' := by
  cases hm : m s with
  | ok a s₁ =>
    rw [bind_of_ok hm] at h
    exact ⟨a, s₁, rfl, h⟩
  | error e s₁ =>
    rw [bind_of_error hm] at h
    cases h

/-- A sequence that fails does so in its first part or after it. -/
theorem bind_error {s s' : σ} {e : ε} (h : (m >>= k) s = .error e s') :
    m s = .error e s' ∨ ∃ a s₁, m s = .ok a s₁ ∧ k a s₁ = .error e s' := by
  cases hm : m s with
  | ok a s₁ =>
    rw [bind_of_ok hm] at h
    exact Or.inr ⟨a, s₁, rfl, h⟩
  | error e₁ s₁ =>
    rw [bind_of_error hm] at h
    cases h
    exact Or.inl rfl

/-- If every round of a loop takes what holds of the state, and of what is still to come, to the same of what
comes then, so does the loop. -/
theorem forM_ok {P : σ → List β → Prop} {f : β → EStateM ε σ PUnit}
    (hround : ∀ b rest s s', P s (b :: rest) → f b s = .ok ⟨⟩ s' → P s' rest) {l rest : List β} {s s' : σ}
    (h : P s (l ++ rest)) (hs : l.forM f s = .ok ⟨⟩ s') : P s' rest := by
  induction l generalizing s with
  | nil =>
    cases hs
    exact h
  | cons b l ih =>
    obtain ⟨_, s₁, hb, hs⟩ := bind_ok hs
    exact ih (hround _ _ _ _ h hb) hs

theorem discard_eq (m : EStateM ε σ α) : discard m = m >>= fun _ => pure () := by
  simp [Functor.discard, map_const, ← bind_pure_comp]

/-! ## What a success ensures -/

/-- Whenever `m` succeeds, `Q` holds of the state before, the value and the state after. -/
def Ensures (m : EStateM ε σ α) (Q : σ → α → σ → Prop) : Prop :=
  ∀ s a s', m s = .ok a s' → Q s a s'

namespace Ensures

variable {Q Q' : σ → α → σ → Prop}

theorem imp (h : Ensures m Q) (hq : ∀ s a s', Q s a s' → Q' s a s') : Ensures m Q' :=
  fun s a s' hm => hq s a s' (h s a s' hm)

theorem throw (e : ε) : Ensures (throw e : EStateM ε σ α) Q := by
  intro s a s' h
  cases h

end Ensures

/-! ## What an error satisfies -/

/-- Every error of `m` satisfies `P`. -/
def Refuses (m : EStateM ε σ α) (P : ε → Prop) : Prop :=
  ∀ s e s', m s = .error e s' → P e

namespace Refuses

variable {P P' : ε → Prop}

theorem pure (a : α) : Refuses (pure a : EStateM ε σ α) P := by
  intro s e s' h
  cases h

theorem throw {e : ε} (h : P e) : Refuses (throw e : EStateM ε σ α) P := by
  intro s e' s' h'
  cases h'
  exact h

theorem bind (hm : Refuses m P) (hk : ∀ a, Refuses (k a) P) : Refuses (m >>= k) P := by
  intro s e s' h
  rcases bind_error h with h | ⟨a, s₁, _, h⟩
  · exact hm s e s' h
  · exact hk a s₁ e s' h

theorem discard (hm : Refuses m P) : Refuses (discard m) P := by
  rw [discard_eq]
  exact hm.bind fun _ => pure ()

theorem imp (hm : Refuses m P) (h : ∀ e, P e → P' e) : Refuses m P' :=
  fun s e s' he => h e (hm s e s' he)

/-- A loop refuses what one of its rounds does. -/
theorem forM {l : List β} {f : β → EStateM ε σ PUnit} (hf : ∀ b ∈ l, Refuses (f b) P) :
    Refuses (l.forM f) P := by
  induction l with
  | nil => exact pure _
  | cons b rest ih =>
    refine (hf b List.mem_cons_self).bind ?_
    intro _
    exact ih fun b hb => hf b (List.mem_cons_of_mem _ hb)

end Refuses

/-! ## What a pass keeps, however it ends -/

/-- The state in which a run ended, with a value or with an error. -/
def endState : EStateM.Result ε σ α → σ
  | .ok _ s => s
  | .error _ s => s

/-- The state in which `m` ends is related by `R` to the one in which it began. -/
def Keeps (R : σ → σ → Prop) (m : EStateM ε σ α) : Prop := ∀ s, R s (endState (m s))

namespace Keeps

variable {R : σ → σ → Prop}

theorem ok (h : Keeps R m) {s s' : σ} {a : α} (hm : m s = .ok a s') : R s s' := by
  have hs := h s
  rwa [hm] at hs

theorem error (h : Keeps R m) {s s' : σ} {e : ε} (hm : m s = .error e s') : R s s' := by
  have hs := h s
  rwa [hm] at hs

theorem pure (hrefl : ∀ s, R s s) (a : α) : Keeps R (pure a : EStateM ε σ α) := fun s => hrefl s

theorem throw (hrefl : ∀ s, R s s) (e : ε) : Keeps R (throw e : EStateM ε σ α) :=
  fun s => hrefl s

theorem bind (htrans : ∀ {a b c}, R a b → R b c → R a c) (hm : Keeps R m)
    (hk : ∀ a, Keeps R (k a)) : Keeps R (m >>= k) := by
  intro s
  cases h : m s with
  | ok a s₁ =>
    rw [bind_of_ok h]
    exact htrans (hm.ok h) (hk a s₁)
  | error e s₁ =>
    rw [bind_of_error h]
    exact hm.error h

end Keeps

/-! ## What a pass does not see -/

/-- The same result with another state. -/
def mapState (f : σ → σ) : EStateM.Result ε σ α → EStateM.Result ε σ α
  | .ok a s => .ok a (f s)
  | .error e s => .error e (f s)

/-- What `f` changes is not seen by `m`: the result is the same, and the change is still there. -/
def Blind (f : σ → σ) (m : EStateM ε σ α) : Prop := ∀ s, m (f s) = mapState f (m s)

namespace Blind

variable {f : σ → σ}

theorem pure (a : α) : Blind f (pure a : EStateM ε σ α) := fun _ => rfl

theorem bind (hm : Blind f m) (hk : ∀ a, Blind f (k a)) : Blind f (m >>= k) := by
  intro s
  have hs := hm s
  cases h : m s with
  | ok a s₁ =>
    rw [h] at hs
    rw [bind_of_ok h, bind_of_ok hs]
    exact hk a s₁
  | error e s₁ =>
    rw [h] at hs
    rw [bind_of_error h, bind_of_error hs]
    rfl

end Blind

end Control

/-! ## Runs that are evaluated -/

section Evaluated

variable {ε σ α : Type}

instance decidableIsOk {r : Except ε α} : Decidable (∃ a, r = .ok a) :=
  match r with
  | .ok a => .isTrue ⟨a, rfl⟩
  | .error _ => .isFalse (by simp)

instance decidableOk {r : Except ε α} {P : α → Prop} [∀ a, Decidable (P a)] :
    Decidable (∃ a, r = .ok a ∧ P a) :=
  match r with
  | .ok a => decidable_of_iff (P a) (by simp)
  | .error _ => .isFalse (by simp)

instance decidableError {r : Except ε α} {P : ε → Prop} [∀ e, Decidable (P e)] :
    Decidable (∃ e, r = .error e ∧ P e) :=
  match r with
  | .error e => decidable_of_iff (P e) (by simp)
  | .ok _ => .isFalse (by simp)

instance decidableSome {o : Option α} {P : α → Prop} [∀ a, Decidable (P a)] :
    Decidable (∃ a, o = some a ∧ P a) :=
  match o with
  | some a => decidable_of_iff (P a) (by simp)
  | none => .isFalse (by simp)

instance decidableEnded {r : EStateM.Result ε σ α} {P : α → σ → Prop} [∀ a s, Decidable (P a s)] :
    Decidable (∃ a s, r = .ok a s ∧ P a s) :=
  match r with
  | .ok a s => decidable_of_iff (P a s)
      ⟨fun h => ⟨a, s, rfl, h⟩, fun ⟨_, _, hr, h⟩ => by cases hr; exact h⟩
  | .error _ _ => .isFalse (by simp)

instance decidableFailed {r : EStateM.Result ε σ α} {P : ε → σ → Prop} [∀ e s, Decidable (P e s)] :
    Decidable (∃ e s, r = .error e s ∧ P e s) :=
  match r with
  | .error e s => decidable_of_iff (P e s)
      ⟨fun h => ⟨e, s, rfl, h⟩, fun ⟨_, _, hr, h⟩ => by cases hr; exact h⟩
  | .ok _ _ => .isFalse (by simp)

end Evaluated

end Straightline
