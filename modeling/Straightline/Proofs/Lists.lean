import Mathlib.Data.List.Forall2
import Mathlib.Data.List.Nodup

/-!
# Lists as tables

The tables of a project, the parts of a module and the memory of a machine are lists that grow at their end,
and an entry is found by its key or its place. What grows keeps the entries that were there
(`of_getElem?_concat`), and of distinct keys each finds its own entry (`find?_of_distinct`).
-/

set_option autoImplicit false

namespace Straightline

section Keys

variable {α β : Type} [BEq β] [LawfulBEq β]

/-- Of distinct keys, each finds its own element. -/
theorem find?_of_distinct {key : α → β} {l : List α} {a : α} (hkeys : (l.map key).Nodup) (h : a ∈ l) :
    l.find? (fun b => key b == key a) = some a := by
  induction l with
  | nil => cases h
  | cons first rest ih =>
    rw [List.map_cons, List.nodup_cons] at hkeys
    rw [List.find?_cons]
    rcases List.mem_cons.mp h with rfl | h
    · rw [beq_self_eq_true]
    · have hne : (key first == key a) = false :=
        beq_false_of_ne fun he => hkeys.1 (he ▸ List.mem_map_of_mem h)
      rw [hne]
      exact ih hkeys.2 h

/-- And is looked up as its own value. -/
theorem lookup_of_mem {table : List (β × α)} {key : β} {value : α} (hkeys : (table.map Prod.fst).Nodup)
    (h : (key, value) ∈ table) : table.lookup key = some value := by
  induction table with
  | nil => cases h
  | cons first rest ih =>
    rw [List.map_cons, List.nodup_cons] at hkeys
    rw [List.lookup_cons]
    rcases List.mem_cons.mp h with rfl | h
    · simp
    · have hne : (key == first.1) = false :=
        beq_false_of_ne fun he => hkeys.1 (he ▸ List.mem_map_of_mem (f := Prod.fst) h)
      simp only [hne]
      exact ih hkeys.2 h

end Keys

section Growth

variable {α β : Type} {l : List α} {l' : List β} {last x : α} {last' x' : β} {k : Nat}

/-- What a list with one more entry holds at a place. -/
theorem of_getElem?_concat (h : (l ++ [last])[k]? = some x) : l[k]? = some x ∨ k = l.length ∧ x = last := by
  rw [List.getElem?_append] at h
  split at h
  case isTrue => exact .inl h
  case isFalse =>
    obtain ⟨hlt, rfl⟩ := List.getElem?_eq_some_iff.mp h
    rw [List.length_singleton] at hlt
    exact .inr ⟨by omega, by simp [Nat.lt_one_iff.mp hlt]⟩

theorem both_of_getElem?_concat (hlength : l'.length = l.length) (h : (l ++ [last])[k]? = some x)
    (h' : (l' ++ [last'])[k]? = some x') :
    l[k]? = some x ∧ l'[k]? = some x' ∨ k = l.length ∧ x = last ∧ x' = last' := by
  rcases of_getElem?_concat h with h | ⟨hk, rfl⟩ <;>
    rcases of_getElem?_concat h' with h' | ⟨hk', rfl⟩
  · exact .inl ⟨h, h'⟩
  · exact absurd (List.getElem?_eq_some_iff.mp h).1 (by omega)
  · exact absurd (List.getElem?_eq_some_iff.mp h').1 (by omega)
  · exact .inr ⟨hk, rfl, rfl⟩

theorem of_getElem?_take {i : Nat} (h : (l.take k)[i]? = some x) : l[i]? = some x := by
  rw [List.getElem?_take] at h
  split at h
  case isTrue => exact h
  case isFalse => cases h

theorem nodup_concat (hlast : last ∉ l) (h : l.Nodup) : (l ++ [last]).Nodup :=
  List.concat_eq_append ▸ h.concat hlast

theorem forall_concat {P : α → Prop} (h : ∀ x ∈ l, P x) (hlast : P last) : ∀ x ∈ l ++ [last], P x :=
  List.forall_mem_append.mpr ⟨h, List.forall_mem_singleton.mpr hlast⟩

end Growth

section Related

variable {α β : Type} {R : α → β → Prop} {l : List α} {l' : List β}

/-- What a list is related to has something related in every place. -/
theorem forall₂_getElem? (h : List.Forall₂ R l l') {i : Nat} {a : α} (ha : l[i]? = some a) :
    ∃ b, l'[i]? = some b ∧ R a b := by
  induction h generalizing i with
  | nil => simp at ha
  | @cons a' b l l' hr _ ih =>
    cases i with
    | zero =>
      cases ha
      exact ⟨b, rfl, hr⟩
    | succ i => exact ih ha

end Related

end Straightline
