import Straightline.Proofs.Control
import Straightline.Proofs.Meaning.Machine

/-!
# Values and memories

A value of the language is represented by a datum, and a store by the memory that holds the data of its
values in the cells of globals and of allocated storage; the slots are apart. Reading and writing the
store is loading and storing through the addresses of its models.

`Simulates` says that two runs end alike, one on a store and one on a memory. It composes along
sequences, which is the only thing that is used of it.
-/

set_option autoImplicit false

namespace Straightline.Meaning

open IR (Datum Memory Exec)

/-! ## Representation -/

/-- The cell of a model. -/
def Ref.base : Ref → IR.Base
  | .global index => .global index
  | .made index => .heap index

mutual

def Value.datum : Value → Datum
  | .int value => .int value
  | .struct fields => .struct (Value.data fields)
  | .model ref => .ptr ⟨ref.base, []⟩

def Value.data : List Value → List Datum
  | [] => []
  | v :: rest => v.datum :: Value.data rest

end

theorem Value.data_eq_map (values : List Value) : Value.data values = values.map Value.datum := by
  induction values with
  | nil => rfl
  | cons v rest ih => rw [Value.data, ih, List.map_cons]

/-- The cells that hold these values. -/
def cells (values : List Value) : List (Option Datum) := values.map fun v => some v.datum

/-- The memory that holds a store beside these slots. -/
def Store.memory (s : Store) (stack : List (Option Datum)) : Memory :=
  ⟨cells s.globals, cells s.models, stack⟩

section Fields

variable {v w : Value} {index : Nat}

theorem at?_datum : v.datum.at? [index] = (v.field? index).map Value.datum := by
  cases v with
  | int n => rfl
  | model ref => rfl
  | struct fields =>
    rw [Value.datum, Value.data_eq_map, Datum.at?, List.getElem?_map, Value.field?]
    cases fields[index]? <;> rfl

theorem put?_datum :
    v.datum.put? [index] w.datum = (v.setField? index w).map Value.datum := by
  cases v with
  | int n => rfl
  | model ref => rfl
  | struct fields =>
    rw [Value.datum, Value.data_eq_map, Datum.put?, List.getElem?_map, Value.setField?]
    by_cases h : index < fields.length
    · rw [List.getElem?_eq_getElem h, if_pos h]
      simp [Datum.put?, Value.datum, Value.data_eq_map, List.map_set]
    · rw [List.getElem?_eq_none (Nat.le_of_not_lt h), if_neg h]
      rfl

end Fields

namespace Store

variable {s : Store} {stack : List (Option Datum)} {ref : Ref} {v : Value}

theorem cell?_memory :
    (s.memory stack).cell? ref.base = (s.read? ref).map fun v => some v.datum := by
  cases ref <;> simp [memory, cells, Ref.base, Memory.cell?, read?]

theorem set_memory : (s.memory stack).set v.datum ref.base = (s.set v ref).memory stack := by
  cases ref <;> simp [memory, cells, Ref.base, Memory.set, set, List.map_set]

theorem load?_memory : (s.memory stack).load? ⟨ref.base, []⟩ = (s.read? ref).map Value.datum := by
  unfold Memory.load?
  rw [cell?_memory]
  cases s.read? ref <;> rfl

theorem load?_field {index : Nat} :
    (s.memory stack).load? ⟨ref.base, [index]⟩
      = ((s.read? ref).bind fun v => v.field? index).map Value.datum := by
  unfold Memory.load?
  rw [cell?_memory]
  cases s.read? ref with
  | none => rfl
  | some whole => exact at?_datum

theorem store?_memory :
    (s.memory stack).store? ⟨ref.base, []⟩ v.datum
      = (s.read? ref).map fun _ => (s.set v ref).memory stack := by
  unfold Memory.store?
  rw [cell?_memory]
  cases s.read? ref with
  | none => rfl
  | some whole => exact congrArg some set_memory

theorem store?_field {index : Nat} :
    (s.memory stack).store? ⟨ref.base, [index]⟩ v.datum
      = ((s.read? ref).bind fun whole => whole.setField? index v).map fun whole =>
          (s.set whole ref).memory stack := by
  unfold Memory.store?
  rw [cell?_memory]
  cases s.read? ref with
  | none => rfl
  | some whole =>
    simp only [Option.map_some, Option.bind_eq_bind, Option.bind_some, put?_datum]
    cases whole.setField? index v with
    | none => rfl
    | some whole' => exact congrArg some set_memory

end Store

/-! ## Access to the store -/

section Access

variable {s : Store} {ref : Ref} {v : Value} {index : Nat}

theorem read_field :
    (do
      let contents ← read ref
      known (contents.field? index) : Run Value) s
      = known ((s.read? ref).bind fun v => v.field? index) s := by
  change (known (s.read? ref) >>= fun contents => known (contents.field? index)) s = _
  cases s.read? ref <;> rfl

theorem write_eq :
    write ref v s = (known ((s.read? ref).map fun _ => s.set v ref) >>= fun s' => set s') s := by
  unfold write
  rw [discard_eq, bind_assoc]
  change (known (s.read? ref) >>= fun _ => modify fun s => s.set v ref) s = _
  cases s.read? ref <;> rfl

theorem writeField_eq :
    writeField ref index v s
      = (known (((s.read? ref).bind fun whole => whole.setField? index v).map fun whole =>
          s.set whole ref) >>= fun s' => set s') s := by
  unfold writeField
  change (known (s.read? ref) >>= fun contents => known (contents.setField? index v) >>= write ref)
    s = _
  cases hread : s.read? ref with
  | none => rfl
  | some whole =>
    rw [known_bind, Option.bind_some]
    cases whole.setField? index v with
    | none => rfl
    | some whole' =>
      rw [known_bind, write_eq, hread]
      rfl

end Access

/-! ## Runs that end alike -/

section Simulation

variable {α β γ δ : Type} {R R' : α → Store → β → Memory → Prop}
  {S : γ → Store → δ → Memory → Prop}

/-- Both come to a result, and the results are related; or both stop for the same reason. -/
def Simulates (R : α → Store → β → Memory → Prop) :
    EStateM.Result Stop Store α → EStateM.Result Stop Memory β → Prop
  | .ok a s, .ok b m => R a s b m
  | .error e _, .error e' _ => e = e'
  | _, _ => False

namespace Simulates

variable {x : Run α} {y : Exec β} {s : Store} {m : Memory}

theorem imp (h : Simulates R (x s) (y m)) (hR : ∀ a s b m, R a s b m → R' a s b m) :
    Simulates R' (x s) (y m) := by
  cases hx : x s <;> cases hy : y m <;> rw [hx, hy] at h
  · exact hR _ _ _ _ h
  · exact h
  · exact h
  · exact h

theorem bind {k : α → Run γ} {l : β → Exec δ} (h : Simulates R (x s) (y m))
    (hk : ∀ a s' b m', R a s' b m' → Simulates S (k a s') (l b m')) :
    Simulates S ((x >>= k) s) ((y >>= l) m) := by
  cases hx : x s with
  | ok a s' =>
    cases hy : y m with
    | ok b m' =>
      rw [hx, hy] at h
      rw [bind_of_ok hx, bind_of_ok hy]
      exact hk a s' b m' h
    | error e m' =>
      rw [hx, hy] at h
      cases h
  | error e s' =>
    cases hy : y m with
    | ok b m' =>
      rw [hx, hy] at h
      cases h
    | error e' m' =>
      rw [hx, hy] at h
      rw [bind_of_error hx, bind_of_error hy]
      exact h

/-- What is known of results on the one side may be used. -/
theorem ensures {Q : Store → α → Store → Prop} (h : Simulates R (x s) (y m)) (hx : Ensures x Q) :
    Simulates (fun a s' b m' => R a s' b m' ∧ Q s a s') (x s) (y m) := by
  cases hrun : x s with
  | ok a s' =>
    cases hy : y m with
    | ok b m' =>
      rw [hrun, hy] at h
      exact ⟨h, hx s a s' hrun⟩
    | error e m' =>
      rw [hrun, hy] at h
      exact h
  | error e s' =>
    cases hy : y m with
    | ok b m' =>
      rw [hrun, hy] at h
      exact h
    | error e' m' =>
      rw [hrun, hy] at h
      exact h

/-- What is there on the one side is there on the other. -/
theorem known {o : Option α} {f : α → β} (h : ∀ a, o = some a → R a s (f a) m) :
    Simulates R (known o s) (Meaning.known (o.map f) m) := by
  cases o with
  | none => exact rfl
  | some a => exact h a rfl

end Simulates

end Simulation

end Straightline.Meaning
