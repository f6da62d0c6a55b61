import Straightline.Proofs.Control
import Straightline.Proofs.Meaning.Source
import Straightline.Proofs.Reading.Literals

/-!
# Values of types

A number is of a primitive type if it is within its bounds, a struct if its fields are of the types of
the fields, and a reference if the model that it refers to is of the type. The types of the models are
kept beside the store, in a `Shape`, which only grows while a program runs: nothing else is needed to
have structs that hold models that hold each other.

A run yields what is said of it if it comes to a result from every store of its shape, unless calls are
nested too deep (`Yields`). So a run that yields anything is never stuck.
-/

set_option autoImplicit false

namespace Straightline

/-- The numbers that are values of a primitive type. -/
def Primitive.Holds : Primitive → Int → Prop
  | void, _ => False
  | bool, n => n = 0 ∨ n = 1
  | p, n => -(Nat.pow 2 (p.bits - 1) : Int) ≤ n ∧ n < (Nat.pow 2 (p.bits - 1) : Int)

theorem Primitive.holds_iff {p : Primitive} {n : Int} (h : p.isInteger = true) :
    p.Holds n ↔ -(Nat.pow 2 (p.bits - 1) : Int) ≤ n ∧ n < (Nat.pow 2 (p.bits - 1) : Int) := by
  cases p with
  | void | bool => cases h
  | int8 | int16 | int32 | int64 => rfl

/-- A literal is a value of the type that reads it. -/
theorem Ty.holds_of_literal {p : Primitive} {text : String} {n : Int}
    (h : (Ty.primitive p).literal? text = some n) : p.Holds n := by
  by_cases htruth : p.isTruth = true
  · have hbool : p = .bool := by cases p <;> first | rfl | cases htruth
    subst hbool
    simp only [literal?, htruth, if_true] at h
    by_cases htrue : text = "true"
    · simp only [htrue, if_true, Option.some.injEq] at h
      exact Or.inr h.symm
    · simp only [htrue, if_false, Option.ite_none_right_eq_some, Option.some.injEq] at h
      exact Or.inl h.2.symm
  · by_cases hinteger : p.isInteger = true
    · obtain ⟨hwrites, hle⟩ := (literal?_eq_some_iff hinteger).mp h
      rw [Primitive.holds_iff hinteger]
      have hpow : (Nat.pow 2 (p.bits - 1) : Int) = 2 ^ (p.bits - 1) := by simp
      have hnonneg : 0 ≤ n := hwrites.value ▸ Int.natCast_nonneg _
      omega
    · simp [literal?, htruth, hinteger] at h

/-- Numbers are wrapped around to numbers of the type. -/
theorem Primitive.holds_bmod {p : Primitive} (h : p.isInteger = true) (n : Int) :
    p.Holds (n.bmod (Nat.pow 2 p.bits)) := by
  rw [holds_iff h]
  have hbits : Nat.pow 2 p.bits = 2 * Nat.pow 2 (p.bits - 1) := by
    cases p with
    | void | bool => cases h
    | int8 | int16 | int32 | int64 => rfl
  have hpos : 0 < Nat.pow 2 p.bits := Nat.pow_pos (by decide)
  have hlow := Int.le_bmod (x := n) hpos
  have hhigh := Int.bmod_lt (x := n) hpos
  rw [hbits] at hlow hhigh ⊢
  omega

namespace Meaning

/-- The types of the globals and of the models made so far. -/
structure Shape where
  globals : List Ty
  models : List Ty

namespace Shape

variable {σ σ' σ'' : Shape}

/-- The type of a model, or of what a global holds. -/
def ty? (σ : Shape) : Ref → Option Ty
  | .global index => σ.globals[index]?
  | .made index => σ.models[index]?

/-- Whatever has a type in `σ` has the same type in `σ'`. -/
def Le (σ σ' : Shape) : Prop := ∀ ref ty, σ.ty? ref = some ty → σ'.ty? ref = some ty

theorem Le.refl (σ : Shape) : σ.Le σ := fun _ _ h => h

theorem Le.trans (h : σ.Le σ') (h' : σ'.Le σ'') : σ.Le σ'' :=
  fun ref ty hty => h' ref ty (h ref ty hty)

/-- With a model of type `ty` made. -/
def make (σ : Shape) (ty : Ty) : Shape := { σ with models := σ.models ++ [ty] }

theorem le_make (σ : Shape) (ty : Ty) : σ.Le (σ.make ty) := by
  intro ref ty' h
  cases ref with
  | global index => exact h
  | made index =>
    have hlt := (List.getElem?_eq_some_iff.mp h).1
    exact (List.getElem?_append_left hlt).trans h

/-- The globals of the tables have the types that the tables give them. -/
def Knows (σ : Shape) (names : Declarations) : Prop :=
  ∀ (index : Nat) (entry : String × GlobalRecord), names.globals.entries[index]? = some entry →
    σ.ty? (.global index) = some entry.2.ty

theorem Knows.later {names : Declarations} (h : σ.Knows names) (hle : σ.Le σ') :
    σ'.Knows names :=
  fun index entry hentry => hle _ _ (h index entry hentry)

end Shape

/-! ## Values -/

mutual

/-- A value of a type. -/
inductive Value.HasType (σ : Shape) : Value → Ty → Prop where
  | int {n : Int} {p : Primitive} : p.Holds n → Value.HasType σ (.int n) (.primitive p)
  | struct {fields : List Value} {name : String} {types : List (String × Ty)} :
      Value.HaveTypes σ fields (types.map Prod.snd) →
      Value.HasType σ (.struct fields) (.aggregate name .struct types)
  | model {ref : Ref} {name : String} {types : List (String × Ty)} :
      σ.ty? ref = some (.aggregate name .model types) →
      Value.HasType σ (.model ref) (.aggregate name .model types)

/-- As many values as types, each of its own. -/
inductive Value.HaveTypes (σ : Shape) : List Value → List Ty → Prop where
  | nil : Value.HaveTypes σ [] []
  | cons {v : Value} {ty : Ty} {vs : List Value} {types : List Ty} :
      Value.HasType σ v ty → Value.HaveTypes σ vs types →
      Value.HaveTypes σ (v :: vs) (ty :: types)

end

namespace Value

variable {σ σ' : Shape} {v w : Value} {vs : List Value} {ty fieldTy : Ty} {types : List Ty}
  {index : Nat}

mutual

/-- A value keeps its type while models are made. -/
theorem HasType.later (hle : σ.Le σ') {v : Value} {ty : Ty} (h : v.HasType σ ty) :
    v.HasType σ' ty := by
  cases h with
  | int hn => exact .int hn
  | struct hfields => exact .struct (HaveTypes.later hle hfields)
  | model href => exact .model (hle _ _ href)

theorem HaveTypes.later (hle : σ.Le σ') {vs : List Value} {types : List Ty}
    (h : HaveTypes σ vs types) : HaveTypes σ' vs types := by
  cases h with
  | nil => exact .nil
  | cons hv hvs => exact .cons (HasType.later hle hv) (HaveTypes.later hle hvs)

end

theorem HaveTypes.get (h : HaveTypes σ vs types) (hi : types[index]? = some ty) :
    ∃ v, vs[index]? = some v ∧ v.HasType σ ty := by
  induction index generalizing vs types with
  | zero =>
    cases h with
    | nil => simp at hi
    | cons hv _ =>
      simp only [List.getElem?_cons_zero, Option.some.injEq] at hi
      subst hi
      exact ⟨_, rfl, hv⟩
  | succ index ih =>
    cases h with
    | nil => simp at hi
    | cons _ hvs => simpa using ih hvs (by simpa using hi)

theorem HaveTypes.set (h : HaveTypes σ vs types) (hi : types[index]? = some ty)
    (hv : v.HasType σ ty) : HaveTypes σ (vs.set index v) types := by
  induction index generalizing vs types with
  | zero =>
    cases h with
    | nil => exact .nil
    | cons _ hvs =>
      simp only [List.getElem?_cons_zero, Option.some.injEq] at hi
      subst hi
      exact .cons hv hvs
  | succ index ih =>
    cases h with
    | nil => exact .nil
    | cons hw hvs => exact .cons hw (ih hvs (by simpa using hi))

/-- A model is what is referred to by the values of its type. -/
theorem HasType.model_inv (h : v.HasType σ ty) (hmodel : ty.passing = .byAddress) :
    ∃ ref, v = .model ref ∧ σ.ty? ref = some ty := by
  cases h with
  | int => cases hmodel
  | struct => cases hmodel
  | model href => exact ⟨_, rfl, href⟩

theorem hasType_model {ref : Ref} (hmodel : ty.passing = .byAddress) (h : σ.ty? ref = some ty) :
    (model ref).HasType σ ty := by
  cases ty with
  | primitive p => cases hmodel
  | aggregate name kind types =>
    cases kind with
    | struct => cases hmodel
    | model => exact .model h

theorem hasType_literal {text : String} {n : Int} (σ : Shape) (h : ty.literal? text = some n) :
    (int n).HasType σ ty := by
  cases ty with
  | primitive p => exact .int (Ty.holds_of_literal h)
  | aggregate name kind fields => cases h

/-! ## Contents -/

/-- The contents of a place of type `ty`: the fields of a model, and the value of anything else. -/
def Fills (σ : Shape) (contents : Value) (ty : Ty) : Prop :=
  match ty.passing with
  | .byValue => contents.HasType σ ty
  | .byAddress => ∃ fields, contents = .struct fields ∧ HaveTypes σ fields ty.fieldTypes

theorem fills_iff (hstruct : ty.passing = .byValue) : v.Fills σ ty ↔ v.HasType σ ty := by
  simp [Fills, hstruct]

theorem Fills.later (hle : σ.Le σ') (h : v.Fills σ ty) : v.Fills σ' ty := by
  cases hpassing : ty.passing with
  | byValue =>
    rw [fills_iff hpassing] at h ⊢
    exact h.later hle
  | byAddress =>
    simp only [Fills, hpassing] at h ⊢
    obtain ⟨fields, rfl, hfields⟩ := h
    exact ⟨fields, rfl, hfields.later hle⟩

/-- The contents of an aggregate are its fields, however it is passed. -/
theorem fills_struct (haggregate : ty.isAggregate = true) (h : HaveTypes σ vs ty.fieldTypes) :
    (struct vs).Fills σ ty := by
  cases ty with
  | primitive p => cases haggregate
  | aggregate name kind types =>
    cases kind with
    | struct => exact .struct h
    | model => exact ⟨vs, rfl, h⟩

theorem Fills.fields (h : v.Fills σ ty) (haggregate : ty.isAggregate = true) :
    ∃ fields, v = .struct fields ∧ HaveTypes σ fields ty.fieldTypes := by
  cases ty with
  | primitive p => cases haggregate
  | aggregate name kind types =>
    cases kind with
    | struct =>
      cases h with
      | struct hfields => exact ⟨_, rfl, hfields⟩
    | model => exact h

theorem Fills.field (h : v.Fills σ ty) (haggregate : ty.isAggregate = true)
    (hi : ty.fieldTypes[index]? = some fieldTy) :
    ∃ w, v.field? index = some w ∧ w.HasType σ fieldTy := by
  obtain ⟨fields, rfl, hfields⟩ := h.fields haggregate
  exact hfields.get hi

theorem Fills.setField (h : v.Fills σ ty) (haggregate : ty.isAggregate = true)
    (hi : ty.fieldTypes[index]? = some fieldTy) (hw : w.HasType σ fieldTy) :
    ∃ v', v.setField? index w = some v' ∧ v'.Fills σ ty := by
  obtain ⟨fields, rfl, hfields⟩ := h.fields haggregate
  obtain ⟨_, hget, _⟩ := hfields.get hi
  refine ⟨.struct (fields.set index w), ?_, fills_struct haggregate (hfields.set hi hw)⟩
  exact if_pos (List.getElem?_eq_some_iff.mp hget).1

end Value

/-! ## Stores -/

/-- Every place of the shape holds contents of its type. -/
structure Store.Typed (σ : Shape) (s : Store) : Prop where
  filled : ∀ ref ty, σ.ty? ref = some ty → ∃ v, s.read? ref = some v ∧ v.Fills σ ty
  made : s.models.length = σ.models.length

namespace Store.Typed

variable {σ : Shape} {s : Store} {ref : Ref} {v : Value} {ty : Ty}

theorem read?_set_self {w : Value} (h : s.read? ref = some w) :
    (s.set v ref).read? ref = some v := by
  cases ref with
  | global index => exact List.getElem?_set_self (List.getElem?_eq_some_iff.mp h).1
  | made index => exact List.getElem?_set_self (List.getElem?_eq_some_iff.mp h).1

theorem read?_set_ne {ref' : Ref} (h : ref ≠ ref') : (s.set v ref).read? ref' = s.read? ref' := by
  cases ref with
  | global index =>
    cases ref' with
    | global index' => exact List.getElem?_set_ne fun he => h (congrArg Ref.global he)
    | made index' => rfl
  | made index =>
    cases ref' with
    | global index' => rfl
    | made index' => exact List.getElem?_set_ne fun he => h (congrArg Ref.made he)

theorem write (h : s.Typed σ) (href : σ.ty? ref = some ty) (hv : v.Fills σ ty) :
    (s.set v ref).Typed σ where
  filled := by
    intro ref' ty' href'
    by_cases hsame : ref = ref'
    · subst hsame
      rw [href] at href'
      cases href'
      obtain ⟨old, hold, _⟩ := h.filled ref ty href
      exact ⟨v, read?_set_self hold, hv⟩
    · rw [read?_set_ne hsame]
      exact h.filled ref' ty' href'
  made := by
    have hmade := h.made
    cases ref <;> simpa [set] using hmade

/-- A model is made of contents of its type. -/
theorem make (h : s.Typed σ) (hv : v.Fills σ ty) :
    Store.Typed (σ.make ty) { s with models := s.models ++ [v] } where
  filled := by
    intro ref ty' href
    cases ref with
    | global index =>
      obtain ⟨w, hw, hfills⟩ := h.filled (.global index) ty' href
      exact ⟨w, hw, hfills.later (σ.le_make ty)⟩
    | made index =>
      by_cases hold : index < σ.models.length
      · have hty : σ.ty? (.made index) = some ty' := (List.getElem?_append_left hold).symm.trans href
        obtain ⟨w, hw, hfills⟩ := h.filled (.made index) ty' hty
        refine ⟨w, ?_, hfills.later (σ.le_make ty)⟩
        exact (List.getElem?_append_left (h.made ▸ hold)).trans hw
      · -- The only place of the new shape that is not in the old one is the last.
        have hlt := (List.getElem?_eq_some_iff.mp href).1
        have hlast : index = σ.models.length := by
          simp [Shape.make] at hlt
          omega
        subst hlast
        have hsame : ty = ty' := by
          simpa [Shape.ty?, Shape.make] using href
        subst hsame
        exact ⟨v, by simp [read?, ← h.made], hv.later (σ.le_make ty)⟩
  made := by simp [Shape.make, h.made]

end Store.Typed

/-! ## Runs -/

section Runs

variable {α β : Type} {σ : Shape} {Q Q' : Shape → α → Prop} {R : Shape → β → Prop}

/-- From every store of shape `σ` the run comes to a result of which `Q` holds, and to a store of a
shape that has grown; or calls are nested too deep. -/
def Yields (σ : Shape) (x : Run α) (Q : Shape → α → Prop) : Prop :=
  ∀ s : Store, s.Typed σ →
    match x s with
    | .ok a s' => ∃ σ', σ.Le σ' ∧ s'.Typed σ' ∧ Q σ' a
    | .error stop _ => stop = .depth

namespace Yields

variable {x : Run α}

theorem imp (h : Yields σ x Q) (hq : ∀ σ' a, σ.Le σ' → Q σ' a → Q' σ' a) : Yields σ x Q' := by
  intro s hs
  have hx := h s hs
  cases hrun : x s with
  | ok a s' =>
    rw [hrun] at hx
    obtain ⟨σ', hle, hs', ha⟩ := hx
    exact ⟨σ', hle, hs', hq σ' a hle ha⟩
  | error stop s' =>
    rw [hrun] at hx
    exact hx

theorem pure {a : α} (h : Q σ a) : Yields σ (pure a) Q :=
  fun _ hs => ⟨σ, .refl σ, hs, h⟩

theorem bind {k : α → Run β} (h : Yields σ x Q)
    (hk : ∀ σ' a, σ.Le σ' → Q σ' a → Yields σ' (k a) R) : Yields σ (x >>= k) R := by
  intro s hs
  have hx := h s hs
  cases hrun : x s with
  | ok a s' =>
    rw [hrun] at hx
    rw [bind_of_ok hrun]
    obtain ⟨σ', hle, hs', ha⟩ := hx
    have hrest := hk σ' a hle ha s' hs'
    cases hrun' : k a s' with
    | ok b s'' =>
      rw [hrun'] at hrest
      obtain ⟨σ'', hle', hs'', hb⟩ := hrest
      exact ⟨σ'', hle.trans hle', hs'', hb⟩
    | error stop s'' =>
      rw [hrun'] at hrest
      exact hrest
  | error stop s' =>
    rw [hrun] at hx
    rw [bind_of_error hrun]
    exact hx

/-- What is there may be used. -/
theorem known {o : Option α} {a : α} (ho : o = some a) (h : Q σ a) : Yields σ (known o) Q := by
  subst ho
  exact pure h

end Yields

theorem read_eq {s : Store} {ref : Ref} {v : Value} (h : s.read? ref = some v) :
    read ref s = .ok v s := by
  show Meaning.known (s.read? ref) s = _
  rw [h]
  rfl

theorem yields_read {ref : Ref} {ty : Ty} (href : σ.ty? ref = some ty) :
    Yields σ (read ref) fun σ' v => v.Fills σ' ty := by
  intro s hs
  obtain ⟨v, hv, hfills⟩ := hs.filled ref ty href
  rw [read_eq hv]
  exact ⟨σ, .refl σ, hs, hfills⟩

theorem yields_write {ref : Ref} {ty : Ty} {v : Value} (href : σ.ty? ref = some ty)
    (hv : v.Fills σ ty) : Yields σ (write ref v) fun _ _ => True := by
  unfold write
  rw [discard_eq, bind_assoc]
  intro s hs
  obtain ⟨old, hold, _⟩ := hs.filled ref ty href
  rw [bind_of_ok (read_eq hold)]
  exact ⟨σ, .refl σ, hs.write href hv, trivial⟩

theorem yields_writeField {ref : Ref} {ty fieldTy : Ty} {index : Nat} {v : Value}
    (href : σ.ty? ref = some ty) (haggregate : ty.isAggregate = true)
    (hi : ty.fieldTypes[index]? = some fieldTy) (hv : v.HasType σ fieldTy) :
    Yields σ (writeField ref index v) fun _ _ => True := by
  unfold writeField
  refine (yields_read href).bind ?_
  intro σ' contents hle hcontents
  obtain ⟨contents', hset, hfills⟩ := hcontents.setField haggregate hi (hv.later hle)
  rw [hset, known_bind]
  exact yields_write (hle _ _ href) hfills

theorem yields_make {ty : Ty} {v : Value} (hmodel : ty.passing = .byAddress)
    (hv : v.Fills σ ty) : Yields σ (make v) fun σ' model => model.HasType σ' ty := by
  intro s hs
  refine ⟨σ.make ty, σ.le_make ty, hs.make hv, Value.hasType_model hmodel ?_⟩
  simp [Shape.ty?, Shape.make, hs.made]

theorem yields_combine {ty : Ty} {v w : Value} (operator : Operator) (hinteger : ty.isInteger = true)
    (hv : v.HasType σ ty) (hw : w.HasType σ ty) :
    Yields σ (combine ty operator v w) fun σ' result => result.HasType σ' ty := by
  cases ty with
  | aggregate name kind fields => cases hinteger
  | primitive p =>
    cases hv
    cases hw
    exact .pure (.int (Primitive.holds_bmod hinteger _))

end Runs

end Meaning

end Straightline
