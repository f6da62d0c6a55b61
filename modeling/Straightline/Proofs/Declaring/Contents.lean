import Straightline.Proofs.Declaring.Headers

/-!
# Contents of globals pass the check of the module

A constant is checked against the fields of a type while it is read, and again against the structure
of that name when the module is checked. The module keeps one structure for each type, in the order
of the table (`Ty.LaidOut`), so the two checks agree; a constant within another is never a model, so
it is laid out as it is passed.
-/

set_option autoImplicit false

namespace Straightline

/-- The structure of a type in the module. -/
def Ty.structDef (name : String) (ty : Ty) : IR.StructDef :=
  ⟨name, ty.fieldTypes.map Ty.irType⟩

/-- The module has a structure for every type of the table, in the same order. -/
def Ty.LaidOut (types : SymbolTable Ty) (m : IR.Module) : Prop :=
  m.structs = types.entries.map fun entry => Ty.structDef entry.1 entry.2

namespace Ty

variable {types : SymbolTable Ty} {m : IR.Module} {name : String} {ty : Ty}

theorem LaidOut.structDef? (h : LaidOut types m) (hfind : types.find? name = some ty) :
    m.structDef? name = some (structDef name ty) := by
  unfold SymbolTable.find? at hfind
  obtain ⟨⟨key, value⟩, hentry, rfl⟩ := Option.map_eq_some_iff.mp hfind
  have hkey : key = name := by simpa using List.find?_some hentry
  subst hkey
  unfold IR.Module.structDef?
  rw [h, List.find?_map]
  exact congrArg (Option.map _) hentry

theorem layoutType_of_aggregate (h : ty.isAggregate = true) : ty.layoutType = .struct ty.name := by
  cases ty with
  | primitive p => cases h
  | aggregate name kind fields => rfl

/-- A known aggregate is the structure of its name. -/
theorem LaidOut.structDef?_of_known (h : LaidOut types m) (hknown : ty.KnownIn types)
    (haggregate : ty.isAggregate = true) :
    m.structDef? ty.name = some (structDef ty.name ty) :=
  h.structDef? (hknown haggregate)

theorem irType_of_byValue (h : ty.passing = .byValue) : ty.irType = ty.layoutType := by
  unfold irType
  rw [h]

theorem irType_of_byAddress (h : ty.passing = .byAddress) :
    ty.irType = .ptr ty.layoutType := by
  unfold irType
  rw [h]

theorem isInt_layoutType_of_literal {word : String} {value : Int}
    (h : ty.literal? word = some value) : ty.layoutType.isInt = true := by
  cases ty with
  | aggregate name kind fields => cases h
  | primitive p => cases p <;> first | rfl | cases h

theorem byValue_of_literal {word : String} {value : Int} (h : ty.literal? word = some value) :
    ty.passing = .byValue := by
  cases ty with
  | aggregate name kind fields => cases h
  | primitive p => rfl

end Ty

namespace IR.Module

variable {m : Module}

/-- Fields that pass one by one pass together. -/
theorem checkConstants_ok {tys : List Ty} {values : List Constant}
    (h : List.Forall₂ (fun ty value => m.checkConstant ty.irType value = .ok ()) tys values) :
    m.checkConstants (tys.map Ty.irType) values = .ok () := by
  induction h with
  | nil =>
    simp only [List.map_nil]
    unfold checkConstants
    rfl
  | cons hvalue _ ih =>
    rw [List.map_cons, checkConstants, hvalue]
    exact ih

end IR.Module

namespace Scan

variable {α : Type} {types : SymbolTable Ty} {m : IR.Module}

/-- As many elements are read as are expected, each against the type at its place. -/
theorem positional_ensures {expected : List Ty} {read : Ty → Scan α} {P : Ty → α → Prop}
    (hread : ∀ ty, Ensures (read ty) fun _ a _ => P ty a) :
    Ensures (positional expected read) fun _ values _ => List.Forall₂ P expected values := by
  intro c values c' h
  obtain ⟨elements, c₁, helements, h⟩ := bind_ok h
  split at h
  · cases h
  rename_i hcount
  cases h
  have hP := arguments_ensures
    (P := fun index a => ∃ ty, expected[index]? = some ty ∧ P ty a) (fun index => by
      intro c a c' h
      cases hty : expected[index]? with
      | none =>
        rw [hty] at h
        cases h
      | some ty =>
        rw [hty] at h
        obtain ⟨_, c₁, _, h⟩ := bind_ok h
        exact ⟨ty, rfl, hread ty _ _ _ h⟩) _ _ _ helements
  have hlength : elements.length ≤ expected.length := by
    by_contra hmore
    have hi : expected.length < elements.length := by omega
    obtain ⟨ty, hty, _⟩ := hP expected.length _ (List.getElem?_eq_getElem hi)
    simp at hty
  rw [List.forall₂_iff_get]
  refine ⟨by simp; omega, fun i hi hi' => ?_⟩
  have hi'' : i < elements.length := by simpa using hi'
  obtain ⟨ty, hty, hPi⟩ := hP i _ (List.getElem?_eq_getElem hi'')
  have hget : expected[i] = ty := by
    rw [List.getElem?_eq_getElem hi] at hty
    exact Option.some.inj hty
  simpa [hget] using hPi

/-- A constant is a literal, or a literal of the type expected, which has to be passed by value where the
constant is a field of another. -/
theorem constantWithin_iff {depth : Nat} {nested : Bool} {expected : Ty} {c c' : Cursor} {v : IR.Constant} :
    constantWithin types (depth + 1) nested expected c = .ok v c' ↔
      (∃ text n, termHead c = .ok (.word text) c' ∧ expected.literal? text = some n ∧ v = .int n) ∨
      ∃ callee c₁ fields, termHead c = .ok (.call callee) c₁ ∧ types.find? callee = some expected ∧
        (nested = true → expected.passing = .byValue) ∧
        positional expected.fieldTypes (constantWithin types depth true) c₁ = .ok fields c' ∧
        v = .struct fields := by
  constructor
  · intro h
    obtain ⟨head, c₁, hhead, h⟩ := bind_ok h
    cases head with
    | word text =>
      cases hliteral : expected.literal? text with
      | none =>
        simp only [hliteral] at h
        split at h <;> cases h
      | some n =>
        simp only [hliteral] at h
        cases h
        exact .inl ⟨text, n, hhead, hliteral, rfl⟩
    | call callee =>
      cases hfind : types.find? callee with
      | none =>
        simp only [hfind] at h
        cases h
      | some ty =>
        simp only [hfind] at h
        obtain ⟨_, c₂, hsame, h⟩ := bind_ok h
        obtain ⟨_, c₃, hnested, h⟩ := bind_ok h
        obtain ⟨fields, c₄, hfields, h⟩ := bind_ok h
        cases h
        obtain ⟨hty, rfl⟩ := require_iff.mp hsame
        obtain ⟨hpassing, rfl⟩ := require_iff.mp hnested
        obtain rfl := eq_of_beq hty
        refine .inr ⟨callee, _, fields, hhead, hfind, fun htrue => ?_, hfields, rfl⟩
        simpa [htrue] using hpassing
    | field target member | methodCall target member => cases h
  · rintro (⟨text, n, hhead, hliteral, rfl⟩ | ⟨callee, c₁, fields, hhead, hfind, hpassing, hfields, rfl⟩)
    · refine (bind_of_ok hhead).trans ?_
      simp only [hliteral]
      rfl
    · have hnested : (!nested || expected.passing == .byValue) = true := by
        cases nested with
        | false => rfl
        | true => simp [hpassing rfl]
      refine (bind_of_ok hhead).trans ?_
      simp only [hfind]
      exact (bind_of_ok (require_iff.mpr ⟨beq_self_eq_true _, rfl⟩)).trans
        ((bind_of_ok (require_iff.mpr ⟨hnested, rfl⟩)).trans (bind_of_ok hfields))

/-- What holds of literals, and of the constants of a type whenever it holds of their fields, holds of
every constant. A field is always passed as a value. -/
theorem constantWithin_ensures {P : Ty → IR.Constant → Prop}
    (hliteral : ∀ {ty text n}, ty.literal? text = some n → P ty (.int n))
    (hstruct : ∀ {name ty fields}, types.find? name = some ty →
      List.Forall₂ (fun ty c => P ty c ∧ ty.passing = .byValue) ty.fieldTypes fields →
      P ty (.struct fields))
    (depth : Nat) (nested : Bool) (expected : Ty) :
    Ensures (constantWithin types depth nested expected) fun _ value _ =>
      P expected value ∧ (nested = true → expected.passing = .byValue) := by
  induction depth generalizing nested expected with
  | zero => exact Ensures.throw _
  | succ depth ih =>
    intro c value c' h
    obtain ⟨text, n, _, hword, rfl⟩ | ⟨callee, c₁, fields, _, hfind, hpassing, hfields, rfl⟩ :=
      constantWithin_iff.mp h
    · exact ⟨hliteral hword, fun _ => Ty.byValue_of_literal hword⟩
    · have hall := positional_ensures (ih true) _ _ _ hfields
      exact ⟨hstruct hfind (hall.imp fun ty c hc => ⟨hc.1, hc.2 rfl⟩), hpassing⟩

theorem contents_ensures {P : Ty → IR.Constant → Prop}
    (hliteral : ∀ {ty text n}, ty.literal? text = some n → P ty (.int n))
    (hstruct : ∀ {name ty fields}, types.find? name = some ty →
      List.Forall₂ (fun ty c => P ty c ∧ ty.passing = .byValue) ty.fieldTypes fields →
      P ty (.struct fields))
    (expected : Ty) : Ensures (contents types expected) fun _ value _ => P expected value := by
  intro c value c' h
  obtain ⟨_, c₁, _, h⟩ := bind_ok h
  obtain ⟨_, c₂, _, h⟩ := bind_ok h
  obtain ⟨_, c₃, _, h⟩ := bind_ok h
  obtain ⟨value', c₄, hvalue, h⟩ := bind_ok h
  obtain ⟨more, c₅, _, h⟩ := bind_ok h
  cases more with
  | true =>
    obtain ⟨operator, c₆, _, h⟩ := bind_ok h
    cases h
  | false =>
    cases h
    exact (constantWithin_ensures hliteral hstruct _ false expected _ _ _ hvalue).1

/-- The contents of a global of type `expected` are laid out as the type is. -/
theorem checks_contents (htypes : Ty.Tabled types) (hlaid : Ty.LaidOut types m) (expected : Ty) :
    Ensures (contents types expected) fun _ value _ =>
      m.checkConstant expected.layoutType value = .ok () := by
  refine contents_ensures (P := fun ty c => m.checkConstant ty.layoutType c = .ok ())
    (fun hword => ?_) (fun hfind hfields => ?_) expected
  · rw [IR.Module.checkConstant, if_pos (Ty.isInt_layoutType_of_literal hword)]
  · obtain ⟨haggregate, _, hknown⟩ := htypes.known_of_find? hfind
    have hdef := hlaid.structDef?_of_known hknown haggregate
    have hall := hfields.imp (S := fun ty c => m.checkConstant ty.irType c = .ok ())
      fun ty c hc => by
        rw [Ty.irType_of_byValue hc.2]
        exact hc.1
    rw [Ty.layoutType_of_aggregate haggregate, IR.Module.checkConstant]
    simp only [hdef, Ty.structDef, List.length_map, hall.length_eq]
    simpa using IR.Module.checkConstants_ok hall

end Scan

end Straightline
