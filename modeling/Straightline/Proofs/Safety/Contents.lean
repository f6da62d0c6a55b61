import Straightline.Proofs.Declaring.Sound
import Straightline.Proofs.Meaning.Agreement
import Straightline.Proofs.Safety.Types

/-!
# Where a program starts

The constants of a module make the store in which its program starts. Every constant was read against
the type of its global, so that store has the shape that the tables tell: the hypothesis under which
nothing is stuck is met at the start. A constant refers to no model, hence it has its type in every
shape.
-/

set_option autoImplicit false

namespace Straightline

open Meaning (Shape Store Value)

/-! ## Constants -/

namespace IR.Constant

mutual

/-- The value that a constant stands for. -/
def value : IR.Constant → Meaning.Value
  | .int n => .int n
  | .struct fields => .struct (values fields)

def values : List IR.Constant → List Meaning.Value
  | [] => []
  | c :: rest => c.value :: values rest

end

mutual

theorem datum_value (c : IR.Constant) : c.value.datum = c.datum := by
  cases c with
  | int n => rfl
  | struct fields => rw [value, Value.datum, data_values fields, datum]

theorem data_values (cs : List IR.Constant) : Meaning.Value.data (values cs) = data cs := by
  cases cs with
  | nil => rfl
  | cons c rest => rw [values, Value.data, datum_value c, data_values rest, data]

end

end IR.Constant

/-- The values of fields that pass one by one. -/
theorem haveTypes_values {σ : Shape} {types : List Ty} {fields : List IR.Constant}
    (h : List.Forall₂ (fun ty (c : IR.Constant) => c.value.Fills σ ty ∧ ty.passing = .byValue)
      types fields) : Value.HaveTypes σ (IR.Constant.values fields) types := by
  induction h with
  | nil => exact .nil
  | cons hfield _ ih => exact .cons ((Value.fills_iff hfield.2).mp hfield.1) ih

/-- Contents that are read for a global are of its type. -/
theorem Scan.fills_contents {types : SymbolTable Ty} (htypes : Ty.Tabled types) (σ : Shape)
    (expected : Ty) :
    Ensures (Scan.contents types expected) fun _ c _ => c.value.Fills σ expected := by
  refine Scan.contents_ensures (P := fun ty (c : IR.Constant) => c.value.Fills σ ty)
    (fun hword => ?_) (fun hfind hfields => ?_) expected
  · rw [IR.Constant.value, Value.fills_iff (Ty.byValue_of_literal hword)]
    exact Value.hasType_literal σ hword
  · obtain ⟨haggregate, _, _⟩ := htypes.known_of_find? hfind
    exact Value.fills_struct haggregate (haveTypes_values hfields)

/-! ## Modules -/

/-- The store in which a program starts. -/
def IR.Module.contents (m : IR.Module) : Meaning.Store := ⟨m.globals.map fun g => g.init.value, []⟩

/-- The memory in which a module starts: the constants of its globals. -/
def IR.Module.memory (m : IR.Module) : IR.Memory :=
  ⟨m.globals.map fun g => some g.init.datum, [], []⟩

theorem IR.Module.memory_contents (m : IR.Module) : m.contents.memory [] = m.memory := by
  simp [contents, memory, Meaning.Store.memory, Meaning.cells, IR.Constant.datum_value]

/-- The shape of a store when no model was made yet. -/
def Declarations.shape (d : Declarations) : Shape :=
  ⟨d.globals.entries.map fun entry => entry.2.ty, []⟩

/-- Every global has contents of its type, whatever models there are. -/
def Declarations.Filled (d : Declarations) (m : IR.Module) : Prop :=
  ∀ (index : Nat) (entry : String × GlobalRecord), d.globals.entries[index]? = some entry →
    ∃ g, m.globals[index]? = some g ∧ ∀ σ, g.init.value.Fills σ entry.2.ty

theorem Declarations.Filled.typed {d : Declarations} {m : IR.Module} (h : d.Filled m) :
    m.contents.Typed d.shape where
  filled := by
    intro ref ty href
    cases ref with
    | made index => simp [Declarations.shape, Shape.ty?] at href
    | global index =>
      simp only [Declarations.shape, Shape.ty?, List.getElem?_map] at href
      obtain ⟨entry, hentry, rfl⟩ := Option.map_eq_some_iff.mp href
      obtain ⟨g, hg, hfills⟩ := h index entry hentry
      refine ⟨g.init.value, ?_, hfills _⟩
      simp [IR.Module.contents, Store.read?, hg]
  made := rfl

/-- Every declaration leaves the globals filled. -/
theorem Declaring.filled_step {s s' : Declaring} (hsound : s.Sound)
    (h : s.declarations.Filled s.builder.module) (hstep : Declare.Step s s') :
    s'.declarations.Filled s'.builder.module := by
  cases hstep with
  | type | function | method => exact h
  | global _ _ _ hcontents =>
    intro index entry hentry
    have hplaced := hsound.declarations.placed
    by_cases hold : index < s.declarations.globals.entries.length
    · obtain ⟨g, hg, hfills⟩ := h index entry ((List.getElem?_append_left hold).symm.trans hentry)
      exact ⟨g, (List.getElem?_append_left (hplaced ▸ hold)).trans hg, hfills⟩
    · have hlast : index = s.declarations.globals.entries.length := by
        have hlt := (List.getElem?_eq_some_iff.mp hentry).1
        simp [Declaring.withGlobal] at hlt
        omega
      subst hlast
      simp only [Declaring.withGlobal, List.getElem?_concat_length, Option.some.injEq] at hentry
      subst hentry
      refine ⟨_, hplaced ▸ List.getElem?_concat_length, fun σ => ?_⟩
      exact Scan.fills_contents hsound.declarations.types σ _ _ _ _ hcontents

end Straightline
