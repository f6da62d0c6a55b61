import Mathlib.Data.List.Basic
import Straightline.Project.Basic

/-!
# Which bodies are still to be compiled

The record of a function says where its body resumes until that body is compiled, and nothing but the
second phase asks for it. What tables say without it (`Declarations.settled`) is not changed by compiling
bodies, so two tables that are settled alike stand for the same declarations. A body that is taken is
found no more, and any other is found as before.
-/

set_option autoImplicit false

namespace Straightline

namespace SymbolTable

variable {α β : Type} (t : SymbolTable α) {name other : String}

theorem find?_concat (name : String) (item : α) (key : String) :
    (⟨t.entries ++ [(name, item)]⟩ : SymbolTable α).find? key
      = (t.find? key).or (if name == key then some item else none) := by
  unfold find?
  rw [List.find?_append, Option.map_or, List.find?_cons]
  cases name == key <;> rfl

theorem contains_eq_isSome (name : String) : t.contains name = (t.find? name).isSome := by
  unfold contains find?
  rw [Option.isSome_map, List.isSome_find?]

theorem contains_concat (name : String) (item : α) (key : String) :
    (⟨t.entries ++ [(name, item)]⟩ : SymbolTable α).contains key = (t.contains key || name == key) := by
  simp [contains]

theorem find?_of_free (h : t.contains name = false) : t.find? name = none := by
  rw [contains_eq_isSome] at h
  exact Option.not_isSome_iff_eq_none.mp (by rw [h]; exact Bool.false_ne_true)

/-- The same names with other items. -/
def map (f : α → β) (t : SymbolTable α) : SymbolTable β := ⟨t.entries.map fun entry => (entry.1, f entry.2)⟩

theorem find?_map (f : α → β) (name : String) : (t.map f).find? name = (t.find? name).map f := by
  simp only [find?, map, List.find?_map, Option.map_map, Function.comp_def]

/-! ## Changing one item -/

theorem find?_cons (entry : String × α) (entries : List (String × α)) (name : String) :
    (⟨entry :: entries⟩ : SymbolTable α).find? name
      = if entry.1 == name then some entry.2 else (⟨entries⟩ : SymbolTable α).find? name := by
  unfold find?
  rw [List.find?_cons]
  cases entry.1 == name <;> rfl

/-- The first entry of the name is changed. -/
theorem modify_cons (change : α → α) (entry : String × α) (entries : List (String × α)) :
    (⟨entry :: entries⟩ : SymbolTable α).modify name change
      = if entry.1 == name then ⟨(entry.1, change entry.2) :: entries⟩
        else ⟨entry :: ((⟨entries⟩ : SymbolTable α).modify name change).entries⟩ := by
  unfold modify indexOf?
  rw [List.findIdx?_cons]
  cases entry.1 == name with
  | true => rfl
  | false => cases entries.findIdx? fun entry => entry.1 == name <;> rfl

variable (change : α → α)

theorem find?_modify_self (name : String) :
    (t.modify name change).find? name = (t.find? name).map change := by
  obtain ⟨entries⟩ := t
  induction entries with
  | nil => rfl
  | cons entry entries ih =>
    rw [modify_cons, find?_cons]
    cases h : entry.1 == name with
    | true => simp only [if_true, find?_cons, h, Option.map_some]
    | false =>
      simp only [Bool.false_eq_true, if_false, find?_cons, h]
      exact ih

theorem find?_modify_of_ne (h : name ≠ other) :
    (t.modify name change).find? other = t.find? other := by
  obtain ⟨entries⟩ := t
  induction entries with
  | nil => rfl
  | cons entry entries ih =>
    rw [modify_cons]
    cases hname : entry.1 == name with
    | true =>
      have hother : (entry.1 == other) = false := by
        rw [beq_iff_eq.mp hname]
        exact beq_false_of_ne h
      simp only [if_true, find?_cons, hother, Bool.false_eq_true, if_false]
    | false =>
      simp only [Bool.false_eq_true, if_false, find?_cons]
      split
      · rfl
      · exact ih

/-- What a change does not touch stays. -/
theorem map_modify {f : α → β} (hf : ∀ a, f (change a) = f a) (name : String) :
    (t.modify name change).map f = t.map f := by
  obtain ⟨entries⟩ := t
  induction entries with
  | nil => rfl
  | cons entry entries ih =>
    rw [modify_cons]
    cases entry.1 == name with
    | true => simp only [if_true, map, List.map_cons, hf]
    | false =>
      simp only [map, mk.injEq] at ih
      simp only [Bool.false_eq_true, if_false, map, List.map_cons, ih]

/-- Entries of other names that come first stay. -/
theorem prefix_modify {t : SymbolTable α} {entries : List (String × α)} (h : entries <+: t.entries)
    (hnew : (⟨entries⟩ : SymbolTable α).contains name = false) :
    entries <+: (t.modify name change).entries := by
  obtain ⟨more, hmore⟩ := h
  obtain ⟨all⟩ := t
  dsimp only at hmore
  subst hmore
  induction entries with
  | nil => exact List.nil_prefix
  | cons entry entries ih =>
    rw [contains, List.any_cons, Bool.or_eq_false_iff] at hnew
    rw [List.cons_append, modify_cons, hnew.1]
    exact List.cons_prefix_cons.mpr ⟨rfl, ih hnew.2⟩

end SymbolTable

/-! ## Records without their bodies -/

/-- The record as it is once the body is compiled. -/
def FunctionRecord.settled (r : FunctionRecord) : FunctionRecord := { r with resume := none }

def MethodRecord.settled (r : MethodRecord) : MethodRecord := { r with resume := none }

namespace Declarations

/-- The tables as they are once all bodies are compiled. -/
def settled (d : Declarations) : Declarations where
  types := d.types
  globals := d.globals
  functions := d.functions.map FunctionRecord.settled
  methods := d.methods.map MethodRecord.settled

variable (d : Declarations) {name other : CallableName}

theorem settled_withoutResume (name : CallableName) : (d.withoutResume name).settled = d.settled := by
  cases name with
  | method key =>
    have hmethods := d.methods.map_modify (fun r => { r with resume := none })
      (f := MethodRecord.settled) (fun _ => rfl) key
    exact congrArg (fun methods => { d.settled with methods }) hmethods
  | function name =>
    have hfunctions := d.functions.map_modify (fun r => { r with resume := none })
      (f := FunctionRecord.settled) (fun _ => rfl) name
    exact congrArg (fun functions => { d.settled with functions }) hfunctions

theorem settled_settled : d.settled.settled = d.settled := by
  simp [settled, SymbolTable.map, FunctionRecord.settled, MethodRecord.settled]

/-! ## Tables that are settled alike -/

section Alike

variable {d d' : Declarations}

theorem types_of_settled (h : d'.settled = d.settled) : d'.types = d.types :=
  calc d'.types = d'.settled.types := rfl
    _ = d.settled.types := by rw [h]

theorem globals_of_settled (h : d'.settled = d.settled) : d'.globals = d.globals :=
  calc d'.globals = d'.settled.globals := rfl
    _ = d.settled.globals := by rw [h]

/-- A function of the one table is in the other, but for its body. -/
theorem function_of_settled (h : d'.settled = d.settled) {entry : String × FunctionRecord}
    (hentry : entry ∈ d'.functions.entries) :
    ∃ resume, (entry.1, { entry.2 with resume }) ∈ d.functions.entries := by
  have hsettled : (entry.1, entry.2.settled) ∈ d.settled.functions.entries :=
    h ▸ List.mem_map_of_mem (f := fun entry => (entry.1, FunctionRecord.settled entry.2)) hentry
  obtain ⟨⟨name, record⟩, hrecord, he⟩ := List.mem_map.mp hsettled
  obtain ⟨name', record'⟩ := entry
  cases record
  cases record'
  cases he
  exact ⟨_, hrecord⟩

theorem method_of_settled (h : d'.settled = d.settled) {entry : String × MethodRecord}
    (hentry : entry ∈ d'.methods.entries) :
    ∃ resume, (entry.1, { entry.2 with resume }) ∈ d.methods.entries := by
  have hsettled : (entry.1, entry.2.settled) ∈ d.settled.methods.entries :=
    h ▸ List.mem_map_of_mem (f := fun entry => (entry.1, MethodRecord.settled entry.2)) hentry
  obtain ⟨⟨key, record⟩, hrecord, he⟩ := List.mem_map.mp hsettled
  obtain ⟨key', record'⟩ := entry
  cases record
  cases record'
  cases he
  exact ⟨_, hrecord⟩

end Alike

/-- A body that was taken is found no more. -/
theorem pendingBody?_withoutResume_self (name : CallableName) :
    (d.withoutResume name).pendingBody? name = none := by
  cases name with
  | method key =>
    simp only [withoutResume, pendingBody?, SymbolTable.find?_modify_self]
    cases d.methods.find? key <;> rfl
  | function name =>
    simp only [withoutResume, pendingBody?, SymbolTable.find?_modify_self]
    cases d.functions.find? name <;> rfl

/-- Any other body is found as before. -/
theorem pendingBody?_withoutResume_of_ne (h : name ≠ other) :
    (d.withoutResume name).pendingBody? other = d.pendingBody? other := by
  cases name with
  | method key =>
    cases other with
    | function other => rfl
    | method other =>
      have hne : key ≠ other := fun he => h (congrArg _ he)
      simp only [withoutResume, pendingBody?, SymbolTable.find?_modify_of_ne _ _ hne]
  | function name =>
    cases other with
    | method other => rfl
    | function other =>
      have hne : name ≠ other := fun he => h (congrArg _ he)
      simp only [withoutResume, pendingBody?, SymbolTable.find?_modify_of_ne _ _ hne]

/-- Whether there is a function or method under that name. -/
def holds (d : Declarations) : CallableName → Bool
  | .method key => d.methods.contains key
  | .function name => d.functions.contains name

/-- With the bodies of several functions taken. -/
def withoutResumes (d : Declarations) (names : List CallableName) : Declarations :=
  names.foldl withoutResume d

theorem settled_withoutResumes (names : List CallableName) :
    (d.withoutResumes names).settled = d.settled := by
  induction names generalizing d with
  | nil => rfl
  | cons name rest ih => exact (ih _).trans (d.settled_withoutResume name)

/-- Whatever bodies are taken, a body is found that was found before, or none. -/
theorem pendingBody?_withoutResumes (names : List CallableName) (name : CallableName) :
    (d.withoutResumes names).pendingBody? name = if name ∈ names then none else d.pendingBody? name := by
  induction names generalizing d with
  | nil => rfl
  | cons first rest ih =>
    refine (ih (d.withoutResume first)).trans ?_
    by_cases hname : first = name
    · rw [hname, d.pendingBody?_withoutResume_self]
      simp
    · rw [d.pendingBody?_withoutResume_of_ne hname]
      simp [Ne.symm hname]

end Declarations

end Straightline
