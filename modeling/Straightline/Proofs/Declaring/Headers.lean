import Straightline.Proofs.Lists
import Straightline.Proofs.Reading.Headers
import Straightline.Project.Constant
import Straightline.IR.Verify

/-!
# What a header says is known

A type that is read was looked up, so it is a primitive or stands in the table as it is
(`Ty.KnownIn`). This is what makes equality of types, which compares fields, agree with equality of
their names in the module. The readers of declarations are shown to answer with known types only,
and to give a binding no type without values.

The contents of a global, which are checked as they are read, pass the check of the module.
-/

set_option autoImplicit false

namespace Straightline

/-! ## Lists -/

theorem Except.bind_ok {ε α β : Type} {x : Except ε α} {k : α → Except ε β} {b : β}
    (h : x >>= k = .ok b) : ∃ a, x = .ok a ∧ k a = .ok b := by
  cases x with
  | ok a => exact ⟨a, rfl, h⟩
  | error e => cases h

/-- A check of a list passes if it passes for each element. -/
theorem forM_ok_iff {ε α : Type} {f : α → Except ε Unit} {l : List α} :
    l.forM f = .ok () ↔ ∀ a ∈ l, f a = .ok () := by
  induction l with
  | nil => exact ⟨fun _ a ha => absurd ha (List.not_mem_nil), fun _ => rfl⟩
  | cons a rest ih =>
    rw [List.forall_mem_cons, ← ih]
    constructor
    · intro h
      obtain ⟨_, ha, hrest⟩ := Except.bind_ok (show (f a >>= fun _ => rest.forM f) = .ok () from h)
      exact ⟨ha, hrest⟩
    · intro h
      rcases h with ⟨ha, hrest⟩
      change (f a >>= fun _ => rest.forM f) = .ok ()
      rw [ha]
      exact hrest

/-! ## Known types -/

namespace SymbolTable

variable {α : Type} {t t' : SymbolTable α} {name : String} {item : α}

theorem mem_of_find? (h : t.find? name = some item) : (name, item) ∈ t.entries := by
  unfold find? at h
  obtain ⟨⟨key, value⟩, hfind, rfl⟩ := Option.map_eq_some_iff.mp h
  have hkey : key = name := by simpa using List.find?_some hfind
  subst hkey
  exact List.mem_of_find?_eq_some hfind

/-- What a table finds it goes on finding when entries are added. -/
theorem find?_of_growth (hgrowth : t.entries <+: t'.entries) (h : t.find? name = some item) :
    t'.find? name = some item := by
  obtain ⟨more, hmore⟩ := hgrowth
  unfold find? at h ⊢
  obtain ⟨entry, hfind, rfl⟩ := Option.map_eq_some_iff.mp h
  rw [← hmore, List.find?_append, hfind]
  rfl

end SymbolTable

namespace Ty

/-- `ty` is a primitive or stands in the table as it is. -/
def KnownIn (types : SymbolTable Ty) (ty : Ty) : Prop :=
  ty.isAggregate = true → types.find? ty.name = some ty

/-- `ty` is known and has values. -/
structure StorableIn (types : SymbolTable Ty) (ty : Ty) : Prop where
  known : ty.KnownIn types
  valued : ty.isVoid = false

variable {types types' : SymbolTable Ty} {ty other : Ty}

theorem KnownIn.mono (hgrowth : types.entries <+: types'.entries) (h : ty.KnownIn types) :
    ty.KnownIn types' :=
  fun haggregate => SymbolTable.find?_of_growth hgrowth (h haggregate)

theorem StorableIn.mono (hgrowth : types.entries <+: types'.entries)
    (h : ty.StorableIn types) : ty.StorableIn types' :=
  ⟨h.known.mono hgrowth, h.valued⟩

/-- Known aggregates of one name are one type. -/
theorem KnownIn.eq_of_name (h : ty.KnownIn types) (h' : other.KnownIn types)
    (hty : ty.isAggregate = true) (hother : other.isAggregate = true)
    (hname : ty.name = other.name) : ty = other := by
  have hfind := h hty
  rw [hname, h' hother] at hfind
  exact (Option.some.inj hfind).symm

theorem valued_of_requireStorable {binding : String} (h : ty.requireStorable binding = .ok ()) :
    ty.isVoid = false := by
  unfold requireStorable at h
  split at h
  · cases h
  · exact Bool.eq_false_iff.mpr ‹_›

/-- Every entry of a table of types is an aggregate of its name, which has no dot, and its fields are
of types in the table that have values. -/
structure Tabled (types : SymbolTable Ty) : Prop where
  named : ∀ entry ∈ types.entries,
    ∃ kind fields, entry.2 = .aggregate entry.1 kind fields
  undotted : ∀ entry ∈ types.entries, Undotted entry.1
  fields : ∀ entry ∈ types.entries, ∀ field ∈ entry.2.fields, field.2.StorableIn types

namespace Tabled

variable {name : String}

theorem known_of_find? (htypes : Tabled types) (h : types.find? name = some ty) :
    ty.isAggregate = true ∧ ty.name = name ∧ ty.KnownIn types := by
  obtain ⟨kind, fields, hty⟩ := htypes.named _ (SymbolTable.mem_of_find? h)
  simp only at hty
  subst hty
  exact ⟨rfl, rfl, fun _ => h⟩

theorem known_of_resolve (htypes : Tabled types) (h : resolve types name = .ok ty) :
    ty.KnownIn types := by
  unfold resolve at h
  split at h
  · rename_i found hfind
    cases h
    exact (htypes.known_of_find? hfind).2.2
  · split at h <;> cases h
    intro haggregate
    cases haggregate

theorem undotted_of_known (htypes : Tabled types) (h : ty.KnownIn types)
    (haggregate : ty.isAggregate = true) : Undotted ty.name :=
  htypes.undotted _ (SymbolTable.mem_of_find? (h haggregate))

/-- The fields of a known type are of known types that have values. -/
theorem storable_field (htypes : Tabled types) (h : ty.KnownIn types) :
    ∀ field ∈ ty.fields, field.2.StorableIn types := by
  intro field hfield
  cases ty with
  | primitive p => cases hfield
  | aggregate name kind fields =>
    exact htypes.fields _ (SymbolTable.mem_of_find? (h rfl)) field hfield

theorem valued_fieldTypes (htypes : Tabled types) (h : ty.KnownIn types) :
    ∀ fieldTy ∈ ty.fieldTypes, fieldTy.isVoid = false := by
  intro fieldTy hfieldTy
  obtain ⟨field, hfield, rfl⟩ := List.mem_map.mp hfieldTy
  exact (htypes.storable_field h field hfield).valued

end Tabled

end Ty

/-! ## Headers -/

/-- Arguments are of known types that have values, and the result is of a known type. -/
structure Signature.KnownIn (types : SymbolTable Ty) (s : Signature) : Prop where
  arguments : ∀ argument ∈ s.arguments, argument.2.StorableIn types
  result : s.result.KnownIn types

theorem Signature.KnownIn.valued {types : SymbolTable Ty} {s : Signature} (h : s.KnownIn types) :
    ∀ ty ∈ s.argumentTypes, ty.isVoid = false := by
  intro ty hty
  obtain ⟨argument, hargument, rfl⟩ := List.mem_map.mp hty
  exact (h.arguments argument hargument).valued

/-- What a header says, if it was read with the types of the table known. -/
def Declaration.KnownIn (types : SymbolTable Ty) : Declaration → Prop
  | .type name _ => Undotted name
  | .global _ ty => ty.StorableIn types
  | .function _ signature => signature.KnownIn types
  | .method _ _ owner signature =>
    owner.KnownIn types ∧ owner.isAggregate = true ∧ signature.KnownIn types

namespace Scan

variable {α : Type} {types : SymbolTable Ty}

/-- What holds of every element by its number holds of an argument list. -/
theorem argumentsWithin_ensures {read : Nat → Scan α} {P : Nat → α → Prop}
    (hread : ∀ index, Ensures (read index) fun _ a _ => P index a) (index bound : Nat) :
    Ensures (argumentsWithin read index bound) fun _ elements _ =>
      ∀ i element, elements[i]? = some element → P (index + i) element.2 := by
  induction bound generalizing index with
  | zero => exact Ensures.throw _
  | succ bound ih =>
    intro c elements c' h
    obtain ⟨_, c₁, _, h⟩ := bind_ok h
    obtain ⟨closes, c₂, _, h⟩ := bind_ok h
    split at h
    · obtain ⟨_, c₃, _, h⟩ := bind_ok h
      cases h
      intro i element hi
      simp at hi
    · obtain ⟨_, c₃, _, h⟩ := bind_ok h
      obtain ⟨name, c₄, _, h⟩ := bind_ok h
      obtain ⟨value, c₅, hvalue, h⟩ := bind_ok h
      obtain ⟨others, c₆, hothers, h⟩ := bind_ok h
      cases h
      intro i element hi
      cases i with
      | zero =>
        cases hi
        exact hread index _ _ _ hvalue
      | succ i =>
        have hrest := ih (index + 1) _ _ _ hothers i element (by simpa using hi)
        rwa [Nat.add_assoc, Nat.add_comm 1 i] at hrest

theorem arguments_ensures {read : Nat → Scan α} {P : Nat → α → Prop}
    (hread : ∀ index, Ensures (read index) fun _ a _ => P index a) :
    Ensures (arguments read) fun _ elements _ =>
      ∀ i element, elements[i]? = some element → P i element.2 := by
  intro c elements c' h i element hi
  have hi := argumentsWithin_ensures hread 0 _ c elements c' h i element hi
  rwa [Nat.zero_add] at hi

theorem known_type (htypes : Ty.Tabled types) :
    Ensures (type types) fun _ ty _ => ty.KnownIn types := by
  intro c ty c' h
  obtain ⟨name, c₁, _, h⟩ := bind_ok h
  exact htypes.known_of_resolve (check_ok h).1

theorem known_typedNames (htypes : Ty.Tabled types) :
    Ensures (typedNames types) fun _ names _ => ∀ name ∈ names, name.2.KnownIn types := by
  intro c names c' h name hname
  have hread : ∀ _ : Nat, Ensures (do skipToContent; type types) fun _ ty _ =>
      ty.KnownIn types := by
    intro _ c ty c' h
    obtain ⟨_, c₁, _, h⟩ := bind_ok h
    exact known_type htypes _ _ _ h
  obtain ⟨i, hi⟩ := List.getElem?_of_mem hname
  exact arguments_ensures (P := fun _ ty => ty.KnownIn types) hread c names c' h i name hi

theorem known_signature (htypes : Ty.Tabled types) :
    Ensures (signature types) fun _ s _ => s.KnownIn types := by
  intro c s c' h
  obtain ⟨arguments, c₁, harguments, h⟩ := bind_ok h
  obtain ⟨_, c₂, hcheck, h⟩ := bind_ok h
  obtain ⟨_, c₃, _, h⟩ := bind_ok h
  obtain ⟨_, c₄, _, h⟩ := bind_ok h
  obtain ⟨_, c₅, _, h⟩ := bind_ok h
  obtain ⟨result, c₆, hresult, h⟩ := bind_ok h
  cases h
  refine ⟨fun argument hargument => ⟨known_typedNames htypes _ _ _ harguments _ hargument, ?_⟩,
    known_type htypes _ _ _ hresult⟩
  exact Ty.valued_of_requireStorable (forM_ok_iff.mp (check_ok hcheck).1 argument hargument)

theorem valued_of_checkFields {seen : List String} {fields : List (String × Ty)}
    (h : checkFields seen fields = .ok ()) : ∀ field ∈ fields, field.2.isVoid = false := by
  induction fields generalizing seen with
  | nil => exact fun field hfield => absurd hfield List.not_mem_nil
  | cons field rest ih =>
    obtain ⟨name, ty⟩ := field
    obtain ⟨_, hstorable, h⟩ := Except.bind_ok h
    split at h
    · cases h
    · rw [List.forall_mem_cons]
      exact ⟨Ty.valued_of_requireStorable hstorable, ih h⟩

theorem storable_typeDefinition (htypes : Ty.Tabled types) (name : String)
    (kind : AggregateKind) :
    Ensures (typeDefinition name kind types) fun _ fields _ =>
      ∀ field ∈ fields, field.2.StorableIn types := by
  intro c fields c' h
  obtain ⟨_, c₁, _, h⟩ := bind_ok h
  obtain ⟨_, c₂, _, h⟩ := bind_ok h
  obtain ⟨_, c₃, _, h⟩ := bind_ok h
  obtain ⟨_, c₄, _, h⟩ := bind_ok h
  obtain ⟨_, c₅, _, h⟩ := bind_ok h
  obtain ⟨_, c₆, _, h⟩ := bind_ok h
  obtain ⟨names, c₇, hnames, h⟩ := bind_ok h
  obtain ⟨_, c₈, hcheck, h⟩ := bind_ok h
  cases h
  have hvalued := valued_of_checkFields (check_ok hcheck).1
  exact fun field hfield =>
    ⟨known_typedNames htypes _ _ _ hnames field hfield, hvalued field hfield⟩

theorem MethodSignature.known {s : Signature} (htypes : Ty.Tabled types) (h : MethodSignature types s) :
    s.KnownIn types := by
  cases h with
  | further hs => exact hs.holds (known_signature htypes)
  | alone hresult => exact ⟨fun _ h => absurd h List.not_mem_nil, hresult.holds (known_type htypes)⟩

/-- A header names known types only. -/
theorem known_declaration (htypes : Ty.Tabled types) :
    Ensures (declaration types) fun _ d _ => d.KnownIn types := by
  intro c d c' h
  cases header_declaration types c d c' h with
  | type kind hname => exact hname.holds undotted_nonemptyWord
  | global _ hty hstorable =>
    exact ⟨htypes.known_of_resolve hty, Ty.valued_of_requireStorable hstorable⟩
  | function _ hs => exact hs.holds (known_signature htypes)
  | method _ _ howner haggregate hs =>
    exact ⟨htypes.known_of_resolve howner, haggregate, hs.known htypes⟩

end Scan

end Straightline
