import Straightline.Proofs.Declaring.Rounds
import Straightline.Proofs.Units.Typed

/-!
# No type is out of date

Types are compared all the way down, while the module knows them by their names. The two agree as long as
a name stands for one type wherever it comes from: nothing that a table says of a global, a signature or a
field is about a declaration that was taken back (`Declarations.Coherent`).

What carries it is that a type is read by looking its name up, so that an aggregate which is mentioned
anywhere stands in the table of types as it is, and that no declared type takes the name of a primitive.
It holds between units and at every moment while one is declared (`Project.types_coherent`).
-/

set_option autoImplicit false

namespace Straightline

/-! ## What is mentioned -/

/-- The types that can be got from the tables: by resolving a name, or from an entry. -/
inductive Declarations.Mentions (d : Declarations) : Ty → Prop where
  | resolved {name : String} {ty : Ty} (h : Ty.resolve d.types name = .ok ty) : Mentions d ty
  | registered {entry : String × Ty} (h : entry ∈ d.types.entries) : Mentions d entry.2
  | field {ty : Ty} {field : String × Ty} (hty : Mentions d ty) (h : field ∈ ty.fields) :
      Mentions d field.2
  | global {entry : String × GlobalRecord} (h : entry ∈ d.globals.entries) : Mentions d entry.2.ty
  | argument {entry : String × FunctionRecord} {argument : String × Ty}
      (h : entry ∈ d.functions.entries) (hargument : argument ∈ entry.2.signature.arguments) :
      Mentions d argument.2
  | result {entry : String × FunctionRecord} (h : entry ∈ d.functions.entries) :
      Mentions d entry.2.signature.result
  | owner {entry : String × MethodRecord} (h : entry ∈ d.methods.entries) : Mentions d entry.2.owner
  | methodArgument {entry : String × MethodRecord} {argument : String × Ty}
      (h : entry ∈ d.methods.entries) (hargument : argument ∈ entry.2.signature.arguments) :
      Mentions d argument.2
  | methodResult {entry : String × MethodRecord} (h : entry ∈ d.methods.entries) :
      Mentions d entry.2.signature.result

/-- Types that can be got from the tables are told apart by their names and by their representations, and
the module has one structure for the name of each aggregate. -/
structure Declarations.Coherent (d : Declarations) (m : IR.Module) : Prop where
  names : ∀ a b, d.Mentions a → d.Mentions b → (a = b ↔ a.name = b.name)
  representations : ∀ a b, d.Mentions a → d.Mentions b → (a = b ↔ a.irType = b.irType)
  /-- An aggregate is the type that its name stands for now. -/
  current : ∀ ty, d.Mentions ty → ty.isAggregate = true → d.types.find? ty.name = some ty
  /-- The structures of its name are one, which has the representations of its fields, and none has the
  name of a primitive. -/
  layouts : ∀ ty, d.Mentions ty → m.structs.filter (fun s => s.name == ty.name)
    = if ty.isAggregate then [⟨ty.name, ty.fieldTypes.map Ty.irType⟩] else []

/-- No declared type takes the name of a primitive. -/
def Ty.Unshadowed (types : SymbolTable Ty) : Prop :=
  ∀ name ∈ types.names, Primitive.ofName? name = none

theorem Primitive.ofName?_name (p : Primitive) : Primitive.ofName? p.name = some p := by
  cases p <;> decide

theorem Primitive.name_injective {p q : Primitive} (h : p.name = q.name) : p = q := by
  have hp := Primitive.ofName?_name p
  rw [h, Primitive.ofName?_name q] at hp
  exact (Option.some.inj hp).symm

/-- A name that stands in a table once is found at one place. -/
theorem SymbolTable.filter_eq {α : Type} {t : SymbolTable α} (hnames : t.names.Nodup)
    (name : String) :
    t.entries.filter (fun entry => entry.1 == name)
      = ((t.find? name).map fun item => (name, item)).toList := by
  obtain ⟨entries⟩ := t
  unfold find?
  induction entries with
  | nil => rfl
  | cons entry rest ih =>
    simp only [names, List.map_cons, List.nodup_cons] at hnames
    rw [List.filter_cons, List.find?_cons]
    by_cases h : entry.1 = name
    · subst h
      have hrest : rest.filter (fun other => other.1 == entry.1) = [] := by
        refine List.filter_eq_nil_iff.mpr fun other hother he => hnames.1 ?_
        exact List.mem_map.mpr ⟨other, hother, eq_of_beq he⟩
      simp [hrest]
    · rw [beq_false_of_ne h]
      exact ih hnames.2

namespace Ty

variable {types : SymbolTable Ty}

/-- A known aggregate has no primitive's name. -/
theorem builtin_of_known {ty : Ty} (hplain : Unshadowed types) (hknown : ty.KnownIn types)
    (haggregate : ty.isAggregate = true) : Primitive.ofName? ty.name = none :=
  hplain _ (List.mem_map_of_mem (SymbolTable.mem_of_find? (hknown haggregate)))

theorem eq_of_known {a b : Ty} (hplain : Unshadowed types) (ha : a.KnownIn types)
    (hb : b.KnownIn types) (hname : a.name = b.name) : a = b := by
  have hmixed : ∀ {p : Primitive} {ty : Ty}, ty.KnownIn types → ty.isAggregate = true →
      p.name ≠ ty.name := by
    intro p ty hty haggregate he
    have hbuiltin := builtin_of_known hplain hty haggregate
    rw [← he, Primitive.ofName?_name] at hbuiltin
    cases hbuiltin
  cases a with
  | primitive p =>
    cases b with
    | primitive q => rw [Primitive.name_injective hname]
    | aggregate => exact absurd hname (hmixed hb rfl)
  | aggregate =>
    cases b with
    | primitive q => exact absurd hname.symm (hmixed ha rfl)
    | aggregate => exact ha.eq_of_name hb rfl rfl hname

/-- The representation of a type tells its name: of a primitive by the width, of an aggregate outright. -/
theorem name_of_irType {a b : Ty} (h : a.irType = b.irType) : a.name = b.name := by
  cases a with
  | primitive p =>
    cases b with
    | primitive q => cases p <;> cases q <;> first | rfl | cases h
    | aggregate name kind fields => cases p <;> cases kind <;> cases h
  | aggregate name kind fields =>
    cases b with
    | primitive q => cases q <;> cases kind <;> cases h
    | aggregate name' kind' fields' => cases kind <;> cases kind' <;> cases h <;> rfl

end Ty

namespace Declarations

variable {d : Declarations} {b : IR.Builder} {bodies : List PendingBody}

/-- Whatever is mentioned was looked up. -/
theorem Corresponds.known (h : d.Corresponds b bodies) {ty : Ty} (hty : d.Mentions ty) :
    ty.KnownIn d.types := by
  have hdeclarations := h.awaits.declarations
  have htypes := hdeclarations.types
  induction hty with
  | resolved hresolve => exact htypes.known_of_resolve hresolve
  | registered hentry =>
    have hfind := SymbolTable.find?_of_mem h.matching.typeNames hentry
    exact (htypes.known_of_find? hfind).2.2
  | field _ hfield ih => exact (htypes.storable_field ih _ hfield).known
  | global hentry =>
    obtain ⟨i, hi⟩ := List.getElem?_of_mem hentry
    exact (hdeclarations.globals i _ hi).storable.known
  | argument hentry hargument =>
    exact ((hdeclarations.functions _ hentry).known.arguments _ hargument).known
  | result hentry => exact (hdeclarations.functions _ hentry).known.result
  | owner hentry => exact (hdeclarations.methods _ hentry).owner
  | methodArgument hentry hargument =>
    exact ((hdeclarations.methods _ hentry).known.arguments _ hargument).known
  | methodResult hentry => exact (hdeclarations.methods _ hentry).known.result

/-- Where tables and module correspond, and no primitive is hidden, types are coherent. -/
theorem Corresponds.coherent (h : d.Corresponds b bodies) (hplain : Ty.Unshadowed d.types) :
    d.Coherent b.module where
  names := fun x y hx hy =>
    ⟨fun he => he ▸ rfl, Ty.eq_of_known hplain (h.known hx) (h.known hy)⟩
  representations := fun x y hx hy =>
    ⟨fun he => he ▸ rfl,
      fun he => Ty.eq_of_known hplain (h.known hx) (h.known hy) (Ty.name_of_irType he)⟩
  current := fun ty hty haggregate => h.known hty haggregate
  layouts := by
    intro ty hty
    have hknown := h.known hty
    have hfilter := SymbolTable.filter_eq h.matching.typeNames ty.name
    rw [h.matching.structs, List.filter_map, Function.comp_def, hfilter]
    cases haggregate : ty.isAggregate with
    | true => simp [hknown haggregate]
    | false =>
      cases hfind : d.types.find? ty.name with
      | none => rfl
      | some found =>
        obtain ⟨hfound, hname, _⟩ := h.awaits.declarations.types.known_of_find? hfind
        cases ty with
        | aggregate => cases haggregate
        | primitive p =>
          have hbuiltin := Ty.builtin_of_known hplain (fun _ => hname ▸ hfind) hfound
          rw [hname] at hbuiltin
          rw [show (Ty.primitive p).name = p.name from rfl, Primitive.ofName?_name] at hbuiltin
          cases hbuiltin

end Declarations

/-! ## Along the declarations of a unit -/

namespace Declaring

variable {s s' : Declaring}

/-- Tables and module correspond, and no primitive is hidden. -/
structure Current (s : Declaring) : Prop where
  corresponding : s.Corresponding
  unshadowed : Ty.Unshadowed s.declarations.types

theorem Current.step (h : s.Current) (hstep : Declare.Step s s') : s'.Current := by
  refine ⟨h.corresponding.step hstep, ?_⟩
  cases hstep with
  | type _ _ _ hbuiltin => exact SymbolTable.forall_names_concat h.unshadowed hbuiltin
  | global | function | method => exact h.unshadowed

theorem Current.elsewhere {c : Cursor} {log : List Event} (h : s.Current) :
    ({ s with cursor := c, log := log } : Declaring).Current :=
  ⟨⟨h.corresponding.awaits, h.corresponding.matching, h.corresponding.entered⟩, h.unshadowed⟩

end Declaring

/-! ## Projects -/

namespace Project

variable {p q : Project}

/-- Tables and module correspond, and no primitive is hidden. -/
structure Current (p : Project) : Prop where
  corresponds : p.Corresponds
  unshadowed : Ty.Unshadowed p.declarations.types

theorem current_start (name : String) : (start name).Current where
  corresponds := corresponds_start name
  unshadowed := by simp [start, SymbolTable.empty, SymbolTable.names, Ty.Unshadowed]

theorem Current.opening (h : p.Current) (unit : SourceUnit) : (p.opening unit).Current :=
  ⟨h.corresponds, h.unshadowed⟩

theorem Current.declareAll {unit : SourceUnit} {pending : Pending} {s : Declaring} (h : p.Current)
    (hs : Declare.declareAll (p.opening unit) = .ok pending s) : s.Current := by
  obtain ⟨log, hsteps, rfl⟩ := Declare.declareAll_steps (p.listed_opening unit) hs
  refine hsteps.invariant (P := Declaring.Current) Declaring.Current.step ?_ (h.opening unit).elsewhere
  exact fun ha _ => ha.elsewhere

theorem Current.takeUnit {unit : SourceUnit} (h : p.Current)
    (hok : (p.takeUnit unit).result = .ok ()) : (p.takeUnit unit).project.Current := by
  refine ⟨h.corresponds.takeUnit hok, ?_⟩
  obtain ⟨s, made, hdeclare, _, hproject⟩ := takeUnit_ok hok
  rw [hproject]
  have htypes := Declarations.types_of_settled (s.declarations.settled_withoutResumes s.pending.names)
  exact htypes.symm ▸ (h.declareAll hdeclare).unshadowed

theorem Current.of_sameTables (h : p.Current) (hsame : p.SameTables q) : q.Current :=
  ⟨h.corresponds.of_sameTables hsame, hsame.declarations ▸ h.unshadowed⟩

theorem Current.run (h : p.Current) (units : List SourceUnit) : (p.run units).Current :=
  run_invariant Current.of_sameTables Current.takeUnit h units

/-- Types are coherent after any units, accepted or refused; they are while the declarations of a further
unit are taken, after every one of them, whatever becomes of the unit; and they are when its bodies are
compiled, whichever of them have been taken. -/
theorem types_coherent (name : String) (units : List SourceUnit) :
    ((start name).run units).declarations.Coherent ((start name).run units).builder.module ∧
    ∀ unit : SourceUnit,
      (∀ s, Declare.Rounds (((start name).run units).opening unit) s →
        s.declarations.Coherent s.builder.module) ∧
      ∀ pending s, Declare.declareAll (((start name).run units).opening unit) = .ok pending s →
        ∀ taken, (s.declarations.withoutResumes taken).Coherent s.builder.module := by
  have h := (current_start name).run units
  refine ⟨h.corresponds.coherent h.unshadowed,
    fun unit => ⟨fun s hrounds => ?_, fun pending s hs taken => ?_⟩⟩
  · have hcurrent := hrounds.invariant (P := Declaring.Current) (listed_opening _ unit)
      Declaring.Current.step (h.opening unit)
    exact hcurrent.corresponding.coherent hcurrent.unshadowed
  · have hsettled := s.declarations.settled_withoutResumes taken
    have hcurrent := h.declareAll hs
    exact (hcurrent.corresponding.of_settled hsettled).coherent
      (Declarations.types_of_settled hsettled ▸ hcurrent.unshadowed)

end Project

end Straightline
