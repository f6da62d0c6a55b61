import Straightline.Proofs.Declaring.Contents
import Straightline.Proofs.Declaring.Steps
import Straightline.Proofs.IR.Offers

/-!
# Declarations agree with their module

What the tables of a project say of a name is what the module holds for it (`Declarations.Sound`): a
type is laid out as a structure, a global stands in the place that its record gives, a function takes
and gives the types of its signature. Every declaration of a unit preserves this, and each one that
leaves a body to be compiled leaves a function that has none yet (`Declaring.Sound`).
-/

set_option autoImplicit false

namespace Straightline

/-- Function `id` of the module takes and gives values of these types. -/
def IR.Module.Declares (m : IR.Module) (id : IR.FunctionId) (parameters : List Ty)
    (result : Ty) : Prop :=
  ∃ f, m.function? id = some f ∧ f.params = parameters.map Ty.irType ∧ f.ret = result.irType

theorem IR.Module.Declares.mono {m m' : IR.Module} {id : IR.FunctionId} {parameters : List Ty}
    {result : Ty} (hoffers : m.Offers m') (h : m.Declares id parameters result) :
    m'.Declares id parameters result := by
  obtain ⟨f, hf, hparams, hret⟩ := h
  obtain ⟨f', hf', hparams', hret'⟩ := hoffers.functions hf
  exact ⟨f', hf', hparams'.trans hparams, hret'.trans hret⟩

theorem Signature.KnownIn.mono {types types' : SymbolTable Ty} {s : Signature}
    (hgrowth : types.entries <+: types'.entries) (h : s.KnownIn types) : s.KnownIn types' :=
  ⟨fun argument hargument => (h.arguments argument hargument).mono hgrowth,
    h.result.mono hgrowth⟩

/-- The record of the global at place `index`. -/
structure GlobalRecord.Sound (types : SymbolTable Ty) (index : Nat) (r : GlobalRecord) :
    Prop where
  storable : r.ty.StorableIn types
  stored : r.storage = Declaring.globalStorage r.ty ⟨.global index, .ptr r.ty.layoutType⟩

structure FunctionRecord.Sound (types : SymbolTable Ty) (m : IR.Module) (r : FunctionRecord) :
    Prop where
  known : r.signature.KnownIn types
  declared : m.Declares r.function r.signature.argumentTypes r.signature.result

/-- The record of the method under `key`. -/
structure MethodRecord.Sound (types : SymbolTable Ty) (m : IR.Module) (key : String)
    (r : MethodRecord) : Prop where
  keyed : ∃ name, key = Declarations.methodKey r.owner name
  owner : r.owner.KnownIn types
  aggregate : r.owner.isAggregate = true
  known : r.signature.KnownIn types
  declared : m.Declares r.function (r.owner :: r.signature.argumentTypes) r.signature.result

/-- The tables say what the module holds. -/
structure Declarations.Sound (d : Declarations) (m : IR.Module) : Prop where
  types : Ty.Tabled d.types
  laid : Ty.LaidOut d.types m
  globals : ∀ (i : Nat) (entry : String × GlobalRecord),
    d.globals.entries[i]? = some entry → entry.2.Sound d.types i
  placed : m.globals.length = d.globals.entries.length
  functions : ∀ entry ∈ d.functions.entries, entry.2.Sound d.types m
  methods : ∀ entry ∈ d.methods.entries, entry.2.Sound d.types m entry.1

section Records

variable {types types' : SymbolTable Ty} {m m' : IR.Module}

theorem GlobalRecord.Sound.mono {index : Nat} {r : GlobalRecord}
    (hgrowth : types.entries <+: types'.entries) (h : r.Sound types index) :
    r.Sound types' index :=
  ⟨h.storable.mono hgrowth, h.stored⟩

theorem FunctionRecord.Sound.mono {r : FunctionRecord}
    (hgrowth : types.entries <+: types'.entries) (hoffers : m.Offers m') (h : r.Sound types m) :
    r.Sound types' m' :=
  ⟨h.known.mono hgrowth, h.declared.mono hoffers⟩

theorem MethodRecord.Sound.mono {key : String} {r : MethodRecord}
    (hgrowth : types.entries <+: types'.entries) (hoffers : m.Offers m')
    (h : r.Sound types m key) : r.Sound types' m' key :=
  ⟨h.keyed, h.owner.mono hgrowth, h.aggregate, h.known.mono hgrowth, h.declared.mono hoffers⟩

/-- The method that is found for a known owner is one that was declared for it. -/
theorem MethodRecord.Sound.owner_eq {r : MethodRecord} {owner : Ty} {name : String}
    (htypes : Ty.Tabled types) (h : r.Sound types m (Declarations.methodKey owner name))
    (hknown : owner.KnownIn types) (haggregate : owner.isAggregate = true) : r.owner = owner := by
  obtain ⟨name', hkey⟩ := h.keyed
  have hname := Declarations.methodKey_owner (htypes.undotted_of_known hknown haggregate)
    (htypes.undotted_of_known h.owner h.aggregate) hkey
  exact (hknown.eq_of_name h.owner haggregate h.aggregate hname).symm

end Records

/-- Nothing is said of bodies that are still to be compiled. -/
theorem Declarations.Sound.of_settled {d d' : Declarations} {m : IR.Module} (h : d.Sound m)
    (hsettled : d'.settled = d.settled) : d'.Sound m where
  types := types_of_settled hsettled ▸ h.types
  laid := types_of_settled hsettled ▸ h.laid
  globals := by
    rw [globals_of_settled hsettled, types_of_settled hsettled]
    exact h.globals
  placed := globals_of_settled hsettled ▸ h.placed
  functions := by
    intro entry hentry
    obtain ⟨resume, hfound⟩ := function_of_settled hsettled hentry
    obtain ⟨hknown, hdeclared⟩ := h.functions _ hfound
    rw [types_of_settled hsettled]
    exact ⟨hknown, hdeclared⟩
  methods := by
    intro entry hentry
    obtain ⟨resume, hfound⟩ := method_of_settled hsettled hentry
    obtain ⟨hkeyed, howner, haggregate, hknown, hdeclared⟩ := h.methods _ hfound
    rw [types_of_settled hsettled]
    exact ⟨hkeyed, howner, haggregate, hknown, hdeclared⟩

/-! ## Along the declarations of a unit -/

/-- A body that was put off: its function has the types of the body, and no body yet. -/
structure PendingBody.Ready (types : SymbolTable Ty) (m : IR.Module) (body : PendingBody) :
    Prop where
  function : ∃ f, m.function? body.function = some f ∧
    f.params = body.parameters.map (fun p => p.2.irType) ∧ f.ret = body.result.irType ∧
    f.blocks = []
  parameters : ∀ p ∈ body.parameters, p.2.StorableIn types
  result : body.result.KnownIn types

/-- Everything that is known of the tables and the module while `bodies` are still to be compiled:
the functions that are not finished are those of the bodies, each once. -/
structure Declarations.Awaits (d : Declarations) (b : IR.Builder) (bodies : List PendingBody) :
    Prop where
  declarations : d.Sound b.module
  globals : ∀ g ∈ b.module.globals, b.module.verifyGlobal g = .ok ()
  defects : b.defects = []
  functions : ∀ id f, b.module.function? id = some f →
    b.module.Finishes f ∨ ∃ body ∈ bodies, body.function = id
  ready : ∀ body ∈ bodies, body.Ready d.types b.module
  distinct : (bodies.map PendingBody.function).Nodup

theorem Declarations.Awaits.of_settled {d d' : Declarations} {b : IR.Builder} {bodies : List PendingBody}
    (h : d.Awaits b bodies) (hsettled : d'.settled = d.settled) : d'.Awaits b bodies where
  declarations := h.declarations.of_settled hsettled
  globals := h.globals
  defects := h.defects
  functions := h.functions
  ready := types_of_settled hsettled ▸ h.ready
  distinct := h.distinct

/-- While the declarations of a unit are taken, the bodies that were put off are awaited. -/
def Declaring.Sound (s : Declaring) : Prop :=
  s.declarations.Awaits s.builder s.bodies

namespace Declaring.Sound

variable {s s' : Declaring}

theorem type {name : String} {kind : AggregateKind} {fields : List (String × Ty)}
    {c c' c'' : Cursor} {log : List Event} (hs : s.Sound)
    (hheader : Scan.declaration s.declarations.types c = .ok (.type name kind) c')
    (hdefinition : Scan.typeDefinition name kind s.declarations.types c' = .ok fields c'') :
    (s.withType name kind fields c'' log).Sound := by
  have htypes := hs.declarations.types
  have hgrowth : s.declarations.types.entries
      <+: s.declarations.types.entries ++ [(name, .aggregate name kind fields)] :=
    List.prefix_append _ _
  have hoffers : s.builder.module.Offers (s.withType name kind fields c'' log).builder.module :=
    .of_growth (List.prefix_append _ _) List.prefix_rfl
  have htabled : Ty.Tabled (s.withType name kind fields c'' log).declarations.types := by
    refine ⟨forall_concat htypes.named ⟨kind, fields, rfl⟩,
      forall_concat htypes.undotted (Scan.known_declaration htypes _ _ _ hheader),
      forall_concat (fun entry hentry field hfield =>
        (htypes.fields entry hentry field hfield).mono hgrowth) fun field hfield => ?_⟩
    exact (Scan.storable_typeDefinition htypes name kind _ _ _ hdefinition field hfield).mono hgrowth
  have hlaid : Ty.LaidOut (s.withType name kind fields c'' log).declarations.types
      (s.withType name kind fields c'' log).builder.module := by
    have hlaid := hs.declarations.laid
    simp only [Ty.LaidOut] at hlaid ⊢
    simp [Declaring.withType, IR.Build.declareStruct, hlaid, Ty.structDef, Ty.fieldTypes,
      Ty.fields, Function.comp_def]
  exact {
    declarations := {
      types := htabled
      laid := hlaid
      globals := fun i entry hentry => (hs.declarations.globals i entry hentry).mono hgrowth
      placed := hs.declarations.placed
      functions := fun entry hentry => (hs.declarations.functions entry hentry).mono hgrowth hoffers
      methods := fun entry hentry => (hs.declarations.methods entry hentry).mono hgrowth hoffers }
    globals := fun g hg => hoffers.verifyGlobal (hs.globals g hg)
    defects := hs.defects
    functions := fun id f hf => (hs.functions id f hf).imp_left fun h => h.mono hoffers
    ready := by
      intro body hbody
      obtain ⟨hfunction, hparameters, hresult⟩ := hs.ready body hbody
      exact ⟨hfunction, fun p hp => (hparameters p hp).mono hgrowth, hresult.mono hgrowth⟩
    distinct := hs.distinct }

theorem global {name : String} {ty : Ty} {contents : IR.Constant} {c c' c'' : Cursor}
    {log : List Event} (hs : s.Sound)
    (hheader : Scan.declaration s.declarations.types c = .ok (.global name ty) c')
    (hcontents : Scan.contents s.declarations.types ty c' = .ok contents c'') :
    (s.withGlobal name ty contents c'' log).Sound := by
  have htypes := hs.declarations.types
  have hoffers : s.builder.module.Offers
      (s.withGlobal name ty contents c'' log).builder.module :=
    .of_growth List.prefix_rfl List.prefix_rfl
  have hglobal : IR.Module.verifyGlobal (s.withGlobal name ty contents c'' log).builder.module
      ⟨name, ty.layoutType, contents⟩ = .ok () := by
    have hconstant := Scan.checks_contents htypes hs.declarations.laid ty _ _ _ hcontents
    unfold IR.Module.verifyGlobal
    rw [hoffers.checkConstant contents hconstant]
    rfl
  exact {
    declarations := {
      types := htypes
      laid := hs.declarations.laid
      globals := fun i entry hentry => by
        rcases of_getElem?_concat hentry with hold | ⟨rfl, rfl⟩
        · exact hs.declarations.globals i entry hold
        · refine ⟨Scan.known_declaration htypes _ _ _ hheader, ?_⟩
          rw [← hs.declarations.placed]
          rfl
      placed := by
        simp [Declaring.withGlobal, IR.Build.addGlobal, IR.Value.constant?, hs.declarations.placed]
      functions := fun entry hentry =>
        (hs.declarations.functions entry hentry).mono List.prefix_rfl hoffers
      methods := fun entry hentry =>
        (hs.declarations.methods entry hentry).mono List.prefix_rfl hoffers }
    globals := forall_concat (fun g hg => hoffers.verifyGlobal (hs.globals g hg)) hglobal
    defects := hs.defects
    functions := fun id f hf => (hs.functions id f hf).imp_left fun h => h.mono hoffers
    ready := by
      intro body hbody
      obtain ⟨hfunction, hparameters, hresult⟩ := hs.ready body hbody
      exact ⟨hfunction, hparameters, hresult⟩
    distinct := hs.distinct }

/-- Both sorts of functions are declared in the module in the same way. -/
theorem declared (s : Declaring) (name : String) (parameters : List (String × Ty)) (result : Ty) :
    s.builder.module.Offers (s.declaredFunction name parameters result).module ∧
      (s.declaredFunction name parameters result).module.function? s.nextFunction
        = some ⟨name, parameters.map fun p => p.2.irType, result.irType, []⟩ ∧
      ∀ id f, (s.declaredFunction name parameters result).module.function? id = some f →
        s.builder.module.function? id = some f ∨ id = s.nextFunction := by
  refine ⟨.of_growth List.prefix_rfl (List.prefix_append _ _), ?_, fun id f hf => ?_⟩
  · simp [Declaring.declaredFunction, IR.Build.declareFunction, IR.Module.function?,
      Declaring.nextFunction]
  · rcases of_getElem?_concat hf with hold | ⟨hid, _⟩
    · exact .inl hold
    · exact .inr hid

/-- The functions and bodies after one more function was declared. -/
theorem pending {name : String} {parameters : List (String × Ty)} {result : Ty} (resume : Nat)
    {bodies : List PendingBody} (hs : s.Sound)
    (hperm : bodies.Perm (s.bodies ++
      [⟨name, s.nextFunction, parameters, result, resume⟩]))
    (hparameters : ∀ p ∈ parameters, p.2.StorableIn s.declarations.types)
    (hresult : result.KnownIn s.declarations.types) :
    (∀ id f, (s.declaredFunction name parameters result).module.function? id = some f →
      (s.declaredFunction name parameters result).module.Finishes f ∨
        ∃ body ∈ bodies, body.function = id) ∧
    (∀ body ∈ bodies, body.Ready s.declarations.types
      (s.declaredFunction name parameters result).module) ∧
    (bodies.map PendingBody.function).Nodup := by
  obtain ⟨hoffers, hnew, hold⟩ := declared s name parameters result
  have hfresh : ∀ body ∈ s.bodies, body.function < s.nextFunction := by
    intro body hbody
    obtain ⟨f, hf, _⟩ := (hs.ready body hbody).function
    exact (List.getElem?_eq_some_iff.mp hf).1
  refine ⟨fun id f hf => ?_, PendingBody.forall_concat hperm (fun body hbody => ?_) ?_, ?_⟩
  · rcases hold id f hf with hf | rfl
    · rcases hs.functions id f hf with hfinished | ⟨body, hbody, hid⟩
      · exact Or.inl (hfinished.mono hoffers)
      · exact Or.inr ⟨body, hperm.mem_iff.mpr (List.mem_append_left _ hbody), hid⟩
    · exact Or.inr ⟨_, hperm.mem_iff.mpr (List.mem_append_right _ (List.mem_singleton_self _)),
        rfl⟩
  · obtain ⟨⟨f, hf, hrest⟩, hparameters', hresult'⟩ := hs.ready body hbody
    refine ⟨⟨f, ?_, hrest⟩, hparameters', hresult'⟩
    have hlt := hfresh body hbody
    simp only [Declaring.declaredFunction, IR.Build.declareFunction, IR.Module.function?]
    rw [List.getElem?_append_left hlt]
    exact hf
  · exact ⟨⟨_, hnew, rfl, rfl, rfl⟩, hparameters, hresult⟩
  · rw [(hperm.map _).nodup_iff, List.map_append, List.nodup_append]
    refine ⟨hs.distinct, by simp, fun id hid id' hid' => ?_⟩
    obtain ⟨body, hbody, rfl⟩ := List.mem_map.mp hid
    rw [List.mem_singleton.mp hid']
    exact Nat.ne_of_lt (hfresh body hbody)

theorem function {name : String} {signature : Signature} {resume : Nat} {c c' c'' : Cursor}
    {log : List Event} (hs : s.Sound)
    (hheader : Scan.declaration s.declarations.types c = .ok (.function name signature) c')
    (hfree : s.declarations.functions.contains name = false) (hunlisted : .function name ∉ s.pending.names) :
    (s.withFunction name signature resume c'' log).Sound := by
  have htypes := hs.declarations.types
  have hsignature : signature.KnownIn s.declarations.types :=
    Scan.known_declaration htypes _ _ _ hheader
  obtain ⟨hoffers, hnew, _⟩ := declared s name signature.arguments signature.result
  obtain ⟨hfunctions, hbodies, hdistinct⟩ := hs.pending resume
    (Declaring.bodies_withFunction hfree hunlisted c'' log) hsignature.arguments
    hsignature.result
  have hdeclares : (s.withFunction name signature resume c'' log).builder.module.Declares s.nextFunction
      signature.argumentTypes signature.result :=
    ⟨_, hnew, by simp [Signature.argumentTypes], rfl⟩
  exact {
    declarations := {
      types := htypes
      laid := hs.declarations.laid
      globals := hs.declarations.globals
      placed := hs.declarations.placed
      functions := forall_concat (fun entry hentry =>
        (hs.declarations.functions entry hentry).mono List.prefix_rfl hoffers) ⟨hsignature, hdeclares⟩
      methods := fun entry hentry =>
        (hs.declarations.methods entry hentry).mono List.prefix_rfl hoffers }
    globals := fun g hg => hoffers.verifyGlobal (hs.globals g hg)
    defects := hs.defects
    functions := hfunctions
    ready := hbodies
    distinct := hdistinct }

theorem method {name receiver : String} {owner : Ty} {signature : Signature} {resume : Nat}
    {c c' c'' : Cursor} {log : List Event} (hs : s.Sound)
    (hheader : Scan.declaration s.declarations.types c
      = .ok (.method name receiver owner signature) c')
    (hfree : s.declarations.methods.contains (Declarations.methodKey owner name) = false)
    (hunlisted : .method (Declarations.methodKey owner name) ∉ s.pending.names) :
    (s.withMethod name receiver owner signature resume c'' log).Sound := by
  have htypes := hs.declarations.types
  obtain ⟨howner, haggregate, hsignature⟩ := Scan.known_declaration htypes _ _ _ hheader
  have hvalued : owner.isVoid = false := by
    cases owner with
    | primitive p => cases haggregate
    | aggregate name kind fields => rfl
  obtain ⟨hoffers, hnew, _⟩ := declared s (Declarations.methodKey owner name)
    ((receiver, owner) :: signature.arguments) signature.result
  obtain ⟨hfunctions, hbodies, hdistinct⟩ := hs.pending resume
    (Declaring.bodies_withMethod hfree hunlisted c'' log)
    (List.forall_mem_cons.mpr ⟨⟨howner, hvalued⟩, hsignature.arguments⟩) hsignature.result
  have hdeclares : (s.withMethod name receiver owner signature resume c'' log).builder.module.Declares
      s.nextFunction (owner :: signature.argumentTypes) signature.result :=
    ⟨_, hnew, by simp [Signature.argumentTypes], rfl⟩
  exact {
    declarations := {
      types := htypes
      laid := hs.declarations.laid
      globals := hs.declarations.globals
      placed := hs.declarations.placed
      functions := fun entry hentry =>
        (hs.declarations.functions entry hentry).mono List.prefix_rfl hoffers
      methods := forall_concat (fun entry hentry =>
        (hs.declarations.methods entry hentry).mono List.prefix_rfl hoffers)
        ⟨⟨name, rfl⟩, howner, haggregate, hsignature, hdeclares⟩ }
    globals := fun g hg => hoffers.verifyGlobal (hs.globals g hg)
    defects := hs.defects
    functions := hfunctions
    ready := hbodies
    distinct := hdistinct }

/-- Every declaration preserves the agreement. -/
theorem step (hs : s.Sound) (h : Declare.Step s s') : s'.Sound := by
  cases h with
  | type _ hheader _ _ hdefinition => exact hs.type hheader hdefinition
  | global _ hheader _ hcontents => exact hs.global hheader hcontents
  | function _ hheader hfree _ _ hunlisted => exact hs.function hheader hfree hunlisted
  | method _ hheader hfree _ _ hunlisted => exact hs.method hheader hfree hunlisted

theorem steps (h : Declare.Steps s s') (hs : s.Sound) : s'.Sound :=
  h.invariant step
    (fun ha _ => ⟨ha.declarations, ha.globals, ha.defects, ha.functions, ha.ready, ha.distinct⟩)
    hs

end Declaring.Sound

end Straightline
