import Straightline.Proofs.Emission.ScopedBody
import Straightline.Proofs.Units.Correspondence

/-!
# What is accepted is well typed

Whatever units a project was given, its module is well typed, by the kinds that the table of types gives
to its structures (`Project.typed_module`). Structures take their fields and their order from that
table, constants were read against the type of their global, and a body is a chain of instructions when
it is complete.
-/

set_option autoImplicit false

namespace Straightline

open IR (Site Inst)

/-! ## Constants -/

namespace Scan

variable {types : SymbolTable Ty} {m : IR.Module}

theorem fitAll_of_fields {tys : List Ty} {fields : List IR.Constant}
    (h : List.Forall₂ (fun ty (c : IR.Constant) => c.Fits m ty.layoutType ∧ ty.passing = .byValue)
      tys fields) : IR.Constant.FitAll m (tys.map Ty.irType) fields := by
  induction h with
  | nil => exact .nil
  | cons hfield _ ih =>
    rw [List.map_cons, Ty.irType_of_byValue hfield.2]
    exact .cons hfield.1 ih

/-- Contents that are read for a global fit what it is laid out as. -/
theorem fits_contents (htypes : Ty.Tabled types) (hlaid : Ty.LaidOut types m) (expected : Ty) :
    Ensures (contents types expected) fun _ c _ => c.Fits m expected.layoutType := by
  refine contents_ensures (P := fun ty (c : IR.Constant) => c.Fits m ty.layoutType)
    (fun hword => ?_) (fun hfind hfields => ?_) expected
  · rw [← Ty.irType_of_byValue (Ty.byValue_of_literal hword)]
    exact Ty.fits_literal hword
  · obtain ⟨haggregate, _, hknown⟩ := htypes.known_of_find? hfind
    rw [Ty.layoutType_of_aggregate haggregate]
    exact .struct (hlaid.structDef?_of_known hknown haggregate) (fitAll_of_fields hfields)

end Scan

/-! ## Both phases -/

/-- Tables and module correspond, every global holds a constant that fits it, and the functions that are
not typed await one of the bodies. -/
structure Declarations.Types (d : Declarations) (b : IR.Builder) (bodies : List PendingBody) :
    Prop where
  corresponds : d.Corresponds b bodies
  globals : ∀ g ∈ b.module.globals, g.init.Fits b.module g.ty
  functions : ∀ id f, b.module.function? id = some f →
    f.Typed b.module (Ty.kinds d.types) ∨ ∃ body ∈ bodies, body.function = id

theorem Declarations.Types.of_settled {d d' : Declarations} {b : IR.Builder} {bodies : List PendingBody}
    (h : d.Types b bodies) (hsettled : d'.settled = d.settled) : d'.Types b bodies :=
  ⟨h.corresponds.of_settled hsettled, h.globals, types_of_settled hsettled ▸ h.functions⟩

namespace Declaring

variable {s s' : Declaring}

/-- Tables and module correspond and are typed while the declarations of a unit are taken. -/
abbrev Typing (s : Declaring) : Prop := s.declarations.Types s.builder s.bodies

/-- A declaration only adds to the module. -/
theorem within_step (hstep : Declare.Step s s') : s.builder.module.Within s'.builder.module := by
  cases hstep with
  | type => exact .of_growth (List.prefix_append _ _) List.prefix_rfl List.prefix_rfl
  | global => exact .of_growth List.prefix_rfl (List.prefix_append _ _) List.prefix_rfl
  | function => exact .of_growth List.prefix_rfl List.prefix_rfl (List.prefix_append _ _)
  | method => exact .of_growth List.prefix_rfl List.prefix_rfl (List.prefix_append _ _)

/-- A declaration only adds to the table of types. -/
theorem kinds_step (hstep : Declare.Step s s') : ∀ name k,
    Ty.kinds s.declarations.types name = some k → Ty.kinds s'.declarations.types name = some k := by
  cases hstep with
  | type => exact Ty.kinds_mono (List.prefix_append _ _)
  | global | function | method => exact fun _ _ hk => hk

/-- The constants of globals fit after a declaration, that of a new global as it was read. -/
theorem Typing.globals_step (h : s.Typing) (hstep : Declare.Step s s') :
    ∀ g ∈ s'.builder.module.globals, g.init.Fits s'.builder.module g.ty := by
  have hold : ∀ g ∈ s.builder.module.globals, g.init.Fits s'.builder.module g.ty :=
    fun g hg => (h.globals g hg).mono (within_step hstep).offers
  cases hstep with
  | type | function | method => exact hold
  | global hreaches hheader hfree hcontents =>
    have hawaits := h.corresponds.awaits.declarations
    exact forall_concat hold ((Scan.fits_contents hawaits.types hawaits.laid _ _ _ _
      hcontents).mono (within_step (.global hreaches hheader hfree hcontents)).offers)

/-- A declaration leaves the functions typed that were; a function that it declares is awaited. -/
theorem Typing.functions_step (h : s.Typing) (hstep : Declare.Step s s') :
    ∀ id f, s'.builder.module.function? id = some f →
      f.Typed s'.builder.module (Ty.kinds s'.declarations.types) ∨
        ∃ body ∈ s'.bodies, body.function = id := by
  have hold : ∀ id f, s.builder.module.function? id = some f →
      f.Typed s'.builder.module (Ty.kinds s'.declarations.types) ∨
        ∃ body ∈ s.bodies, body.function = id :=
    fun id f hf => (h.functions id f hf).imp_left fun ht =>
      ht.mono (within_step hstep) (kinds_step hstep)
  have hnew : ∀ {name : String} {parameters : List (String × Ty)} {result : Ty} {resume : Nat},
      s'.builder = s.declaredFunction name parameters result →
      s'.bodies.Perm (s.bodies ++
        [⟨name, s.nextFunction, parameters, result, resume⟩]) →
      ∀ id f, s'.builder.module.function? id = some f →
        f.Typed s'.builder.module (Ty.kinds s'.declarations.types) ∨
          ∃ body ∈ s'.bodies, body.function = id := by
    intro name parameters result resume hbuilder hperm id f hf
    obtain ⟨hkept, hadded⟩ := PendingBody.mem_concat hperm
    have hf' := hf
    rw [hbuilder] at hf'
    rcases (Sound.declared s name parameters result).2.2 id f hf' with hf | rfl
    · refine (hold id f hf).imp_right ?_
      rintro ⟨body, hbody, hid⟩
      exact ⟨body, hkept body hbody, hid⟩
    · exact Or.inr ⟨_, hadded, rfl⟩
  cases hstep with
  | type | global => exact hold
  | function _ _ hfree _ _ hunlisted => exact hnew rfl (bodies_withFunction hfree hunlisted _ _)
  | method _ _ hfree _ _ hunlisted => exact hnew rfl (bodies_withMethod hfree hunlisted _ _)

theorem Typing.step (h : s.Typing) (hstep : Declare.Step s s') : s'.Typing :=
  ⟨Corresponding.step h.corresponds hstep, h.globals_step hstep, h.functions_step hstep⟩

end Declaring

namespace IR.Site

variable {w : Site} {insts : List Inst}

/-- What the module offers and its globals are there whatever the body. -/
theorem within (h : w.Open) (insts : List Inst) :
    w.base.module.Within (w.builder insts).module := ⟨offers h insts, fun hg => hg⟩

end IR.Site

namespace BodyContext

variable {d : Declarations} {source : List UInt8}

/-- A body that is accepted makes its function typed. -/
theorem emitPending_types {body : PendingBody} {rest : List PendingBody} {s s' : Emission}
    (h : d.Types s.builder (body :: rest)) (hs : emitPending d source body s = .ok () s') :
    d.Types s'.builder rest := by
  have hcorresponds := emitPending_corresponds h.corresponds hs
  have hready := h.corresponds.awaits.ready body List.mem_cons_self
  obtain ⟨w, hbase, hopen, hid, hparams, hret, hemits⟩ := emitPending_ok h.corresponds.awaits hs
  rw [← hbase] at h
  have hdeclarations := h.corresponds.awaits.declarations
  have htyped : w.Emits [] (emitOpened d source body) fun _ more => w.Completes more :=
    typed_emitOpened hopen hid hdeclarations hparams hret hready.parameters
  have hscoped : w.Emits [] (emitOpened d source body) fun _ more =>
      IR.Chain w.base.module (Ty.kinds d.types) w.function [] more :=
    scoped_emitOpened hopen hid hdeclarations h.corresponds.matching hparams hret hready.parameters
  obtain ⟨more, hbuilder, hcompletes, hchain⟩ := hemits _ (htyped.and hscoped hopen)
  have hwithin := Site.within hopen more
  refine ⟨hcorresponds, ?_, ?_⟩ <;> rw [hbuilder]
  · exact fun g hg => (h.globals g hg).mono hwithin.offers
  · intro id f hf
    by_cases hself : w.id = id
    · subst hself
      rw [Site.function?_self hopen] at hf
      cases hf
      -- The function that was compiled has its whole body; what the chain is typed against is the module
      -- with it.
      obtain ⟨init, last, rfl, hinit, hlast, _⟩ := hcompletes
      have hbody : IR.Chain (w.builder (init ++ [last])).module (Ty.kinds d.types)
          (w.withBody (init ++ [last])) [] (init ++ [last]) := by
        refine hchain.mono hwithin (fun _ _ hk => hk) ?_ ?_ <;> rfl
      refine Or.inl ⟨fun ty hty => ?_, ?_, init, last, rfl, fun inst hinst => (hinit inst hinst).1,
        hlast, hbody⟩
      · rw [Site.withBody, hparams] at hty
        obtain ⟨p, hp, rfl⟩ := List.mem_map.mp hty
        exact (hready.parameters p hp).held
      · rw [Site.withBody, hret]
        exact hready.result.result
    · rw [Site.function?_of_ne hself] at hf
      rcases h.functions id f hf with hold | ⟨other, hother, rfl⟩
      · exact Or.inl (hold.mono hwithin fun _ _ hk => hk)
      · rcases List.mem_cons.mp hother with rfl | hother
        · exact absurd hid hself
        · exact Or.inr ⟨other, hother, rfl⟩

theorem emitPendings_types {bodies : List PendingBody} {s s' : Emission}
    (h : d.Types s.builder bodies)
    (hs : bodies.forM (emitPending d source) s = .ok () s') : d.Types s'.builder [] :=
  forM_ok (P := fun s bodies => d.Types s.builder bodies) (fun _ _ _ _ => emitPending_types)
    ((List.append_nil bodies).symm ▸ h) hs

end BodyContext

/-! ## Modules -/

/-- Only a struct is kept as a structure. -/
theorem Ty.of_irType_struct {ty : Ty} {name : String} (h : ty.irType = .struct name) :
    ∃ fields, ty = .aggregate name .struct fields := by
  cases ty with
  | primitive p => cases p <;> cases h
  | aggregate n kind fields =>
    cases kind with
    | struct =>
      cases h
      exact ⟨fields, rfl⟩
    | model => cases h

namespace Declarations.Types

variable {d : Declarations} {b : IR.Builder} {bodies : List PendingBody}

/-- A structure of the module is one of a type, and so is any that is kept in it, which was declared
earlier. -/
theorem structs (h : d.Types b bodies) {i : Nat} {sd : IR.StructDef} (hdef : b.module.structs[i]? = some sd) :
    (Ty.kinds d.types sd.name).isSome ∧ ∀ ty ∈ sd.fields, IR.Held (Ty.kinds d.types) ty ∧
      ∀ name, ty = .struct name → ∃ j sd', j < i ∧ b.module.structs[j]? = some sd' ∧ sd'.name = name := by
  have hmatching := h.corresponds.matching
  rw [hmatching.structs, List.getElem?_map] at hdef
  obtain ⟨⟨name, ty⟩, hentry, rfl⟩ := Option.map_eq_some_iff.mp hdef
  obtain ⟨kind, fields, hty, hfields⟩ := hmatching.types i _ hentry
  obtain rfl : ty = .aggregate name kind fields := hty
  have hmem := List.mem_of_getElem? hentry
  have hknown : (Ty.aggregate name kind fields).KnownIn d.types :=
    fun _ => SymbolTable.find?_of_mem hmatching.typeNames hmem
  refine ⟨by simp [Ty.kinds_of_known hknown], fun t ht => ?_⟩
  obtain ⟨fieldTy, hfieldTy, rfl⟩ := List.mem_map.mp ht
  obtain ⟨field, hfield, rfl⟩ := List.mem_map.mp hfieldTy
  refine ⟨(h.corresponds.awaits.declarations.types.fields _ hmem field hfield).held,
    fun structName hstruct => ?_⟩
  obtain ⟨inner, hinner⟩ := Ty.of_irType_struct hstruct
  rcases hfields field hfield with ⟨p, hp⟩ | ⟨j, hj, hentry'⟩
  · cases hp.symm.trans hinner
  · refine ⟨j, _, hj, by rw [hmatching.structs, List.getElem?_map, hentry']; rfl, ?_⟩
    rw [hinner]
    rfl

/-- Once nothing is awaited, the module is typed. -/
theorem module (h : d.Types b []) : b.module.Typed (Ty.kinds d.types) where
  names := by
    rw [h.corresponds.matching.structs, List.map_map]
    exact h.corresponds.matching.typeNames
  structs := fun _ _ => h.structs
  declared name k hk := by
    unfold Ty.kinds at hk
    cases hfind : d.types.find? name with
    | none =>
      rw [hfind] at hk
      cases hk
    | some ty => exact ⟨_, h.corresponds.awaits.declarations.laid.structDef? hfind⟩
  globals g hg := by
    refine ⟨?_, h.globals g hg⟩
    obtain ⟨i, hi⟩ := List.getElem?_of_mem hg
    have hglobal := congrArg (fun l => l[i]?) h.corresponds.matching.globals
    simp only [List.getElem?_map, hi, Option.map_some] at hglobal
    obtain ⟨entry, hentry, hpair⟩ := Option.map_eq_some_iff.mp hglobal.symm
    rw [← (Prod.mk.inj hpair).2]
    exact (h.corresponds.awaits.declarations.globals i entry hentry).storable.kept
  functions f hf := by
    obtain ⟨id, hid⟩ := List.getElem?_of_mem hf
    rcases h.functions id f hid with htyped | ⟨body, hbody, _⟩
    · exact htyped
    · cases hbody

end Declarations.Types

/-! ## Projects -/

/-- Tables and module correspond and are typed, and no body is awaited. -/
def Project.Typed (p : Project) : Prop := p.declarations.Types p.builder []

namespace Project

variable {p q : Project}

theorem typed_start (name : String) : (start name).Typed where
  corresponds := corresponds_start name
  globals := by simp [start, IR.Builder.start]
  functions := by simp [start, IR.Builder.start, IR.Module.function?]

theorem Typed.of_sameTables (h : p.Typed) (hsame : p.SameTables q) : q.Typed where
  corresponds := Corresponds.of_sameTables h.corresponds hsame
  globals := hsame.module ▸ h.globals
  functions := hsame.declarations ▸ hsame.module ▸ h.functions

theorem Typed.takeUnit {unit : SourceUnit} (h : p.Typed)
    (hok : (p.takeUnit unit).result = .ok ()) : (p.takeUnit unit).project.Typed := by
  obtain ⟨s, made, hdeclare, hloop, hproject⟩ := takeUnit_ok hok
  rw [hproject]
  obtain ⟨log, hsteps, _⟩ := Declare.declareAll_steps (p.listed_opening unit) hdeclare
  refine (BodyContext.emitPendings_types ?_ hloop).of_settled (Declarations.settled_withoutResumes _ _)
  refine hsteps.invariant (P := Declaring.Typing) Declaring.Typing.step ?_ h
  exact fun ha _ => ⟨⟨ha.corresponds.awaits, ha.corresponds.matching, ha.corresponds.entered⟩,
    ha.globals, ha.functions⟩

theorem Typed.run (h : p.Typed) (units : List SourceUnit) : (p.run units).Typed :=
  run_invariant Typed.of_sameTables Typed.takeUnit h units

/-- The module of every project is well typed. -/
theorem typed_module (name : String) (units : List SourceUnit) :
    ((start name).run units).builder.module.Typed
      (Ty.kinds ((start name).run units).declarations.types) :=
  ((typed_start name).run units).module

/-- Units that are all accepted are run. -/
theorem run_of_compileUnits {units : List SourceUnit} {p q : Project}
    (h : (p.compileUnits units).result = .ok q) : q = p.run units := by
  induction units generalizing p with
  | nil =>
    cases h
    rfl
  | cons unit rest ih =>
    unfold compileUnits at h
    dsimp only at h
    cases hresult : (p.compileUnit unit).result with
    | error refusal =>
      rw [hresult] at h
      cases h
    | ok _ =>
      rw [hresult] at h
      exact ih h

end Project

/-- The module of a list of units is that of the project that was given them. -/
theorem module_of_buildModule {units : List SourceUnit} {options : CompileOptions} {m : IR.Module}
    (h : (buildModule units options).result = .ok m) :
    m = ((Project.start options.projectName).run units).builder.module := by
  unfold buildModule at h
  dsimp only at h
  obtain ⟨p, hp, hfinish⟩ := Except.bind_ok h
  rw [← Project.run_of_compileUnits hp]
  unfold Project.finish at hfinish
  split at hfinish <;> cases hfinish
  rfl

/-- The module of a list of units is well typed. -/
theorem typed_of_buildModule {units : List SourceUnit} {options : CompileOptions} {m : IR.Module}
    (h : (buildModule units options).result = .ok m) : ∃ kinds, m.Typed kinds :=
  ⟨_, module_of_buildModule h ▸ Project.typed_module options.projectName units⟩

end Straightline
