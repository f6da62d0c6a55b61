import Straightline.Proofs.Declaring.Matching
import Straightline.Proofs.Emission.TypedBody
import Straightline.Proofs.IR.Typed
import Straightline.Proofs.Safety.Types

/-!
# What is emitted is well scoped

The check of a module takes the handles of values on trust. They can be trusted: a handle that is held
in a scope, in the record of a global or in a list of arguments was given by an earlier instruction of
the same function, by the function's parameters or by the module, and of the type that it bears. So the
instructions that a body is turned into form a chain (`IR.Chain`), each typed against those before it.
-/

set_option autoImplicit false

namespace Straightline

open IR (Site Inst Held Kept Canonical)

/-! ## Kinds -/

/-- The kinds of the types of a table. -/
def Ty.kinds (types : SymbolTable Ty) : IR.Kinds := fun name =>
  match types.find? name with
  | some (.aggregate _ kind _) => some kind
  | _ => none

namespace Ty

variable {types types' : SymbolTable Ty} {ty : Ty}

theorem kinds_of_known {name : String} {kind : AggregateKind} {fields : List (String × Ty)}
    (h : (aggregate name kind fields).KnownIn types) : kinds types name = some kind := by
  have hfind : types.find? name = some (aggregate name kind fields) := h rfl
  simp only [kinds, hfind]

theorem kinds_mono (hgrowth : types.entries <+: types'.entries) :
    ∀ name k, kinds types name = some k → kinds types' name = some k := by
  intro name k h
  unfold kinds at h ⊢
  cases hfind : types.find? name with
  | none =>
    rw [hfind] at h
    cases h
  | some ty =>
    rw [hfind] at h
    rw [SymbolTable.find?_of_growth hgrowth hfind]
    exact h

theorem bits_mem_widths {p : Primitive} (h : (primitive p).isVoid = false) : p.bits ∈ IR.widths := by
  cases p with
  | void => cases h
  | bool | int8 | int16 | int32 | int64 => decide

theorem irType_primitive {p : Primitive} (h : (primitive p).isVoid = false) :
    (primitive p).irType = .int p.bits := by
  cases p with
  | void => cases h
  | bool | int8 | int16 | int32 | int64 => rfl

/-- Values of a known type are kept and passed as what represents them. -/
theorem StorableIn.held (h : ty.StorableIn types) : Held (kinds types) ty.irType := by
  obtain ⟨hknown, hvalued⟩ := h
  cases ty with
  | primitive p =>
    rw [irType_primitive hvalued]
    exact .int (bits_mem_widths hvalued)
  | aggregate name kind fields =>
    have hkind := kinds_of_known hknown
    cases kind with
    | struct => exact .struct hkind
    | model => exact .model hkind

/-- Contents of a known type are kept as they are laid out. -/
theorem StorableIn.kept (h : ty.StorableIn types) : Kept (kinds types) ty.layoutType := by
  cases hpassing : ty.passing with
  | byValue =>
    rw [← irType_of_byValue hpassing]
    exact .held h.held
  | byAddress =>
    cases ty with
    | primitive p => cases hpassing
    | aggregate name kind fields => exact .of_kind (kinds_of_known h.known)

/-- The result of a function is a value or nothing. -/
theorem KnownIn.result (h : ty.KnownIn types) :
    ty.irType = .void ∨ Held (kinds types) ty.irType := by
  cases hvoid : ty.isVoid with
  | false => exact Or.inr (StorableIn.held ⟨h, hvoid⟩)
  | true =>
    cases ty with
    | aggregate name kind fields => cases hvoid
    | primitive p => cases p <;> first | exact Or.inl rfl | cases hvoid

theorem irType_ne_void (h : ty.isVoid = false) : ty.irType ≠ .void := by
  cases ty with
  | primitive p =>
    rw [irType_primitive h]
    simp
  | aggregate name kind fields => cases kind <;> simp [irType, passing, layoutType]

/-- A number is a value of a primitive type if it is one of its width. -/
theorem canonical_of_holds {p : Primitive} {n : Int} (h : p.Holds n) : Canonical p.bits n := by
  cases p with
  | void => exact h.elim
  | bool | int8 | int16 | int32 | int64 => exact h

/-- A literal is a constant of the width of its type. -/
theorem fits_literal {m : IR.Module} {text : String} {n : Int} (h : ty.literal? text = some n) :
    (IR.Constant.int n).Fits m ty.irType := by
  cases ty with
  | aggregate name kind fields => cases h
  | primitive p =>
    have hholds := holds_of_literal h
    have hvalued : (primitive p).isVoid = false := by
      cases p with
      | void => exact hholds.elim
      | bool | int8 | int16 | int32 | int64 => rfl
    rw [irType_primitive hvalued]
    exact .int (bits_mem_widths hvalued) (canonical_of_holds hholds)

/-- The widths to which arithmetic applies. -/
theorem irType_of_isInteger (h : ty.isInteger = true) :
    ∃ bits, bits ∈ IR.widths ∧ bits ≠ 1 ∧ ty.irType = .int bits := by
  cases ty with
  | aggregate => cases h
  | primitive p =>
    cases p with
    | void | bool => cases h
    | int8 | int16 | int32 | int64 => exact ⟨_, by decide, by decide, rfl⟩

theorem valued_of_isInteger (h : ty.isInteger = true) : ty.isVoid = false := by
  cases ty with
  | aggregate => rfl
  | primitive p => cases p <;> first | rfl | cases h

end Ty

/-! ## Handles -/

/-- The handle may be used after the instructions `insts` of the function. -/
abbrev IR.Site.Scoped (w : Site) (insts : List Inst) (v : IR.Value) : Prop :=
  v.Scoped w.base.module w.function.params insts

namespace IR.Site

variable {w : Site} {insts more : List Inst}

/-- The result of the next instruction may be used after it. -/
theorem scoped_next {ty : IRType} (hty : ty ≠ .void) (op : IR.Op) :
    w.Scoped (insts ++ [⟨insts.length, ty, op⟩]) (next insts ty) :=
  @IR.Value.Scoped.inst _ _ _ _ ⟨insts.length, ty, op⟩ List.getElem?_concat_length hty

end IR.Site

/-- The value by which a binding is known. -/
def Storage.handle : Storage IR.Value → IR.Value
  | .slot address => address
  | .direct value => value

/-- Every binding that can be looked up is in a fitting place, which may be used after `insts`. -/
structure Scope.Placed (w : Site) (types : SymbolTable Ty) (insts : List Inst)
    (scope : Scope IR.Value) : Prop where
  fits : scope.Fits types
  handles : ∀ name binding, scope.lookup name = some binding →
    w.Scoped insts binding.storage.handle

/-- The tables of the context match the module of the site. -/
structure BodyContext.Placed (ctx : BodyContext) (w : Site) : Prop where
  fits : ctx.Fits w
  matching : ctx.declarations.Matches w.base.module

namespace Scope.Placed

variable {w : Site} {types : SymbolTable Ty} {insts : List Inst} {scope : Scope IR.Value}

theorem later (h : scope.Placed w types insts) (more : List Inst) :
    scope.Placed w types (insts ++ more) :=
  ⟨h.fits, fun name binding hb => (h.handles name binding hb).later more⟩

theorem root : (Scope.root : Scope IR.Value).Placed w types insts :=
  ⟨.root, fun _ _ h => by cases h⟩

theorem push (h : scope.Placed w types insts) : scope.push.Placed w types insts :=
  ⟨h.fits.push, h.handles⟩

theorem declare (h : scope.Placed w types insts) {name : String} {ty : Ty}
    {storage : Storage IR.Value} (hty : ty.StorableIn types) (hfits : storage.Fits ty)
    (hhandle : w.Scoped insts storage.handle) :
    (scope.declare name ty storage).Placed w types insts := by
  refine ⟨h.fits.declare hty hfits, fun name' binding hbinding => ?_⟩
  rw [lookup_declare] at hbinding
  split at hbinding
  · cases hbinding
    exact hhandle
  · exact h.handles name' binding hbinding

end Scope.Placed

namespace BodyContext

variable {ctx : BodyContext} {w : Site} {scope : Scope IR.Value} {insts : List Inst}

/-- What is added after `insts` is a chain, by the kinds of the tables. -/
abbrev Chains (ctx : BodyContext) (w : Site) (insts more : List Inst) : Prop :=
  IR.Chain w.base.module (Ty.kinds ctx.declarations.types) w.function insts more

/-- The value is represented as one of type `ty` and may be used after what was added for it, which is a
chain. -/
structure Handled (ctx : BodyContext) (w : Site) (insts : List Inst) (ty : IRType)
    (value : IR.Value) (more : List Inst) : Prop where
  ty : value.ty = ty
  live : w.Scoped (insts ++ more) value
  chain : ctx.Chains w insts more

theorem chains_nil : ctx.Chains w insts [] := .nil

/-- One instruction that is typed is a chain, and its result may be used. -/
theorem handled_next {ty : IRType} {op : IR.Op} (hty : ty ≠ .void)
    (h : IR.Op.Typed w.base.module (Ty.kinds ctx.declarations.types) w.function insts ty op) :
    ctx.Handled w insts ty (Site.next insts ty) [⟨insts.length, ty, op⟩] :=
  ⟨rfl, Site.scoped_next hty op, .one h⟩

theorem handled_alloca (w : Site) (insts : List Inst) {ty : IRType} (name : Option String)
    (h : Held (Ty.kinds ctx.declarations.types) ty) :
    ctx.Handled w insts (.ptr ty) (Site.next insts (.ptr ty))
      [⟨insts.length, .ptr ty, .alloca ty name⟩] :=
  handled_next (by simp) (.alloca h)

namespace Handled

variable {ty : IRType} {value : IR.Value} {more more' : List Inst}

/-- What comes behind a chain may be taken together with it. -/
theorem behind (h : ctx.Handled w (insts ++ more) ty value more') (hmore : ctx.Chains w insts more) :
    ctx.Handled w insts ty value (more ++ more') := by
  refine ⟨h.ty, ?_, hmore.append h.chain⟩
  rw [← List.append_assoc]
  exact h.live

/-- The value may still be used when the chain goes on. -/
theorem onward (h : ctx.Handled w insts ty value more) (hmore : ctx.Chains w (insts ++ more) more') :
    ctx.Handled w insts ty value (more ++ more') := by
  refine ⟨h.ty, ?_, h.chain.append hmore⟩
  rw [← List.append_assoc]
  exact h.live.later more'

end Handled

namespace Placed

theorem lookup? (hctx : ctx.Placed w) (hscope : scope.Placed w ctx.declarations.types insts)
    {name : String} {ty : Ty} {storage : Storage IR.Value}
    (h : ctx.lookup? scope name = some (ty, storage)) :
    ty.StorableIn ctx.declarations.types ∧ storage.Fits ty ∧ w.Scoped insts storage.handle := by
  obtain ⟨hty, hfits⟩ := hctx.fits.lookup? hscope.fits h
  refine ⟨hty, hfits, ?_⟩
  cases hb : scope.lookup name with
  | some binding =>
    obtain ⟨rfl, rfl⟩ := lookup?_local hb h
    exact hscope.handles name binding hb
  | none =>
    obtain ⟨record, hfind, rfl, rfl⟩ := lookup?_global hb h
    obtain ⟨i, hi⟩ := List.getElem?_of_mem (SymbolTable.mem_of_find? hfind)
    have hstorage := hctx.matching.addresses i _ hi
    have hglobal := congrArg (fun l => l[i]?) hctx.matching.globals
    simp only [List.getElem?_map, hi, Option.map_some] at hglobal
    obtain ⟨g, hg, hentry⟩ := Option.map_eq_some_iff.mp hglobal
    have hgty : g.ty = record.ty.layoutType := congrArg Prod.snd hentry
    have hhandle : record.storage.handle = ⟨.global i, .ptr g.ty⟩ := by
      rw [hstorage, hgty]
      unfold Declaring.globalStorage
      cases record.ty.passing <;> rfl
    rw [hhandle]
    exact .global hg

/-- A field has a place in the structure that the module declares. -/
theorem field (hctx : ctx.Placed w) {ty fieldTy : Ty} {member : String} {index : Nat}
    (hty : ty.KnownIn ctx.declarations.types) (h : ty.fieldOf member = .ok (index, fieldTy)) :
    ty.isAggregate = true ∧ fieldTy.StorableIn ctx.declarations.types ∧
      w.base.module.fieldType? (.ptr ty.layoutType) index = some fieldTy.irType ∧
      ∃ d, w.base.module.structDef? ty.name = some d ∧ d.fields[index]? = some fieldTy.irType := by
  obtain ⟨haggregate, hget, hstorable, hplace⟩ := hctx.fits.field hty h
  have hdef := hctx.fits.declarations.laid.structDef?_of_known hty haggregate
  refine ⟨haggregate, hstorable, hplace, _, hdef, ?_⟩
  simp [Ty.structDef, hget]

end Placed

/-! ## Terms -/

theorem scoped_valueOf (hctx : ctx.Placed w) {ty : Ty} {storage : Storage IR.Value}
    (hty : ty.StorableIn ctx.declarations.types) (hfits : storage.Fits ty)
    (hhandle : w.Scoped insts storage.handle) :
    w.Emits insts (valueOf storage) (ctx.Handled w insts ty.irType) := by
  cases storage with
  | slot address =>
    exact .build (Site.load hctx.fits.opened hfits)
      (handled_next hty.held.ne_void (.load hty.held hhandle hfits))
  | direct value => exact .pure ⟨hfits.1, hhandle.later [], chains_nil⟩

/-- A store of a value that is kept is one instruction. -/
theorem scoped_store (hctx : ctx.Placed w) {value ptr : IR.Value} {ty : IRType}
    (hty : Kept (Ty.kinds ctx.declarations.types) ty) (hvalue : value.ty = ty)
    (hptr : ptr.ty = .ptr ty) (hvalueScoped : w.Scoped insts value)
    (hptrScoped : w.Scoped insts ptr) :
    w.Emits insts (Emit.build (IR.Build.store value ptr)) fun _ more => ctx.Chains w insts more :=
  .build (Site.store hctx.fits.opened value ptr)
    (.one (.store (hvalue ▸ hty) hvalueScoped hptrScoped (hptr.trans (congrArg _ hvalue.symm))))

theorem scoped_spill (hctx : ctx.Placed w) {ty : Ty} {name : Option String} {value : IR.Value}
    (hty : ty.StorableIn ctx.declarations.types) (hvalue : value.ty = ty.irType)
    (hscoped : w.Scoped insts value) :
    w.Emits insts (spill ty name value) (ctx.Handled w insts (.ptr ty.irType)) := by
  refine .built (Site.emit hctx.fits.opened _ _) ?_
  have haddress := handled_alloca w insts name hty.held
  refine .bind (scoped_store hctx (.held hty.held) hvalue haddress.ty (hscoped.later _)
    haddress.live) fun _ more hmore => .pure ?_
  rw [List.append_nil]
  exact haddress.onward hmore

theorem scoped_fieldsAddress (hctx : ctx.Placed w) {ty : Ty} {storage : Storage IR.Value}
    (hty : ty.StorableIn ctx.declarations.types) (haggregate : ty.isAggregate = true)
    (hfits : storage.Fits ty) (hhandle : w.Scoped insts storage.handle) :
    w.Emits insts (fieldsAddress ty storage) (ctx.Handled w insts (.ptr ty.layoutType)) := by
  unfold fieldsAddress
  cases hpassing : ty.passing with
  | byAddress =>
    have hir := Ty.irType_of_byAddress hpassing
    cases storage with
    | slot address =>
      have hload : address.ty = .ptr (.ptr ty.layoutType) := hir ▸ hfits
      exact .build (Site.load hctx.fits.opened hload)
        (handled_next (by simp) (.load (hir ▸ hty.held) hhandle hload))
    | direct value => exact .pure ⟨hfits.1.trans hir, hhandle.later [], chains_nil⟩
  | byValue =>
    cases storage with
    | slot address =>
      refine .pure ⟨?_, hhandle.later [], chains_nil⟩
      exact hfits.trans (by rw [Ty.irType_of_byValue hpassing])
    | direct value =>
      have hmodel := hfits.2 haggregate
      rw [hpassing] at hmodel
      cases hmodel

/-- Fields that are all constants make a constant. -/
theorem fitAll_constants {m : IR.Module} {params : List IRType} {before : List Inst}
    {fields : List IR.Value} {constants : List IR.Constant}
    (hfields : ∀ field ∈ fields, field.Scoped m params before)
    (h : fields.mapM IR.Value.constant? = some constants) :
    IR.Constant.FitAll m (fields.map IR.Value.ty) constants := by
  induction fields generalizing constants with
  | nil =>
    cases h
    exact .nil
  | cons field rest ih =>
    rw [List.mapM_cons] at h
    cases hfield : field.constant? with
    | none => simp [hfield] at h
    | some c =>
      cases hrest : rest.mapM IR.Value.constant? with
      | none => simp [hfield, hrest] at h
      | some cs =>
        simp only [hfield, hrest, Option.bind_eq_bind, Option.bind_some, Option.pure_def,
          Option.some.injEq] at h
        subst h
        rw [List.forall_mem_cons] at hfields
        refine .cons ?_ (ih hfields.2 hrest)
        have hscoped := hfields.1
        cases hscoped with
        | const hc =>
          cases hfield
          exact hc
        | param | inst | global => cases hfield

theorem scoped_construct (hctx : ctx.Placed w) {ty : Ty}
    (hty : ty.KnownIn ctx.declarations.types) (haggregate : ty.isAggregate = true)
    {fields : List IR.Value} (htypes : fields.map IR.Value.ty = ty.fieldTypes.map Ty.irType)
    (hscoped : ∀ field ∈ fields, w.Scoped insts field) :
    w.Emits insts (construct ty fields) (ctx.Handled w insts ty.irType) := by
  have hopen := hctx.fits.opened
  have hdef := hctx.fits.declarations.laid.structDef?_of_known hty haggregate
  have hlayout := Ty.layoutType_of_aggregate haggregate
  have hvalued : ty.isVoid = false := by
    cases ty with
    | primitive p => cases haggregate
    | aggregate => rfl
  have hstorable : ty.StorableIn ctx.declarations.types := ⟨hty, hvalued⟩
  refine .bind (Q := ctx.Handled w insts ty.layoutType) ?_ fun value more hvalue => ?_
  -- A structure of constants is a constant and takes no instruction.
  · cases hconstants : fields.mapM IR.Value.constant? with
    | some constants =>
      refine .look (Site.struct_constants hconstants) ⟨rfl, .const ?_, chains_nil⟩
      have hall := fitAll_constants hscoped hconstants
      rw [htypes] at hall
      rw [hlayout]
      exact .struct hdef hall
    | none =>
      refine .build (Site.struct_fields hopen hconstants) (handled_next ?_ ?_)
      · rw [hlayout]
        simp
      · rw [hlayout]
        exact .aggregate hdef hscoped htypes
  · cases hpassing : ty.passing with
    | byValue =>
      refine .pure ⟨hvalue.ty.trans (Ty.irType_of_byValue hpassing).symm, ?_, ?_⟩ <;>
        rw [List.append_nil]
      · exact hvalue.live
      · exact hvalue.chain
    | byAddress =>
      have hkind : Ty.kinds ctx.declarations.types ty.name = some .model := by
        cases ty with
        | primitive p => cases haggregate
        | aggregate name kind fields =>
          cases kind with
          | struct => cases hpassing
          | model => exact Ty.kinds_of_known hty
      -- A model is put on the heap, and its address is the value.
      have haddress : ctx.Handled w (insts ++ more) (.ptr ty.layoutType)
          (Site.next (insts ++ more) (.ptr ty.layoutType))
          [⟨(insts ++ more).length, .ptr ty.layoutType, .heapAlloc ty.layoutType⟩] := by
        refine handled_next (by simp) ?_
        rw [hlayout]
        exact .heapAlloc hkind
      refine .built (Site.emit hopen _ _) ?_
      refine .bind (scoped_store hctx hstorable.kept hvalue.ty haddress.ty
        (hvalue.live.later _) haddress.live) fun _ more' hmore' => .pure ?_
      rw [List.append_nil, Ty.irType_of_byAddress hpassing]
      exact (haddress.onward hmore').behind hvalue.chain

theorem scoped_emitWord (hctx : ctx.Placed w)
    (hscope : scope.Placed w ctx.declarations.types insts) (expected : Ty) (text : String)
    (stop : Nat) :
    w.Emits insts (ctx.emitWord scope expected text stop)
      (ctx.Handled w insts expected.irType) := by
  unfold emitWord
  split
  · rename_i value hliteral
    exact .pure ⟨rfl, .const (Ty.fits_literal hliteral), chains_nil⟩
  · split
    · rename_i ty storage hlookup
      obtain ⟨hty, hfits, hhandle⟩ := hctx.lookup? hscope hlookup
      refine .checked fun _ hsame => ?_
      obtain rfl := requireSame_ok hsame
      exact scoped_valueOf hctx hty hfits hhandle
    · split <;> exact .refuse

/-- The address of a field, and what is behind it. -/
theorem scoped_fieldAddr (hctx : ctx.Placed w) {ty fieldTy : Ty} {member : String} {index : Nat}
    {base : IR.Value} (hty : ty.KnownIn ctx.declarations.types)
    (hfield : ty.fieldOf member = .ok (index, fieldTy)) (hbase : base.ty = .ptr ty.layoutType)
    (hscoped : w.Scoped insts base) :
    w.Emits insts (Emit.build (IR.Build.fieldAddr base index))
      (ctx.Handled w insts (.ptr fieldTy.irType)) := by
  obtain ⟨haggregate, _, hplace, d, hdef, hget⟩ := hctx.field hty hfield
  refine .build (Site.fieldAddr hctx.fits.opened (by rw [hbase]; exact hplace))
    (handled_next (by simp) (.fieldAddr hscoped ?_ hdef hget))
  rw [hbase, Ty.layoutType_of_aggregate haggregate]

theorem scoped_emitField (hctx : ctx.Placed w)
    (hscope : scope.Placed w ctx.declarations.types insts) (expected : Ty)
    (target member : String) (stop : Nat) :
    w.Emits insts (ctx.emitField scope expected target member stop)
      (ctx.Handled w insts expected.irType) := by
  refine emits_lookup fun ty storage hlookup => ?_
  obtain ⟨hty, hfits, hhandle⟩ := hctx.lookup? hscope hlookup
  refine .checked ?_
  rintro ⟨index, fieldTy⟩ hfield
  obtain ⟨haggregate, hfieldTy, _, _⟩ := hctx.field hty.known hfield
  refine .checked fun _ hsame => ?_
  obtain rfl := requireSame_ok hsame
  refine .bind (scoped_fieldsAddress hctx hty haggregate hfits hhandle) ?_
  intro base more hbase
  refine .bind (scoped_fieldAddr hctx hty.known hfield hbase.ty hbase.live) ?_
  intro address more' haddress
  have hload : ctx.Handled w _ _ _ _ :=
    handled_next hfieldTy.held.ne_void (.load hfieldTy.held haddress.live haddress.ty)
  exact .build (Site.load hctx.fits.opened haddress.ty)
    ((hload.behind haddress.chain).behind hbase.chain)

/-- What emitting arguments for parameters of these types comes to. -/
structure HandledAll (ctx : BodyContext) (w : Site) (insts : List Inst) (types : List Ty)
    (args : List IR.Value) (more : List Inst) : Prop where
  types : args.map IR.Value.ty = types.map Ty.irType
  live : ∀ arg ∈ args, w.Scoped (insts ++ more) arg
  chain : ctx.Chains w insts more

/-- A call gives a value of the result's type; if that has values, it may be used. -/
structure Called (ctx : BodyContext) (w : Site) (insts : List Inst) (result : Ty)
    (value : IR.Value) (more : List Inst) : Prop where
  ty : value.ty = result.irType
  live : result.isVoid = false → w.Scoped (insts ++ more) value
  chain : ctx.Chains w insts more

theorem Called.behind {result : Ty} {value : IR.Value} {more more' : List Inst}
    (h : ctx.Called w (insts ++ more) result value more') (hmore : ctx.Chains w insts more) :
    ctx.Called w insts result value (more ++ more') := by
  refine ⟨h.ty, fun hvalued => ?_, hmore.append h.chain⟩
  rw [← List.append_assoc]
  exact h.live hvalued

theorem scoped_call (hctx : ctx.Placed w) {callee : IR.FunctionId} {types : List Ty} {result : Ty}
    {args : List IR.Value} (hdeclared : w.base.module.Declares callee types result)
    (hargs : args.map IR.Value.ty = types.map Ty.irType)
    (hscoped : ∀ arg ∈ args, w.Scoped insts arg) :
    w.Emits insts (Emit.build (IR.Build.call callee args)) (ctx.Called w insts result) := by
  obtain ⟨f, hf, hparams, hret⟩ := hdeclared
  refine .build (Site.call hctx.fits.opened hf) ⟨hret, fun hvalued => Site.scoped_next ?_ _,
    .one (.call hf hscoped (hargs.trans hparams.symm))⟩
  rw [hret]
  exact Ty.irType_ne_void hvalued

/-- A call of a function gives what is expected of it, if anything is. -/
theorem scoped_callFunction (hctx : ctx.Placed w) {callee : String} {stop : Nat}
    {expected : Option Ty} {arguments : List Ty → Emit (List IR.Value)}
    (harguments : ∀ types, (∀ ty ∈ types, ty.isVoid = false) →
      w.Emits insts (arguments types) (ctx.HandledAll w insts types)) :
    w.Emits insts (ctx.callFunction callee stop expected arguments) fun value more =>
      ∃ result, (∀ ty, expected = some ty → result = ty) ∧ ctx.Called w insts result value more := by
  unfold callFunction
  split
  · exact .refuse
  · rename_i record hfind
    have hrecord := hctx.fits.declarations.functions _ (SymbolTable.mem_of_find? hfind)
    refine .checked fun _ hresult => ?_
    refine .bind (harguments _ hrecord.known.valued) ?_
    intro args more hargs
    refine (scoped_call hctx hrecord.declared hargs.types hargs.live).imp ?_
    intro value more' hvalue
    refine ⟨record.signature.result, ?_, hvalue.behind hargs.chain⟩
    rintro ty rfl
    exact (requireSame_ok hresult).symm

theorem scoped_callMethod (hctx : ctx.Placed w)
    (hscope : scope.Placed w ctx.declarations.types insts) {target member : String} {stop : Nat}
    {expected : Option Ty} {arguments : List Ty → Emit (List IR.Value)}
    (harguments : ∀ types more, (∀ ty ∈ types, ty.isVoid = false) →
      w.Emits (insts ++ more) (arguments types) (ctx.HandledAll w (insts ++ more) types)) :
    w.Emits insts (ctx.callMethod scope target member stop expected arguments) fun value more =>
      ∃ result, (∀ ty, expected = some ty → result = ty) ∧ ctx.Called w insts result value more := by
  refine emits_lookup fun ty storage hlookup => ?_
  obtain ⟨hty, hfits, hhandle⟩ := hctx.lookup? hscope hlookup
  refine .required fun haggregate => ?_
  split
  · exact .refuse
  · rename_i record hfind
    have hrecord := hctx.fits.declarations.methods _ (SymbolTable.mem_of_find? hfind)
    have howner := hrecord.owner_eq hctx.fits.declarations.types hty.known haggregate
    refine .checked fun _ hresult => ?_
    refine .bind (scoped_valueOf hctx hty hfits hhandle) ?_
    intro receiver more hreceiver
    refine .bind (harguments _ more hrecord.known.valued) ?_
    intro args more' hargs
    have hall : (receiver :: args).map IR.Value.ty
        = (record.owner :: record.signature.argumentTypes).map Ty.irType := by
      rw [List.map_cons, List.map_cons, hargs.types, hreceiver.ty, howner]
    have hscoped : ∀ arg ∈ receiver :: args, w.Scoped (insts ++ more ++ more') arg :=
      List.forall_mem_cons.mpr ⟨hreceiver.live.later more', hargs.live⟩
    refine (scoped_call hctx hrecord.declared hall hscoped).imp ?_
    intro value more'' hvalue
    refine ⟨record.signature.result, ?_, (hvalue.behind hargs.chain).behind hreceiver.chain⟩
    rintro ty rfl
    exact (requireSame_ok hresult).symm

theorem scoped_emitOperator (hctx : ctx.Placed w) {ty : Ty} (hinteger : ty.isInteger = true)
    {lhs rhs : IR.Value} (hlhs : lhs.ty = ty.irType) (hrhs : rhs.ty = ty.irType)
    (hleft : w.Scoped insts lhs) (hright : w.Scoped insts rhs) (operator : Operator) :
    w.Emits insts (Emit.build (emitOperator operator lhs rhs))
      (ctx.Handled w insts ty.irType) := by
  obtain ⟨bits, hbits, hwide, hty⟩ := Ty.irType_of_isInteger hinteger
  rw [hty] at hlhs hrhs ⊢
  cases operator with
  | add =>
    exact .build (Site.emit hctx.fits.opened _ _) (hlhs ▸ handled_next (by simp [hlhs])
      (hlhs ▸ .add hbits hwide hleft hright hlhs hrhs))
  | sub =>
    exact .build (Site.emit hctx.fits.opened _ _) (hlhs ▸ handled_next (by simp [hlhs])
      (hlhs ▸ .sub hbits hwide hleft hright hlhs hrhs))

mutual

theorem scoped_emitTerm (hctx : ctx.Placed w) {insts : List Inst}
    (hscope : scope.Placed w ctx.declarations.types insts) (expected : Ty)
    (hexpected : expected.isVoid = false) (t : Term) :
    w.Emits insts (ctx.emitTerm scope expected t) (ctx.Handled w insts expected.irType) := by
  cases t with
  | word text stop => exact scoped_emitWord hctx hscope expected text stop
  | field target member stop => exact scoped_emitField hctx hscope expected target member stop
  | call callee stop arguments close =>
    unfold emitTerm
    split
    · rename_i ty hfind
      have htypes := hctx.fits.declarations.types
      obtain ⟨haggregate, _, hknown⟩ := htypes.known_of_find? hfind
      refine .checked fun _ hsame => ?_
      obtain rfl := requireSame_ok hsame
      refine .bind (scoped_emitArguments hctx hscope _ close _ (htypes.valued_fieldTypes hknown)
        arguments) ?_
      intro fields more hfields
      exact (scoped_construct hctx hknown haggregate hfields.types hfields.live).imp
        fun _ _ hvalue => hvalue.behind hfields.chain
    · refine (scoped_callFunction hctx fun types htypes =>
        scoped_emitArguments hctx hscope _ close types htypes arguments).imp ?_
      rintro value more ⟨result, hresult, hvalue⟩
      rw [hresult expected rfl] at hvalue
      exact ⟨hvalue.ty, hvalue.live hexpected, hvalue.chain⟩
  | methodCall target member stop arguments close =>
    unfold emitTerm
    refine (scoped_callMethod hctx hscope fun types more htypes =>
      scoped_emitArguments hctx (hscope.later more) _ close types htypes arguments).imp ?_
    rintro value more ⟨result, hresult, hvalue⟩
    rw [hresult expected rfl] at hvalue
    exact ⟨hvalue.ty, hvalue.live hexpected, hvalue.chain⟩

theorem scoped_emitSteps (hctx : ctx.Placed w) {insts : List Inst}
    (hscope : scope.Placed w ctx.declarations.types insts) (expected : Ty)
    (hexpected : expected.isVoid = false) (value : IR.Value) (hvalue : value.ty = expected.irType)
    (hscoped : w.Scoped insts value) (steps : List Step) :
    w.Emits insts (ctx.emitSteps scope expected value steps)
      (ctx.Handled w insts expected.irType) := by
  cases steps with
  | nil =>
    unfold emitSteps
    exact .pure ⟨hvalue, hscoped.later [], chains_nil⟩
  | cons step rest =>
    obtain ⟨operator, stop, operand⟩ := step
    unfold emitSteps
    refine .required fun hinteger => ?_
    refine .bind (scoped_emitTerm hctx hscope expected hexpected operand) ?_
    intro right more hright
    refine .bind (scoped_emitOperator hctx hinteger hvalue hright.ty (hscoped.later more)
      hright.live operator) ?_
    intro result more' hresult
    exact (scoped_emitSteps hctx ((hscope.later more).later more') expected hexpected result
      hresult.ty hresult.live rest).imp
      fun _ _ hlast => (hlast.behind hresult.chain).behind hright.chain

theorem scoped_emitExpression (hctx : ctx.Placed w) {insts : List Inst}
    (hscope : scope.Placed w ctx.declarations.types insts) (expected : Ty)
    (hexpected : expected.isVoid = false) (e : Expression) :
    w.Emits insts (ctx.emitExpression scope expected e)
      (ctx.Handled w insts expected.irType) := by
  obtain ⟨first, steps, stop⟩ := e
  unfold emitExpression
  refine .bind (scoped_emitTerm hctx hscope expected hexpected first) ?_
  intro value more hvalue
  exact (scoped_emitSteps hctx (hscope.later more) expected hexpected value hvalue.ty
    hvalue.live steps).imp fun _ _ hlast => hlast.behind hvalue.chain

theorem scoped_emitArguments (hctx : ctx.Placed w) {insts : List Inst}
    (hscope : scope.Placed w ctx.declarations.types insts) (total close : Nat) (types : List Ty)
    (htypes : ∀ ty ∈ types, ty.isVoid = false) (arguments : List Argument) :
    w.Emits insts (ctx.emitArguments scope total close types arguments)
      (ctx.HandledAll w insts types) := by
  cases arguments with
  | nil =>
    cases types with
    | nil =>
      unfold emitArguments
      exact .pure ⟨rfl, by simp, chains_nil⟩
    | cons ty types =>
      unfold emitArguments
      exact .refuse
  | cons argument rest =>
    obtain ⟨label, start, value⟩ := argument
    cases types with
    | nil =>
      unfold emitArguments
      exact .refuse
    | cons ty types =>
      rw [List.forall_mem_cons] at htypes
      unfold emitArguments
      refine .bind (scoped_emitExpression hctx hscope ty htypes.1 value) ?_
      intro first more hfirst
      refine .bind (scoped_emitArguments hctx (hscope.later more) total close types htypes.2
        rest) ?_
      intro others more' hothers
      refine .pure ⟨?_, ?_, ?_⟩
      · rw [List.map_cons, List.map_cons, hfirst.ty, hothers.types]
      · rw [List.append_nil, ← List.append_assoc]
        exact List.forall_mem_cons.mpr ⟨hfirst.live.later more', hothers.live⟩
      · rw [List.append_nil]
        exact hfirst.chain.append hothers.chain

end

end BodyContext

end Straightline
