import Straightline.Proofs.Declaring.Sound
import Straightline.Proofs.Emission.Site

/-!
# What is emitted is well typed

A body that the language accepts is turned into instructions that the module accepts. A value that is
emitted for a place of type `ty` has the representation `ty.irType`, an address that is stored to
points to what is stored, arguments are as many and of the types that the callee takes, and a body
ends in its only return. Nothing on the way is refused by the builder, so no defect is recorded.
-/

set_option autoImplicit false

namespace Straightline

open IR (Site Inst)

/-! ## Instructions that the module accepts -/

namespace IR

/-- None of the instructions returns, and the check of the module accepts each. -/
def Site.Accepts (w : Site) (more : List Inst) : Prop :=
  ∀ inst ∈ more, inst.op.isRet = false ∧ w.base.module.verifyInst w.function inst = .ok ()

namespace Site.Accepts

variable {w : Site} {more more' : List Inst}

theorem nil : w.Accepts [] := fun _ h => absurd h List.not_mem_nil

theorem append (h : w.Accepts more) (h' : w.Accepts more') : w.Accepts (more ++ more') := by
  intro inst hinst
  rcases List.mem_append.mp hinst with hinst | hinst
  · exact h inst hinst
  · exact h' inst hinst

theorem one {inst : Inst} (hop : inst.op.isRet = false)
    (h : w.base.module.verifyInst w.function inst = .ok ()) : w.Accepts [inst] := by
  intro inst' hinst
  rw [List.mem_singleton.mp hinst]
  exact ⟨hop, h⟩

theorem cons {inst : Inst} (hop : inst.op.isRet = false)
    (h : w.base.module.verifyInst w.function inst = .ok ()) (hmore : w.Accepts more) :
    w.Accepts (inst :: more) :=
  (one hop h).append hmore

end Site.Accepts

/-- The instructions of a whole body: the last returns, and no other does. -/
def Site.Completes (w : Site) (more : List Inst) : Prop :=
  ∃ init last, more = init ++ [last] ∧ w.Accepts init ∧ last.op.isRet = true ∧
    w.base.module.verifyInst w.function last = .ok ()

theorem Site.Completes.append {w : Site} {more more' : List Inst} (h : w.Accepts more)
    (h' : w.Completes more') : w.Completes (more ++ more') := by
  obtain ⟨init, last, rfl, hinit, hlast, hverify⟩ := h'
  exact ⟨more ++ init, last, by rw [List.append_assoc], h.append hinit, hlast, hverify⟩

theorem expectType_self (ty : IRType) (what : String) : expectType ty ty what = .ok () :=
  if_pos rfl

/-- Storing to an address of the type of what is stored. -/
theorem Site.Accepts.store {w : Site} {id : Nat} {value address : Value}
    (h : address.ty = .ptr value.ty) : w.Accepts [⟨id, .void, .store value address⟩] := by
  refine .one rfl ?_
  simp only [IR.Module.verifyInst]
  rw [h]
  exact expectType_self _ _

theorem expectTypes_ok {what : String} {values : List Value} :
    expectTypes what (values.map Value.ty) values = .ok () := by
  refine forM_ok_iff.mpr ?_
  intro pair hpair
  rw [List.zip_map_left] at hpair
  obtain ⟨⟨value, value'⟩, hmem, rfl⟩ := List.mem_map.mp hpair
  have hsame : value = value' := by
    rw [List.zip_eq_zipWith] at hmem
    have hself : ∀ (l : List Value) (a b : Value), (a, b) ∈ List.zipWith Prod.mk l l → a = b := by
      intro l
      induction l with
      | nil => intro a b h; cases h
      | cons x rest ih =>
        intro a b h
        rcases List.mem_cons.mp h with h | h
        · cases h; rfl
        · exact ih a b h
    exact hself values value value' hmem
  subst hsame
  exact expectType_self value.ty what

end IR

/-! ## Types of bindings -/

/-- The place of a binding of type `ty`. What is used directly is never a struct: the fields of a
struct need an address. -/
def Storage.Fits (ty : Ty) : Storage IR.Value → Prop
  | .slot address => address.ty = .ptr ty.irType
  | .direct value => value.ty = ty.irType ∧ (ty.isAggregate = true → ty.passing = .byAddress)

/-- Every binding that can be looked up is of a known type and in a fitting place. -/
def Scope.Fits (types : SymbolTable Ty) (scope : Scope IR.Value) : Prop :=
  ∀ name binding, scope.lookup name = some binding →
    binding.ty.StorableIn types ∧ binding.storage.Fits binding.ty

/-- The function of the site has the result of the context, whose tables agree with the module. -/
structure BodyContext.Fits (ctx : BodyContext) (w : Site) : Prop where
  opened : w.Open
  declarations : ctx.declarations.Sound w.base.module
  returns : w.function.ret = ctx.result.irType

theorem Declaring.fits_globalStorage {ty : Ty} {address : IR.Value}
    (h : address.ty = .ptr ty.layoutType) : (globalStorage ty address).Fits ty := by
  unfold globalStorage
  cases hpassing : ty.passing with
  | byValue => exact h.trans (by rw [Ty.irType_of_byValue hpassing])
  | byAddress => exact ⟨h.trans (Ty.irType_of_byAddress hpassing).symm, fun _ => hpassing⟩

namespace Scope

variable {types : SymbolTable Ty} {scope : Scope IR.Value}

theorem lookup_declare {V : Type} (scope : Scope V) (name name' : String) (ty : Ty)
    (storage : Storage V) :
    (scope.declare name ty storage).lookup name'
      = if name = name' then some ⟨name, ty, storage⟩ else scope.lookup name' := by
  unfold lookup declare
  rw [List.cons_append, List.find?_cons]
  by_cases h : name = name'
  · rw [if_pos h, beq_iff_eq.mpr h]
  · rw [if_neg h, beq_false_of_ne h]

theorem Fits.declare (h : scope.Fits types) {name : String} {ty : Ty}
    {storage : Storage IR.Value} (hty : ty.StorableIn types) (hstorage : storage.Fits ty) :
    (scope.declare name ty storage).Fits types := by
  intro name' binding hbinding
  rw [lookup_declare] at hbinding
  split at hbinding
  · cases hbinding
    exact ⟨hty, hstorage⟩
  · exact h name' binding hbinding

theorem Fits.root : (root : Scope IR.Value).Fits types := by
  intro name binding h
  cases h

theorem Fits.push (h : scope.Fits types) : scope.push.Fits types := h

end Scope

namespace BodyContext

variable {ctx : BodyContext} {w : Site} {scope : Scope IR.Value} {insts : List Inst}

section Lookup

variable {name : String} {ty : Ty} {storage : Storage IR.Value}

/-- A name that the scope binds is looked up there. -/
theorem lookup?_local {b : Binding IR.Value} (hb : scope.lookup name = some b)
    (h : ctx.lookup? scope name = some (ty, storage)) : b.ty = ty ∧ b.storage = storage := by
  unfold BodyContext.lookup? at h
  rw [hb] at h
  cases h
  exact ⟨rfl, rfl⟩

/-- Any other name is that of a global. -/
theorem lookup?_global (hfree : scope.lookup name = none)
    (h : ctx.lookup? scope name = some (ty, storage)) :
    ∃ record, ctx.declarations.globals.find? name = some record ∧ record.ty = ty ∧
      record.storage = storage := by
  unfold BodyContext.lookup? at h
  rw [hfree] at h
  dsimp only at h
  split at h
  · cases h
    exact ⟨_, ‹_›, rfl, rfl⟩
  · cases h

theorem Fits.lookup? (hctx : ctx.Fits w) (hscope : scope.Fits ctx.declarations.types)
    (h : ctx.lookup? scope name = some (ty, storage)) :
    ty.StorableIn ctx.declarations.types ∧ storage.Fits ty := by
  cases hb : scope.lookup name with
  | some binding =>
    obtain ⟨rfl, rfl⟩ := lookup?_local hb h
    exact hscope name binding hb
  | none =>
    obtain ⟨record, hfind, rfl, rfl⟩ := lookup?_global hb h
    obtain ⟨i, hi⟩ := List.getElem?_of_mem (SymbolTable.mem_of_find? hfind)
    obtain ⟨hstorable, hstored⟩ := hctx.declarations.globals i _ hi
    refine ⟨hstorable, ?_⟩
    rw [hstored]
    exact Declaring.fits_globalStorage rfl

theorem lookup_ok {found : Ty × Storage IR.Value} (h : ctx.lookup scope name = .ok found) :
    ctx.lookup? scope name = some found := by
  unfold lookup at h
  split at h
  · cases h
    assumption
  · cases h

/-- A name is looked up, and what it was found to be may be used. -/
theorem emits_lookup {α : Type} {stop : Nat} {k : Ty × Storage IR.Value → Emit α}
    {R : α → List Inst → Prop} (hk : ∀ ty storage, ctx.lookup? scope name = some (ty, storage) →
      w.Emits insts (k (ty, storage)) R) :
    w.Emits insts (Emit.check stop (ctx.lookup scope name) >>= k) R :=
  .checked fun found hfound => hk found.1 found.2 (lookup_ok hfound)

end Lookup

/-- A function without a result returns nothing. -/
theorem Fits.ret_of_isVoid (hctx : ctx.Fits w) (h : ctx.result.isVoid = true) :
    w.function.ret = .void := by
  rw [hctx.returns]
  generalize ctx.result = result at h ⊢
  cases result with
  | aggregate => cases h
  | primitive p => cases p <;> first | rfl | cases h

theorem requireSame_ok {expected found : Ty} (h : expected.requireSame found = .ok ()) :
    expected = found := by
  unfold Ty.requireSame at h
  split at h
  · assumption
  · cases h

theorem field?_of_fieldOf {ty : Ty} {member : String} {found : Nat × Ty}
    (h : ty.fieldOf member = .ok found) : ty.field? member = some found := by
  unfold Ty.fieldOf at h
  split at h
  · cases h
    assumption
  · cases h

/-- Only aggregates have fields, which are found at their places. -/
theorem fieldOf_ok {ty fieldTy : Ty} {member : String} {index : Nat}
    (h : ty.fieldOf member = .ok (index, fieldTy)) :
    ty.isAggregate = true ∧ ty.fieldTypes[index]? = some fieldTy := by
  have hfield := field?_of_fieldOf h
  unfold Ty.field? at hfield
  split at hfield
  · rename_i index' field hindex hfind
    cases hfield
    have hget : ty.fields[index]? = some field := by
      rw [List.find?_eq_bind_findIdx?_getElem?, hindex] at hfind
      exact hfind
    refine ⟨?_, by simp [Ty.fieldTypes, hget]⟩
    cases ty with
    | primitive p => simp [Ty.fields] at hget
    | aggregate => rfl
  · cases hfield

/-- A field has a place in the structure of its type. -/
theorem Fits.field (hctx : ctx.Fits w) {ty fieldTy : Ty} {member : String} {index : Nat}
    (hty : ty.KnownIn ctx.declarations.types) (h : ty.fieldOf member = .ok (index, fieldTy)) :
    ty.isAggregate = true ∧ ty.fieldTypes[index]? = some fieldTy ∧
      fieldTy.StorableIn ctx.declarations.types ∧
      w.base.module.fieldType? (.ptr ty.layoutType) index = some fieldTy.irType := by
  obtain ⟨haggregate, hget⟩ := fieldOf_ok h
  obtain ⟨field, hfield, rfl⟩ := List.mem_map.mp (List.mem_of_getElem? hget)
  refine ⟨haggregate, hget,
    hctx.declarations.types.storable_field hty field hfield, ?_⟩
  have hdef := hctx.declarations.laid.structDef?_of_known hty haggregate
  simp only [IR.Module.fieldType?, IRType.pointee?, Ty.layoutType_of_aggregate haggregate, hdef,
    Ty.structDef, List.getElem?_map, hget, Option.map_some]

/-! ## Terms -/

/-- The value is represented as one of type `ty`, and what was added for it is accepted. -/
abbrev Valued (w : Site) (ty : Ty) (value : IR.Value) (more : List Inst) : Prop :=
  value.ty = ty.irType ∧ w.Accepts more

theorem typed_valueOf (hopen : w.Open) {ty : Ty} {storage : Storage IR.Value}
    (h : storage.Fits ty) : w.Emits insts (valueOf storage) (Valued w ty) := by
  cases storage with
  | slot address => exact .build (Site.load hopen h) ⟨rfl, .one rfl rfl⟩
  | direct value => exact .pure ⟨h.1, .nil⟩

theorem typed_spill (hopen : w.Open) {ty : Ty} {name : Option String} {value : IR.Value}
    (h : value.ty = ty.irType) :
    w.Emits insts (spill ty name value) fun address more =>
      address.ty = .ptr ty.irType ∧ w.Accepts more := by
  refine .built (Site.emit hopen _ _) (.built (Site.store hopen _ _) (.pure ⟨rfl, ?_⟩))
  exact .cons rfl rfl (.store (congrArg IRType.ptr h.symm))

theorem typed_fieldsAddress (hopen : w.Open) {ty : Ty} {storage : Storage IR.Value}
    (haggregate : ty.isAggregate = true) (h : storage.Fits ty) :
    w.Emits insts (fieldsAddress ty storage) fun address more =>
      address.ty = .ptr ty.layoutType ∧ w.Accepts more := by
  unfold fieldsAddress
  cases hpassing : ty.passing with
  | byAddress =>
    have hir := Ty.irType_of_byAddress hpassing
    cases storage with
    | slot address =>
      exact .build (Site.load hopen (h.trans (by rw [hir]))) ⟨rfl, .one rfl rfl⟩
    | direct value => exact .pure ⟨h.1.trans hir, .nil⟩
  | byValue =>
    cases storage with
    | slot address =>
      exact .pure ⟨h.trans (by rw [Ty.irType_of_byValue hpassing]), .nil⟩
    | direct value =>
      have hmodel := h.2 haggregate
      rw [hpassing] at hmodel
      cases hmodel

/-- Fields of the types of an aggregate make a value of it. -/
theorem typed_construct (hctx : ctx.Fits w) {ty : Ty}
    (hty : ty.KnownIn ctx.declarations.types) (haggregate : ty.isAggregate = true)
    {fields : List IR.Value}
    (hfields : fields.map IR.Value.ty = ty.fieldTypes.map Ty.irType) :
    w.Emits insts (construct ty fields) (Valued w ty) := by
  have hopen := hctx.opened
  refine .bind (Q := fun value more => value.ty = ty.layoutType ∧ w.Accepts more) ?_
    fun value more hvalue => ?_
  · cases hconstants : fields.mapM IR.Value.constant? with
    | some constants =>
      exact .look (Site.struct_constants hconstants) ⟨rfl, .nil⟩
    | none =>
      refine .build (Site.struct_fields hopen hconstants) ⟨rfl, .one rfl ?_⟩
      have hdef := hctx.declarations.laid.structDef?_of_known hty haggregate
      have hcount : fields.length = ty.fieldTypes.length := by
        simpa using congrArg List.length hfields
      simp only [IR.Module.verifyInst, Ty.layoutType_of_aggregate haggregate, hdef, Ty.structDef,
        List.length_map, hcount, ne_eq, not_true_eq_false, if_false]
      rw [← hfields]
      exact IR.expectTypes_ok
  · cases hpassing : ty.passing with
    | byValue =>
      exact .pure ⟨hvalue.1.trans (Ty.irType_of_byValue hpassing).symm, by
        rw [List.append_nil]
        exact hvalue.2⟩
    | byAddress =>
      refine .built (Site.emit hopen _ _) (.built (Site.store hopen _ _) (.pure ⟨?_, ?_⟩))
      · exact (Ty.irType_of_byAddress hpassing).symm
      · exact hvalue.2.append (.cons rfl rfl (.store (congrArg IRType.ptr hvalue.1.symm)))

theorem typed_emitWord (hctx : ctx.Fits w) (hscope : scope.Fits ctx.declarations.types)
    (expected : Ty) (text : String) (stop : Nat) :
    w.Emits insts (ctx.emitWord scope expected text stop) (Valued w expected) := by
  unfold emitWord
  split
  · exact .pure ⟨rfl, .nil⟩
  · split
    · rename_i ty storage hlookup
      obtain ⟨_, hstorage⟩ := hctx.lookup? hscope hlookup
      refine .checked fun _ hsame => ?_
      obtain rfl := requireSame_ok hsame
      exact typed_valueOf hctx.opened hstorage
    · split <;> exact .refuse

theorem typed_emitField (hctx : ctx.Fits w) (hscope : scope.Fits ctx.declarations.types)
    (expected : Ty) (target member : String) (stop : Nat) :
    w.Emits insts (ctx.emitField scope expected target member stop) (Valued w expected) := by
  have hopen := hctx.opened
  refine emits_lookup fun ty storage hlookup => ?_
  obtain ⟨hty, hstorage⟩ := hctx.lookup? hscope hlookup
  refine .checked ?_
  rintro ⟨index, fieldTy⟩ hfield
  obtain ⟨haggregate, _, _, hplace⟩ := hctx.field hty.known hfield
  refine .checked fun _ hsame => ?_
  obtain rfl := requireSame_ok hsame
  refine .bind (typed_fieldsAddress hopen haggregate hstorage) ?_
  intro base more hbase
  refine .built (Site.fieldAddr hopen (by rw [hbase.1]; exact hplace)) ?_
  refine .build (Site.load hopen rfl) ⟨rfl, ?_⟩
  exact hbase.2.append (.cons rfl rfl (.one rfl rfl))

/-- Arguments of the types that a function takes are accepted for a call of it. -/
theorem typed_call (hopen : w.Open) {callee : IR.FunctionId} {types : List Ty} {result : Ty}
    {args : List IR.Value} (hdeclared : w.base.module.Declares callee types result)
    (hargs : args.map IR.Value.ty = types.map Ty.irType) :
    w.Emits insts (Emit.build (IR.Build.call callee args)) (Valued w result) := by
  obtain ⟨f, hf, hparams, hret⟩ := hdeclared
  refine .build (Site.call hopen hf) ⟨hret, .one rfl ?_⟩
  have hcount : f.params.length = args.length := by
    rw [hparams, ← hargs, List.length_map]
  simp only [IR.Module.verifyInst, hf, hcount, ne_eq, not_true_eq_false, if_false]
  rw [hparams, ← hargs]
  exact IR.expectTypes_ok

/-- What emitting arguments for parameters of these types comes to. -/
abbrev Listed (w : Site) (types : List Ty) (args : List IR.Value) (more : List Inst) : Prop :=
  args.map IR.Value.ty = types.map Ty.irType ∧ w.Accepts more

theorem typed_callFunction (hctx : ctx.Fits w) {callee : String} {stop : Nat}
    {expected : Option Ty} {arguments : List Ty → Emit (List IR.Value)}
    (harguments : ∀ types insts, w.Emits insts (arguments types) (Listed w types)) :
    w.Emits insts (ctx.callFunction callee stop expected arguments) fun value more =>
      (∀ ty, expected = some ty → value.ty = ty.irType) ∧ w.Accepts more := by
  unfold callFunction
  split
  · exact .refuse
  · rename_i record hfind
    have hrecord := hctx.declarations.functions _ (SymbolTable.mem_of_find? hfind)
    refine .checked fun _ hresult => ?_
    refine .bind (harguments _ _) ?_
    intro args more hargs
    refine (typed_call hctx.opened hrecord.declared hargs.1).imp ?_
    intro value more' hvalue
    refine ⟨?_, hargs.2.append hvalue.2⟩
    rintro ty rfl
    rw [requireSame_ok hresult]
    exact hvalue.1

theorem typed_callMethod (hctx : ctx.Fits w) (hscope : scope.Fits ctx.declarations.types)
    {target member : String} {stop : Nat} {expected : Option Ty}
    {arguments : List Ty → Emit (List IR.Value)}
    (harguments : ∀ types insts, w.Emits insts (arguments types) (Listed w types)) :
    w.Emits insts (ctx.callMethod scope target member stop expected arguments) fun value more =>
      (∀ ty, expected = some ty → value.ty = ty.irType) ∧ w.Accepts more := by
  refine emits_lookup fun ty storage hlookup => ?_
  obtain ⟨hty, hstorage⟩ := hctx.lookup? hscope hlookup
  refine .required fun haggregate => ?_
  split
  · exact .refuse
  · rename_i record hfind
    have hrecord := hctx.declarations.methods _ (SymbolTable.mem_of_find? hfind)
    have howner := hrecord.owner_eq hctx.declarations.types hty.known haggregate
    refine .checked fun _ hresult => ?_
    refine .bind (typed_valueOf hctx.opened hstorage) ?_
    intro receiver more hreceiver
    refine .bind (harguments _ _) ?_
    intro args more' hargs
    have hall : (receiver :: args).map IR.Value.ty
        = (record.owner :: record.signature.argumentTypes).map Ty.irType := by
      rw [List.map_cons, List.map_cons, hargs.1, hreceiver.1, howner]
    refine (typed_call hctx.opened hrecord.declared hall).imp ?_
    intro value more'' hvalue
    refine ⟨?_, hreceiver.2.append (hargs.2.append hvalue.2)⟩
    rintro ty rfl
    rw [requireSame_ok hresult]
    exact hvalue.1

/-- Both operators apply to two values of one integer type. -/
theorem typed_emitOperator (hopen : w.Open) {ty : Ty} (hinteger : ty.isInteger = true)
    {lhs rhs : IR.Value} (hlhs : lhs.ty = ty.irType) (hrhs : rhs.ty = ty.irType)
    (operator : Operator) :
    w.Emits insts (Emit.build (emitOperator operator lhs rhs)) (Valued w ty) := by
  have hint : lhs.ty.isInt = true := by
    rw [hlhs]
    cases ty with
    | aggregate => cases hinteger
    | primitive p => cases p <;> first | rfl | cases hinteger
  have hsame : rhs.ty = lhs.ty := hrhs.trans hlhs.symm
  cases operator <;>
  · refine .build (Site.emit hopen _ _) ⟨hlhs, .one rfl ?_⟩
    simp only [IR.Module.verifyInst, hint, if_true, hsame]
    exact IR.expectType_self _ _

mutual

theorem typed_emitTerm (hctx : ctx.Fits w) (hscope : scope.Fits ctx.declarations.types)
    (expected : Ty) (t : Term) (insts : List Inst) :
    w.Emits insts (ctx.emitTerm scope expected t) (Valued w expected) := by
  cases t with
  | word text stop => exact typed_emitWord hctx hscope expected text stop
  | field target member stop => exact typed_emitField hctx hscope expected target member stop
  | call callee stop arguments close =>
    unfold emitTerm
    split
    · rename_i ty hfind
      obtain ⟨haggregate, _, hknown⟩ := hctx.declarations.types.known_of_find? hfind
      refine .checked fun _ hsame => ?_
      obtain rfl := requireSame_ok hsame
      refine .bind (typed_emitArguments hctx hscope _ close _ arguments _) ?_
      intro fields more hfields
      refine (typed_construct hctx hknown haggregate hfields.1).imp ?_
      intro value more' hvalue
      exact ⟨hvalue.1, hfields.2.append hvalue.2⟩
    · refine (typed_callFunction hctx fun types insts =>
        typed_emitArguments hctx hscope _ close types arguments insts).imp ?_
      intro value more hvalue
      exact ⟨hvalue.1 expected rfl, hvalue.2⟩
  | methodCall target member stop arguments close =>
    unfold emitTerm
    refine (typed_callMethod hctx hscope fun types insts =>
      typed_emitArguments hctx hscope _ close types arguments insts).imp ?_
    intro value more hvalue
    exact ⟨hvalue.1 expected rfl, hvalue.2⟩

theorem typed_emitSteps (hctx : ctx.Fits w) (hscope : scope.Fits ctx.declarations.types)
    (expected : Ty) (value : IR.Value) (hvalue : value.ty = expected.irType)
    (steps : List Step) (insts : List Inst) :
    w.Emits insts (ctx.emitSteps scope expected value steps) (Valued w expected) := by
  cases steps with
  | nil =>
    unfold emitSteps
    exact .pure ⟨hvalue, .nil⟩
  | cons step rest =>
    obtain ⟨operator, stop, operand⟩ := step
    unfold emitSteps
    refine .required fun hinteger => ?_
    refine .bind (typed_emitTerm hctx hscope expected operand _) ?_
    intro right more hright
    refine .bind (typed_emitOperator hctx.opened hinteger hvalue hright.1 operator)
      ?_
    intro result more' hresult
    refine (typed_emitSteps hctx hscope expected result hresult.1 rest _).imp ?_
    intro last more'' hlast
    exact ⟨hlast.1, hright.2.append (hresult.2.append hlast.2)⟩

theorem typed_emitExpression (hctx : ctx.Fits w) (hscope : scope.Fits ctx.declarations.types)
    (expected : Ty) (e : Expression) (insts : List Inst) :
    w.Emits insts (ctx.emitExpression scope expected e) (Valued w expected) := by
  obtain ⟨first, steps, stop⟩ := e
  unfold emitExpression
  refine .bind (typed_emitTerm hctx hscope expected first _) ?_
  intro value more hvalue
  refine (typed_emitSteps hctx hscope expected value hvalue.1 steps _).imp ?_
  intro last more' hlast
  exact ⟨hlast.1, hvalue.2.append hlast.2⟩

theorem typed_emitArguments (hctx : ctx.Fits w) (hscope : scope.Fits ctx.declarations.types)
    (total close : Nat) (types : List Ty) (arguments : List Argument) (insts : List Inst) :
    w.Emits insts (ctx.emitArguments scope total close types arguments) (Listed w types) := by
  cases arguments with
  | nil =>
    cases types with
    | nil => unfold emitArguments; exact .pure ⟨rfl, .nil⟩
    | cons ty types => unfold emitArguments; exact .refuse
  | cons argument rest =>
    obtain ⟨label, start, value⟩ := argument
    cases types with
    | nil => unfold emitArguments; exact .refuse
    | cons ty types =>
      unfold emitArguments
      refine .bind (typed_emitExpression hctx hscope ty value _) ?_
      intro first more hfirst
      refine .bind (typed_emitArguments hctx hscope total close types rest _) ?_
      intro others more' hothers
      refine .pure ⟨?_, hfirst.2.append (hothers.2.append .nil)⟩
      rw [List.map_cons, List.map_cons, hfirst.1, hothers.1]

end

end BodyContext

end Straightline
