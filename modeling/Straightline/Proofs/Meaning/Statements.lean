import Straightline.Proofs.Emission.TypedBody
import Straightline.Proofs.Meaning.Expressions

/-!
# Bodies mean what they are evaluated to

A statement that goes on leaves the bindings of the evaluation tracked by the scope after it; one that
returns ends the execution with the value that the evaluation returns. So does the block as a whole, and
with the parameters bound to the arguments a function executes as its definition is evaluated.
-/

set_option autoImplicit false

namespace Straightline

open IR (Site Inst operand)
open Meaning (Activation Point Locals Calls Run Value Place known known_bind place? Simulates)

namespace Meaning

/-! ## Returning -/

/-- From `pt` on, the instructions return what `run` comes to. -/
def Activation.Returns (act : Activation) (pt : Point) (more : List Inst)
    (run : Run (Option Value)) : Prop :=
  ∀ s, Simulates
    (fun r s' progress m => progress = .returned (r.map Value.datum) ∧
      ∃ frame', m = act.memory frame' s')
    (run s) (IR.runInsts act.entry act.params pt.results more (act.memory pt.frame s))

namespace Activation

variable {act : Activation} {α : Type} {pt : Point} {insts more more' : List Inst} {run : Run α}
  {k : α → Run (Option Value)} {R : α → Point → Prop}

theorem Follows.returns (h : act.Follows pt insts more run R)
    (hk : ∀ a pt', pt.results.Le pt'.results → pt'.results.Unset (insts ++ more).length → R a pt' →
      act.Returns pt' more' (k a)) :
    act.Returns pt (more ++ more') (run >>= k) := by
  intro s
  rw [IR.runInsts_append]
  refine (h s).bind ?_
  intro a s' _ _ h
  rcases h with ⟨pt', rfl, rfl, hle, hunset, ha⟩
  exact hk a pt' hle hunset ha s'

theorem returns_none {n : Nat} {ty : IRType} : act.Returns pt [⟨n, ty, .ret none⟩] (pure none) :=
  fun _ => ⟨rfl, pt.frame, rfl⟩

theorem returns_some {n : Nat} {ty : IRType} {value : IR.Value} {v : Value}
    (h : operand act.params pt.results value = some v.datum) :
    act.Returns pt [⟨n, ty, .ret (some value)⟩] (pure (some v)) := by
  intro s
  simp only [IR.runInsts, IR.step, h, known_bind, pure_bind]
  exact ⟨rfl, pt.frame, rfl⟩

end Activation

end Meaning

namespace BodyContext

variable {ctx : BodyContext} {w : Site} {scope : Scope IR.Value} {insts : List Inst}

theorem means_emitReturn (hctx : ctx.Fits w) (hscope : scope.Fits ctx.declarations.types)
    (value : Option Expression) (start : Nat) :
    w.Emits insts (ctx.emitReturn scope value start) fun _ more =>
      ∀ (act : Activation) (locals : Locals) (pt : Point), act.At w.base.module scope locals insts pt →
        act.Returns pt more
          (Meaning.evalReturn ctx.declarations act.calls ctx.result locals value) := by
  have hopen := hctx.opened
  unfold emitReturn Meaning.evalReturn
  split
  · rename_i hvoid
    rw [hvoid]
    exact .build (Site.ret hopen none) fun _ _ _ _ => Activation.returns_none
  · rename_i hvoid
    rw [hvoid]
    exact .reported (.build (Site.ret hopen none) fun _ _ _ _ => Activation.returns_none)
  · exact .refuse
  · rename_i hvalued
    rw [hvalued]
    refine .bind (means_emitExpression hctx hscope ctx.result hvalued _ _)
      ?_
    intro result more hresult
    refine .build (Site.ret hopen (some result)) ?_
    intro act locals pt h
    exact (hresult act locals pt h).returns fun v pt' _ _ hv => Activation.returns_some hv.2

/-! ## Going on -/

/-- The instructions do what `run` does, and then the bindings of `scope'` are those that it leaves. -/
def Continues (m : IR.Module) (scope : Scope IR.Value) (insts : List Inst)
    (run : Calls → Locals → Run Locals) (scope' : Scope IR.Value) (more : List Inst) : Prop :=
  ∀ (act : Activation) (locals : Locals) (pt : Point), act.At m scope locals insts pt →
    act.Follows pt insts more (run act.calls locals) fun locals' pt' =>
      act.Tracks scope' locals' pt'

/-- The instructions put `value` into a slot of its own at the end of the frame. -/
def Spills (insts : List Inst) (value address : IR.Value) (more : List Inst) : Prop :=
  ∀ (act : Activation) (pt : Point) (v : Value), pt.results.Unset insts.length →
    operand act.params pt.results value = some v.datum →
    act.Follows pt insts more (pure ()) fun _ pt' =>
      pt'.frame = pt.frame ++ [some v.datum] ∧
        operand act.params pt'.results address = some (.ptr (act.slot pt.frame.length))

theorem means_spill (hopen : w.Open) (ty : Ty) (name : Option String) (value : IR.Value) :
    w.Emits insts (spill ty name value) (Spills insts value) := by
  refine .built (Site.emit hopen _ _) ?_
  refine .built (Site.store hopen _ _) ?_
  refine .pure ?_
  intro act pt v hunset hv
  refine (Activation.follows_alloca hunset).silent ?_
  intro pt₁ hle hunset₁ hslot
  refine (Activation.follows_store some (pt.frame ++ [some v.datum]) hunset₁ hslot.2
    (IR.operand_le hle hv) (fun _ => rfl) fun s => ?_).imp fun _ pt₂ hle₂ hframe =>
      ⟨hframe, IR.operand_le hle₂ hslot.2⟩
  rw [hslot.1, Activation.store?_slot (by simp)]
  simp

section Assign

variable {m : IR.Module} {name : String} {value : Expression} {result : IR.Value}
  {more more' : List Inst} {b : Binding IR.Value} {ty : Ty} {slot : IR.Value}

/-- A binding in a slot is assigned to by storing to the slot. -/
theorem continues_slot (hb : scope.lookup name = some b) (hplace : b.storage = .slot slot)
    (hresult : Evaluates m scope insts (fun calls locals =>
      Meaning.evalExpression ctx.declarations calls locals b.ty value) result more) :
    Continues m scope insts (fun calls locals =>
      Meaning.evalAssign ctx.declarations calls locals name value) scope
      (more ++ [⟨(insts ++ more).length, .void, .store result slot⟩]) := by
  intro act locals pt h
  obtain ⟨l, hl, hheld, hholds⟩ := Activation.place?_bound ctx.declarations h.tracks hb
  rw [hplace] at hholds
  obtain ⟨k, hk, hfilled⟩ := hholds
  simp only [Meaning.evalAssign, hheld, known_bind]
  refine (hresult act locals pt h).bind ?_
  intro v pt₁ hle hunset hv
  have htracks := (h.later hle hunset hv.1).tracks
  have hk₁ := IR.operand_le hle hk
  rw [← List.append_nil [_]]
  refine (Activation.follows_store some (pt₁.frame.set k (some v.datum)) hunset hk₁
    hv.2 (fun _ => rfl) fun s => ?_).silent fun pt₂ hle₂ hunset₂ hframe => .pure hunset₂ ?_
  · refine Activation.store?_slot ?_
    rw [hv.1]
    exact (List.getElem?_eq_some_iff.mp hfilled).1
  · exact htracks.assign hle₂ hb hplace hk₁ hframe

/-- A parameter is assigned to by giving it a slot. -/
theorem continues_direct (hb : scope.lookup name = some b)
    (hresult : Evaluates m scope insts (fun calls locals =>
      Meaning.evalExpression ctx.declarations calls locals b.ty value) result more)
    (hspill : Spills (insts ++ more) result slot more') :
    Continues m scope insts (fun calls locals =>
      Meaning.evalAssign ctx.declarations calls locals name value)
      (scope.declare name b.ty (.slot slot)) (more ++ more') := by
  intro act locals pt h
  obtain ⟨l, hl, hheld, _⟩ := Activation.place?_bound ctx.declarations h.tracks hb
  simp only [Meaning.evalAssign, hheld, known_bind]
  refine (hresult act locals pt h).bind ?_
  intro v pt₁ hle hunset hv
  rw [← List.append_nil more']
  refine (hspill act pt₁ v hunset hv.2).silent ?_
  intro pt₂ hle₂ hunset₂ hslot
  refine .pure hunset₂ ?_
  refine (h.later hle hunset hv.1).tracks.declare_new hle₂ hslot.1 hslot.2 ?_
  intro name'
  obtain ⟨l', hl', hty, _⟩ := h.tracks.bound name b hb
  rw [Locals.lookup_assign, hl', Option.map_some, Locals.name_of_lookup hl', hty]

/-- A global of a type that is copied is assigned to by storing to its address. -/
theorem continues_global (hctx : ctx.Fits w) (hb : scope.lookup name = none)
    (hlookup : ctx.lookup? scope name = some (ty, .slot slot))
    (hresult : Evaluates m scope insts (fun calls locals =>
      Meaning.evalExpression ctx.declarations calls locals ty value) result more) :
    Continues m scope insts (fun calls locals =>
      Meaning.evalAssign ctx.declarations calls locals name value) scope
      (more ++ [⟨(insts ++ more).length, .void, .store result slot⟩]) := by
  intro act locals pt h
  obtain ⟨i, hglobal, hstored⟩ := Activation.place?_global hctx h.tracks hb hlookup
  unfold Declaring.globalStorage at hstored
  cases hpassing : ty.passing with
  | byAddress =>
    rw [hpassing] at hstored
    cases hstored
  | byValue =>
    rw [hpassing] at hstored
    cases hstored
    simp only [Meaning.evalAssign, hglobal, hpassing, known_bind]
    refine (hresult act locals pt h).bind ?_
    intro v pt₁ hle hunset hv
    rw [← List.append_nil [_]]
    refine (Activation.follows_store (a := ⟨(Meaning.Ref.global i).base, []⟩)
      (fun s => (s.read? (.global i)).map fun _ => s.set v (.global i)) pt₁.frame hunset rfl hv.2
      (fun s => Meaning.write_eq) fun s => ?_).bind fun _ pt₂ hle₂ hunset₂ hframe =>
        .pure hunset₂ ?_
    · rw [Option.map_map]
      exact Meaning.Store.store?_memory
    · exact ((h.later hle hunset hv.1).later hle₂ hunset₂ hframe).tracks

end Assign

theorem means_emitAssign (hctx : ctx.Fits w) (hscope : scope.Fits ctx.declarations.types)
    (name : String) (stop : Nat) (value : Expression) :
    w.Emits insts (ctx.emitAssign scope name stop value)
      (Continues w.base.module scope insts fun calls locals =>
        Meaning.evalAssign ctx.declarations calls locals name value) := by
  have hopen := hctx.opened
  refine emits_lookup fun ty storage hlookup => ?_
  obtain ⟨hty, hstorage⟩ := hctx.lookup? hscope hlookup
  refine .bind (means_emitExpression hctx hscope ty hty.valued value _) ?_
  intro result more hresult
  cases hb : scope.lookup name with
  | some b =>
    obtain ⟨rfl, rfl⟩ := lookup?_local hb hlookup
    cases hplace : b.storage with
    | slot slot =>
      refine .built (Site.store hopen _ _) ?_
      exact .pure (continues_slot hb hplace hresult)
    | direct address =>
      refine .bind (means_spill hopen _ _ _) fun slot more' hspill => .pure ?_
      rw [List.append_nil]
      exact continues_direct hb hresult hspill
  | none =>
    cases storage with
    | direct address => exact .refuse
    | slot slot =>
      refine .built (Site.store hopen _ _) ?_
      exact .pure (continues_global hctx hb hlookup hresult)

/-! ## Fields -/

section AssignField

variable {m : IR.Module} {target member : String} {value : Expression} {ty fieldTy : Ty}
  {storage : Storage IR.Value} {index : Nat} {base result : IR.Value} {more more' : List Inst}

/-- The two instructions that store `result` to field `index` of the structure at `base`. -/
def storeField (insts : List Inst) (ty : IRType) (base result : IR.Value) (index : Nat) :
    List Inst :=
  let field : Inst := ⟨insts.length, .ptr ty, .fieldAddr base index⟩
  [field] ++ [⟨(insts ++ [field]).length, .void, .store result (Site.next insts (.ptr ty))⟩]

/-- A field of a model is assigned to where the contents of the model are. -/
theorem continues_modelField (hctx : ctx.Fits w)
    (hlookup : ctx.lookup? scope target = some (ty, storage))
    (hfield : ty.field? member = some (index, fieldTy)) (hpassing : ty.passing = .byAddress)
    (hbase : ∀ (act : Activation) (pt : Point) (place : Place), pt.results.Unset insts.length →
      act.Stands pt ty storage place →
      act.Follows pt insts more (place.value ty) fun v pt' => act.Gives pt base v.datum pt')
    (hresult : Evaluates m scope (insts ++ more) (fun calls locals =>
      Meaning.evalExpression ctx.declarations calls locals fieldTy value) result more') :
    Continues m scope insts (fun calls locals =>
      Meaning.evalAssignField ctx.declarations calls locals target member value) scope
      (more ++ (more' ++ storeField (insts ++ more ++ more') fieldTy.irType base result index)) := by
  intro act locals pt h
  obtain ⟨place, hplace, hstands⟩ := Activation.place?_of_lookup? hctx h.tracks hlookup
  simp only [Meaning.evalAssignField, hplace, hfield, hpassing, known_bind]
  refine (hbase act pt place h.unset hstands).bind ?_
  intro model pt₁ hle hunset hmodel
  have h₁ := h.later hle hunset hmodel.1
  refine (hresult act locals pt₁ h₁).bind ?_
  intro v pt₂ hle₂ hunset₂ hv
  have h₂ := h₁.later hle₂ hunset₂ hv.1
  refine (Activation.follows_target hunset₂ (IR.operand_le hle₂ hmodel.2)).bind
    ?_
  intro ref pt₃ hle₃ hunset₃ href
  rw [← List.append_nil [_]]
  refine (Activation.follows_store (fun s =>
    ((s.read? ref).bind fun whole => whole.setField? index v).map fun whole => s.set whole ref)
    pt₃.frame hunset₃ href.2 (IR.operand_le hle₃ hv.2)
    (fun s => Meaning.writeField_eq) fun s => ?_).bind fun _ pt₄ hle₄ hunset₄ hframe =>
      .pure hunset₄ ?_
  · rw [Option.map_map]
    exact Meaning.Store.store?_field
  · exact ((h₂.later hle₃ hunset₃ href.1).later hle₄ hunset₄ hframe).tracks

/-- A field of a struct that a name of the scope holds is assigned to in the frame. -/
theorem continues_heldField {b : Binding IR.Value} (hb : scope.lookup target = some b)
    (hstorage : b.storage = .slot base) (hfield : b.ty.field? member = some (index, fieldTy))
    (hpassing : b.ty.passing = .byValue)
    (hresult : Evaluates m scope insts (fun calls locals =>
      Meaning.evalExpression ctx.declarations calls locals fieldTy value) result more) :
    Continues m scope insts (fun calls locals =>
      Meaning.evalAssignField ctx.declarations calls locals target member value) scope
      (more ++ storeField (insts ++ more) fieldTy.irType base result index) := by
  intro act locals pt h
  obtain ⟨l, hl, hheld, hholds⟩ := Activation.place?_bound ctx.declarations h.tracks hb
  rw [hstorage] at hholds
  obtain ⟨k, hk, hfilled⟩ := hholds
  simp only [Meaning.evalAssignField, hheld, hfield, hpassing, known_bind]
  refine (hresult act locals pt h).bind ?_
  intro v pt₁ hle hunset hv
  have hk₁ := IR.operand_le hle hk
  refine (Activation.follows_fieldAddr (act.slot k).base hunset hk₁).silent ?_
  intro pt₂ hle₂ hunset₂ haddress
  have h₂ := (h.later hle hunset hv.1).later hle₂ hunset₂ haddress.1
  have hfilled₂ : pt₂.frame[k]? = some (some l.value.datum) := by
    rw [haddress.1, hv.1]
    exact hfilled
  rw [← List.append_nil [_]]
  cases hset : l.value.setField? index v with
  | none =>
    -- There is no such field in the value, and the store into the slot is stuck as well.
    change act.Follows pt₂ _ _ ((Meaning.stuck : Run Unit) >>= fun _ => pure locals) _
    refine (Activation.follows_store (fun _ => none) pt₂.frame hunset₂ haddress.2
      (IR.operand_le hle₂ hv.2) (fun _ => rfl) fun s => ?_).bind
      fun _ pt₃ hle₃ hunset₃ hframe => .pure hunset₃ ?_
    · rw [Activation.store?_slotField hfilled₂, hset]
      rfl
    · exact (h₂.later hle₃ hunset₃ hframe).tracks
  | some whole =>
    rw [known_bind]
    refine (Activation.follows_store some (pt₂.frame.set k (some whole.datum)) hunset₂ haddress.2
      (IR.operand_le hle₂ hv.2) (fun _ => rfl) fun s => ?_).silent
      fun pt₃ hle₃ hunset₃ hframe => .pure hunset₃ ?_
    · rw [Activation.store?_slotField hfilled₂, hset]
      rfl
    · exact h₂.tracks.assign hle₃ hb hstorage (IR.operand_le hle₂ hk₁) hframe

/-- A field of a struct that a global is for is assigned to there. -/
theorem continues_globalField (hctx : ctx.Fits w) (hfree : scope.lookup target = none)
    (hlookup : ctx.lookup? scope target = some (ty, .slot base))
    (hfield : ty.field? member = some (index, fieldTy)) (hpassing : ty.passing = .byValue)
    (hresult : Evaluates m scope insts (fun calls locals =>
      Meaning.evalExpression ctx.declarations calls locals fieldTy value) result more) :
    Continues m scope insts (fun calls locals =>
      Meaning.evalAssignField ctx.declarations calls locals target member value) scope
      (more ++ storeField (insts ++ more) fieldTy.irType base result index) := by
  intro act locals pt h
  obtain ⟨i, hglobal, hstored⟩ := Activation.place?_global hctx h.tracks hfree hlookup
  unfold Declaring.globalStorage at hstored
  rw [hpassing] at hstored
  cases hstored
  simp only [Meaning.evalAssignField, hglobal, hfield, hpassing, known_bind]
  refine (hresult act locals pt h).bind ?_
  intro v pt₁ hle hunset hv
  have h₁ := h.later hle hunset hv.1
  refine (Activation.follows_fieldAddr (Meaning.Ref.global i).base hunset rfl).silent ?_
  intro pt₂ hle₂ hunset₂ haddress
  rw [← List.append_nil [_]]
  refine (Activation.follows_store (fun s =>
    ((s.read? (.global i)).bind fun whole => whole.setField? index v).map fun whole =>
      s.set whole (.global i)) pt₂.frame hunset₂ haddress.2 (IR.operand_le hle₂ hv.2)
    (fun s => Meaning.writeField_eq) fun s => ?_).bind fun _ pt₃ hle₃ hunset₃ hframe =>
      .pure hunset₃ ?_
  · rw [Option.map_map]
    exact Meaning.Store.store?_field
  · exact ((h₁.later hle₂ hunset₂ haddress.1).later hle₃ hunset₃ hframe).tracks

/-- A field of a struct is assigned to where the struct lives, in the frame or in a global. -/
theorem continues_structField (hctx : ctx.Fits w)
    (hlookup : ctx.lookup? scope target = some (ty, .slot base))
    (hfield : ty.field? member = some (index, fieldTy)) (hpassing : ty.passing = .byValue)
    (hresult : Evaluates m scope insts (fun calls locals =>
      Meaning.evalExpression ctx.declarations calls locals fieldTy value) result more) :
    Continues m scope insts (fun calls locals =>
      Meaning.evalAssignField ctx.declarations calls locals target member value) scope
      (more ++ storeField (insts ++ more) fieldTy.irType base result index) := by
  cases hb : scope.lookup target with
  | some b =>
    obtain ⟨rfl, hstorage⟩ := lookup?_local hb hlookup
    exact continues_heldField hb hstorage hfield hpassing hresult
  | none => exact continues_globalField hctx hb hlookup hfield hpassing hresult

end AssignField

theorem means_emitAssignField (hctx : ctx.Fits w) (hscope : scope.Fits ctx.declarations.types)
    (target member : String) (stop : Nat) (value : Expression) :
    w.Emits insts (ctx.emitStatement scope (.assignField target member stop value))
      fun after more => after = some scope ∧
        Continues w.base.module scope insts (fun calls locals =>
          Meaning.evalAssignField ctx.declarations calls locals target member value) scope more := by
  have hopen := hctx.opened
  refine emits_lookup fun ty storage hlookup => ?_
  obtain ⟨hty, hstorage⟩ := hctx.lookup? hscope hlookup
  refine .checked ?_
  rintro ⟨index, fieldTy⟩ hfield
  obtain ⟨haggregate, _, hfieldTy, hplace⟩ := hctx.field hty.known hfield
  have hfield := field?_of_fieldOf hfield
  cases hpassing : ty.passing with
  | byAddress =>
    rw [fieldsAddress_of_byAddress hpassing]
    refine .bind ((means_valueOf hopen hstorage).and (typed_valueOf hopen hstorage) hopen)
      ?_
    intro base more hbase
    have hbaseTy : base.ty = .ptr ty.layoutType :=
      hbase.2.1.trans (Ty.irType_of_byAddress hpassing)
    refine .bind (means_emitExpression hctx hscope fieldTy hfieldTy.valued value _)
      ?_
    intro result more' hresult
    refine .built (Site.fieldAddr hopen (by rw [hbaseTy]; exact hplace)) ?_
    refine .built (Site.store hopen _ _) ?_
    exact .pure ⟨rfl, continues_modelField hctx hlookup hfield hpassing hbase.1 hresult⟩
  | byValue =>
    obtain ⟨base, rfl, hbaseTy, hfields⟩ := address_of_byValue hpassing haggregate hstorage
    simp only [hfields, pure_bind]
    refine .bind (means_emitExpression hctx hscope fieldTy hfieldTy.valued value _)
      ?_
    intro result more' hresult
    refine .built (Site.fieldAddr hopen (by rw [hbaseTy]; exact hplace)) ?_
    refine .built (Site.store hopen _ _) ?_
    exact .pure ⟨rfl, continues_structField hctx hlookup hfield hpassing hresult⟩

/-! ## Statements -/

theorem means_declare (hctx : ctx.Fits w) (hscope : scope.Fits ctx.declarations.types)
    (name typeName : String) (stop : Nat) (value : Expression) :
    w.Emits insts (ctx.emitStatement scope (.declare name typeName stop value))
      fun after more => ∃ ty slot, Ty.resolve ctx.declarations.types typeName = .ok ty ∧
        after = some (scope.declare name ty (.slot slot)) ∧
        Continues w.base.module scope insts (fun calls locals => do
          let v ← Meaning.evalExpression ctx.declarations calls locals ty value
          return ⟨name, ty, v⟩ :: locals) (scope.declare name ty (.slot slot)) more := by
  have hopen := hctx.opened
  refine .checked fun ty hresolve => ?_
  refine .checked fun _ hstorable => ?_
  have hvalued := Ty.valued_of_requireStorable hstorable
  refine .built (Site.emit hopen _ _) ?_
  refine .bind (means_emitExpression hctx hscope ty hvalued value _) ?_
  intro result more hresult
  refine .built (Site.store hopen _ _) ?_
  refine .pure ⟨ty, _, hresolve, rfl, fun act locals pt h => ?_⟩
  refine (Activation.follows_alloca h.unset).silent ?_
  intro pt₁ hle hunset hslot
  have h₁ : act.At w.base.module scope locals _ pt₁ :=
    ⟨h.agree, h.answer, hunset, h.tracks.later hle fun k d hk => by
      rw [hslot.1]
      exact (List.getElem?_append_left (List.getElem?_eq_some_iff.mp hk).1).trans hk⟩
  refine (hresult act locals pt₁ h₁).bind ?_
  intro v pt₂ hle₂ hunset₂ hv
  have hempty : pt₂.frame[pt.frame.length]? = some none := by
    rw [hv.1, hslot.1]
    exact List.getElem?_concat_length
  have haddress := IR.operand_le hle₂ hslot.2
  refine (Activation.follows_store some (pt₂.frame.set pt.frame.length (some v.datum)) hunset₂
    haddress hv.2 (fun _ => rfl) fun s =>
      Activation.store?_slot (List.getElem?_eq_some_iff.mp hempty).1).silent
    fun pt₃ hle₃ hunset₃ hframe => .pure hunset₃ ?_
  exact (h₁.later hle₂ hunset₂ hv.1).tracks.declare_slot hle₃ (IR.operand_le hle₃ haddress) hempty
    hframe fun name' => Locals.lookup_cons ..

/-- What the instructions of a statement do: they go on as its evaluation does, with the bindings of the
scope after it, or they return what it returns. -/
def Proceeds (ctx : BodyContext) (w : Site) (scope : Scope IR.Value) (insts : List Inst)
    (s : Statement) : Option (Scope IR.Value) → List Inst → Prop
  | some scope', more =>
    ∃ run, Continues w.base.module scope insts run scope' more ∧
      ∀ calls locals, Meaning.evalStatement ctx.declarations calls ctx.result locals s
        = do
          let locals ← run calls locals
          return .next locals
  | none, more =>
    ∃ run : Calls → Locals → Run (Option Value),
      (∀ (act : Activation) (locals : Locals) (pt : Point),
        act.At w.base.module scope locals insts pt → act.Returns pt more (run act.calls locals)) ∧
      ∀ calls locals, Meaning.evalStatement ctx.declarations calls ctx.result locals s
        = do
          let r ← run calls locals
          return .returned r

/-- A call whose result is dropped. -/
theorem continues_of_invokes {m : IR.Module} {run : Calls → Locals → Run (Option Value)}
    {value : IR.Value} {more : List Inst} (h : Invokes m scope insts none run value more) :
    Continues m scope insts (fun calls locals => do
      discard <| run calls locals
      return locals) scope more := by
  intro act locals pt hpt
  change act.Follows pt insts more (discard (run act.calls locals) >>= fun _ => pure locals) _
  rw [discard_eq, bind_assoc, ← List.append_nil more]
  refine (h act locals pt hpt).bind ?_
  intro r pt₁ hle hunset hr
  exact .pure hunset (hpt.later hle hunset hr.1).tracks

theorem means_emitStatement (hctx : ctx.Fits w) (hscope : scope.Fits ctx.declarations.types)
    (s : Statement) : w.Emits insts (ctx.emitStatement scope s) (Proceeds ctx w scope insts s) := by
  cases s with
  | ret value start =>
    refine .bind (means_emitReturn hctx hscope value start) fun _ more hmore => .pure ?_
    rw [List.append_nil]
    exact ⟨_, hmore, fun _ _ => rfl⟩
  | cond stop condition thenBlock elseBlock => exact .refuse
  | call callee stop arguments close =>
    refine .bind (Q := fun _ more => Continues w.base.module scope insts (fun calls locals => do
      discard <| Meaning.callFunction ctx.declarations calls callee fun types =>
        Meaning.evalArguments ctx.declarations calls locals types arguments
      return locals) scope more)
      (.discard ((means_callFunction hctx fun types htypes insts =>
        means_emitArguments hctx hscope _ close types htypes arguments insts).imp
          fun _ _ h => continues_of_invokes h)) fun _ more hmore => .pure ?_
    rw [List.append_nil]
    refine ⟨_, hmore, fun calls locals => ?_⟩
    simp only [Meaning.evalStatement, bind_assoc, pure_bind]
  | methodCall target member stop arguments close =>
    refine .bind (Q := fun _ more => Continues w.base.module scope insts (fun calls locals => do
      discard <| Meaning.callMethod ctx.declarations calls locals target member fun types =>
        Meaning.evalArguments ctx.declarations calls locals types arguments
      return locals) scope more)
      (.discard ((means_callMethod hctx hscope fun types htypes insts =>
        means_emitArguments hctx hscope _ close types htypes arguments insts).imp
          fun _ _ h => continues_of_invokes h)) fun _ more hmore => .pure ?_
    rw [List.append_nil]
    refine ⟨_, hmore, fun calls locals => ?_⟩
    simp only [Meaning.evalStatement, bind_assoc, pure_bind]
  | assignField target member stop value =>
    refine (means_emitAssignField hctx hscope target member stop value).imp ?_
    intro _ more h
    rcases h with ⟨rfl, hmore⟩
    exact ⟨_, hmore, fun _ _ => rfl⟩
  | declare name typeName stop value =>
    refine (means_declare hctx hscope name typeName stop value).imp ?_
    intro _ more h
    rcases h with ⟨ty, slot, hresolve, rfl, hmore⟩
    refine ⟨_, hmore, fun calls locals => ?_⟩
    simp only [Meaning.evalStatement, hresolve, bind_assoc, pure_bind]
  | assign name stop value =>
    refine .bind (means_emitAssign hctx hscope name stop value) fun scope' more hmore => .pure ?_
    rw [List.append_nil]
    exact ⟨_, hmore, fun _ _ => rfl⟩

/-- The statements of a block return what their evaluation returns. -/
theorem means_emitLines (hctx : ctx.Fits w) (hscope : scope.Fits ctx.declarations.types)
    (close : Nat) (lines : List Line) :
    w.Emits insts (ctx.emitLines close scope lines) fun _ more =>
      ∀ (act : Activation) (locals : Locals) (pt : Point), act.At w.base.module scope locals insts pt →
        act.Returns pt more
          (Meaning.evalLines ctx.declarations act.calls ctx.result locals lines) := by
  induction lines generalizing scope insts with
  | nil => exact .refuse
  | cons line rest ih =>
    obtain ⟨start, statement⟩ := line
    refine .bind ((means_emitStatement hctx hscope statement).and
      (typed_emitStatement hctx hscope statement) hctx.opened) ?_
    intro after more hmore
    cases after with
    | some scope' =>
      obtain ⟨⟨run, hmeans, hrun⟩, hfits, _⟩ := hmore
      refine (ih hfits).imp ?_
      intro _ more' hrest act locals pt h
      simp only [Meaning.evalLines, hrun, bind_assoc, pure_bind]
      refine (hmeans act locals pt h).returns ?_
      intro locals' pt₁ _ hunset htracks
      exact hrest act locals' pt₁ ⟨h.agree, h.answer, hunset, htracks⟩
    | none =>
      obtain ⟨⟨run, hmeans, hrun⟩, _⟩ := hmore
      refine (emits_reports (fun ⟨_, _⟩ => ⟨_, rfl⟩) rest).imp ?_
      rintro _ _ rfl act locals pt h
      simp only [Meaning.evalLines, hrun, bind_assoc, pure_bind, bind_pure, List.append_nil]
      exact hmeans act locals pt h

end BodyContext

end Straightline
