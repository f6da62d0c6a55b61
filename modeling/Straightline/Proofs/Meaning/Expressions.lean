import Straightline.Proofs.Meaning.Environment

/-!
# Expressions mean what they are evaluated to

Wherever a body is executed with its bindings tracked, the instructions of an expression evaluate it:
they do to the memory what the evaluation does to the store, leave the frame as it is, and the value that
was emitted stands for the one that was evaluated. There is one lemma for each function that emits, and
the functions that emit trees are taken together by recursion on the tree.
-/

set_option autoImplicit false

namespace Straightline

open IR (Site Inst operand)
open Meaning (Activation Point Locals Calls Run Value Place known known_bind place?)

/-- A body is executed, `insts` so far, and its bindings in `scope` are those in `locals`. -/
structure Meaning.Activation.At (act : Activation) (m : IR.Module) (scope : Scope IR.Value)
    (locals : Locals) (insts : List Inst) (pt : Point) : Prop where
  agree : act.calls.Agree act.entry
  answer : act.calls.Answer m
  unset : pt.results.Unset insts.length
  tracks : act.Tracks scope locals pt

theorem Meaning.Activation.At.later {act : Activation} {m : IR.Module} {scope : Scope IR.Value}
    {locals : Locals} {insts more : List Inst} {pt pt' : Point}
    (h : act.At m scope locals insts pt) (hle : pt.results.Le pt'.results)
    (hunset : pt'.results.Unset (insts ++ more).length) (hframe : pt'.frame = pt.frame) :
    act.At m scope locals (insts ++ more) pt' :=
  ⟨h.agree, h.answer, hunset, h.tracks.later hle fun _ _ hk => hframe ▸ hk⟩

namespace BodyContext

/-- The instructions `more` after `insts` do what `run` does and leave the frame as it is, and `Q` is
said of the value and of where they lead. -/
def Performs {α : Type} (m : IR.Module) (scope : Scope IR.Value) (insts more : List Inst)
    (run : Calls → Locals → Run α) (Q : Activation → α → Point → Prop) : Prop :=
  ∀ (act : Activation) (locals : Locals) (pt : Point), act.At m scope locals insts pt →
    act.Follows pt insts more (run act.calls locals) fun a pt' =>
      pt'.frame = pt.frame ∧ Q act a pt'

/-- The instructions evaluate `run`, and `value` stands for what it comes to. -/
abbrev Evaluates (m : IR.Module) (scope : Scope IR.Value) (insts : List Inst)
    (run : Calls → Locals → Run Value) (value : IR.Value) (more : List Inst) : Prop :=
  Performs m scope insts more run fun act v pt' =>
    operand act.params pt'.results value = some v.datum

/-- The same of several values. -/
abbrev Collects (m : IR.Module) (scope : Scope IR.Value) (insts : List Inst)
    (run : Calls → Locals → Run (List Value)) (values : List IR.Value) (more : List Inst) : Prop :=
  Performs m scope insts more run fun act vs pt' =>
    values.mapM (operand act.params pt'.results) = some (Value.data vs)

/-- The instructions call what `run` calls, and `value` stands for the result; there is one if anything
particular is expected. -/
abbrev Invokes (m : IR.Module) (scope : Scope IR.Value) (insts : List Inst) (expected : Option Ty)
    (run : Calls → Locals → Run (Option Value)) (value : IR.Value) (more : List Inst) : Prop :=
  Performs m scope insts more run fun act r pt' =>
    operand act.params pt'.results value = r.map Value.datum ∧
      ∀ ty, expected = some ty → ty.isVoid = false → r.isSome = true

variable {ctx : BodyContext} {w : Site} {scope : Scope IR.Value} {insts : List Inst}

/-- The value of a place is the one that lives there. -/
theorem means_valueOf (hopen : w.Open) {ty : Ty} {storage : Storage IR.Value}
    (hstorage : storage.Fits ty) :
    w.Emits insts (valueOf storage) fun value more =>
      ∀ (act : Activation) (pt : Point) (place : Place), pt.results.Unset insts.length →
        act.Stands pt ty storage place →
        act.Follows pt insts more (place.value ty) fun v pt' =>
          act.Gives pt value v.datum pt' := by
  cases storage with
  | slot address =>
    refine .build (Site.load hopen hstorage) ?_
    intro act pt place hunset hstands
    cases place with
    | held v =>
      obtain ⟨k, hk, hv⟩ := hstands
      exact Activation.follows_load (fun _ => some v) hunset hk (fun _ => rfl)
        fun s => Activation.load?_slot hv
    | global index =>
      unfold Activation.Stands Declaring.globalStorage at hstands
      cases hpassing : ty.passing with
      | byAddress =>
        rw [hpassing] at hstands
        cases hstands
      | byValue =>
        rw [hpassing] at hstands
        cases hstands
        unfold Place.value
        rw [hpassing]
        exact Activation.follows_load (a := ⟨(Meaning.Ref.global index).base, []⟩)
          (fun s => s.read? (.global index)) hunset rfl (fun _ => rfl)
          fun s => Meaning.Store.load?_memory
  | direct value =>
    refine .pure ?_
    intro act pt place hunset hstands
    cases place with
    | held v => exact .pure hunset ⟨rfl, hstands⟩
    | global index =>
      unfold Activation.Stands Declaring.globalStorage at hstands
      cases hpassing : ty.passing with
      | byValue =>
        rw [hpassing] at hstands
        cases hstands
      | byAddress =>
        rw [hpassing] at hstands
        cases hstands
        unfold Place.value
        rw [hpassing]
        exact .pure hunset ⟨rfl, rfl⟩

theorem means_emitWord (hctx : ctx.Fits w) (hscope : scope.Fits ctx.declarations.types)
    (expected : Ty) (text : String) (stop : Nat) :
    w.Emits insts (ctx.emitWord scope expected text stop)
      (Evaluates w.base.module scope insts fun _ locals =>
        Meaning.evalWord ctx.declarations locals expected text) := by
  unfold emitWord
  split
  · rename_i value hliteral
    refine .pure ?_
    intro act locals pt h
    simp only [Meaning.evalWord, hliteral]
    exact .pure h.unset ⟨rfl, rfl⟩
  · rename_i hliteral
    split
    · rename_i ty storage hlookup
      obtain ⟨_, hstorage⟩ := hctx.lookup? hscope hlookup
      refine .checked fun _ hsame => ?_
      obtain rfl := requireSame_ok hsame
      refine (means_valueOf hctx.opened hstorage).imp ?_
      intro value more hvalue act locals pt h
      obtain ⟨place, hplace, hstands⟩ := Activation.place?_of_lookup? hctx h.tracks hlookup
      simp only [Meaning.evalWord, hliteral, hplace, known_bind]
      exact hvalue act pt place h.unset hstands
    · split <;> exact .refuse

theorem fieldsAddress_of_byAddress {ty : Ty} {storage : Storage IR.Value}
    (h : ty.passing = .byAddress) : fieldsAddress ty storage = valueOf storage := by
  unfold fieldsAddress valueOf
  rw [h]
  cases storage <;> rfl

/-- The fields of a struct are where it lives, which has an address. -/
theorem address_of_byValue {ty : Ty} {storage : Storage IR.Value} (hbyValue : ty.passing = .byValue)
    (haggregate : ty.isAggregate = true) (hstorage : storage.Fits ty) :
    ∃ address, storage = .slot address ∧ address.ty = .ptr ty.layoutType ∧
      fieldsAddress ty storage = pure address := by
  cases storage with
  | slot address =>
    refine ⟨address, rfl, hstorage.trans (by rw [Ty.irType_of_byValue hbyValue]), ?_⟩
    unfold fieldsAddress
    rw [hbyValue]
  | direct value =>
    have hmodel := hstorage.2 haggregate
    rw [hbyValue] at hmodel
    cases hmodel

/-- The address of a struct that a name stands for is that of its slot or its global. -/
theorem means_address {act : Activation} {pt : Point} {ty : Ty} {address : IR.Value}
    {place : Place} (hbyValue : ty.passing = .byValue)
    (hstands : act.Stands pt ty (.slot address) place) :
    match place with
    | .held v => ∃ k, operand act.params pt.results address = some (.ptr (act.slot k)) ∧
        pt.frame[k]? = some (some v.datum)
    | .global index => operand act.params pt.results address
        = some (.ptr ⟨(Meaning.Ref.global index).base, []⟩) := by
  cases place with
  | held v => exact hstands
  | global index =>
    unfold Activation.Stands Declaring.globalStorage at hstands
    rw [hbyValue] at hstands
    cases hstands
    rfl

theorem means_emitField (hctx : ctx.Fits w) (hscope : scope.Fits ctx.declarations.types)
    (expected : Ty) (target member : String) (stop : Nat) :
    w.Emits insts (ctx.emitField scope expected target member stop)
      (Evaluates w.base.module scope insts fun _ locals =>
        Meaning.evalField ctx.declarations locals target member) := by
  have hopen := hctx.opened
  refine emits_lookup fun ty storage hlookup => ?_
  obtain ⟨hty, hstorage⟩ := hctx.lookup? hscope hlookup
  refine .checked ?_
  rintro ⟨index, fieldTy⟩ hfield
  obtain ⟨haggregate, _, _, hplace⟩ := hctx.field hty.known hfield
  refine .checked fun _ hsame => ?_
  obtain rfl := requireSame_ok hsame
  have hrun : ∀ locals place, place? ctx.declarations locals target = some (ty, place) →
      Meaning.evalField ctx.declarations locals target member
        = place.fields ty >>= fun v => known (v.field? index) := by
    intro locals place hplace
    simp only [Meaning.evalField, hplace, field?_of_fieldOf hfield, known_bind]
  cases hpassing : ty.passing with
  | byAddress =>
    -- The name stands for a model, so its value is the pointer to the fields.
    rw [fieldsAddress_of_byAddress hpassing]
    refine .bind ((means_valueOf hopen hstorage).and (typed_valueOf hopen hstorage) hopen)
      ?_
    intro base more hbase
    obtain ⟨hmeans, hbase, _⟩ := hbase
    have hbase : base.ty = .ptr ty.layoutType := hbase.trans (Ty.irType_of_byAddress hpassing)
    refine .built (Site.fieldAddr hopen (by rw [hbase]; exact hplace)) ?_
    refine .build (Site.load hopen rfl) ?_
    intro act locals pt h
    obtain ⟨place, hplace, hstands⟩ := Activation.place?_of_lookup? hctx h.tracks hlookup
    beta_reduce
    rw [hrun locals place hplace]
    unfold Place.fields
    simp only [hpassing, bind_assoc]
    refine (hmeans act pt place h.unset hstands).bind ?_
    intro v pt₁ _ hunset hv
    refine (Activation.follows_target hunset hv.2).bind ?_
    intro ref pt₂ _ hunset₂ href
    refine (Activation.follows_load (fun s => (s.read? ref).bind fun v => v.field? index)
      hunset₂ href.2 (fun s => Meaning.read_field) fun s => Meaning.Store.load?_field).imp
      fun v' pt₃ _ hv' => ⟨?_, hv'.2⟩
    exact hv'.1.trans (href.1.trans hv.1)
  | byValue =>
    -- The name stands for a struct, which lies in a slot or is a global; its storage is the address.
    obtain ⟨address, rfl, haddress, hfields⟩ := address_of_byValue hpassing haggregate hstorage
    rw [hfields, pure_bind]
    refine .built (Site.fieldAddr hopen (by rw [haddress]; exact hplace)) ?_
    refine .build (Site.load hopen rfl) ?_
    intro act locals pt h
    obtain ⟨place, hplace, hstands⟩ := Activation.place?_of_lookup? hctx h.tracks hlookup
    beta_reduce
    rw [hrun locals place hplace]
    have hwhere := means_address hpassing hstands
    unfold Place.fields Place.value
    cases place with
    | held v =>
      obtain ⟨k, hk, hv⟩ := hwhere
      simp only [hpassing, pure_bind]
      refine (Activation.follows_fieldAddr (act.slot k).base h.unset hk).silent ?_
      intro pt₁ _ hunset haddr
      refine (Activation.follows_load (fun _ => v.field? index) hunset haddr.2
        (fun s => rfl) fun s => ?_).imp fun v' pt₂ _ hv' => ⟨hv'.1.trans haddr.1, hv'.2⟩
      rw [haddr.1]
      exact Activation.load?_slotField hv
    | global i =>
      simp only [hpassing, bind_assoc, pure_bind]
      refine (Activation.follows_fieldAddr (Meaning.Ref.global i).base h.unset hwhere).silent ?_
      intro pt₁ _ hunset haddr
      exact (Activation.follows_load (fun s => (s.read? (.global i)).bind fun v =>
        v.field? index) hunset haddr.2 (fun s => Meaning.read_field) fun s =>
          Meaning.Store.load?_field).imp fun v' pt₂ _ hv' => ⟨hv'.1.trans haddr.1, hv'.2⟩

/-- Constant fields stand for what they are. -/
theorem operands_of_constants {params : List IR.Datum} {results : IR.Results}
    {fields : List IR.Value} {constants : List IR.Constant}
    (h : fields.mapM IR.Value.constant? = some constants) :
    fields.mapM (operand params results) = some (IR.Constant.data constants) := by
  induction fields generalizing constants with
  | nil =>
    cases h
    rfl
  | cons field rest ih =>
    rw [List.mapM_cons] at h ⊢
    obtain ⟨c, hc, h⟩ := Option.bind_eq_some_iff.mp h
    obtain ⟨cs, hcs, h⟩ := Option.bind_eq_some_iff.mp h
    cases h
    have hfield : operand params results field = some c.datum := by
      unfold IR.Value.constant? at hc
      unfold operand
      cases hsource : field.source <;> rw [hsource] at hc <;> cases hc
      rfl
    rw [hfield, ih hcs]
    rfl

/-- A value of an aggregate is made of the values of its fields. -/
theorem means_construct (hopen : w.Open) (ty : Ty) (fields : List IR.Value) :
    w.Emits insts (construct ty fields) fun value more =>
      ∀ (act : Activation) (pt : Point) (vs : List Value), pt.results.Unset insts.length →
        fields.mapM (operand act.params pt.results) = some (Value.data vs) →
        act.Follows pt insts more (Meaning.construct ty vs) fun v pt' =>
          act.Gives pt value v.datum pt' := by
  refine .bind (Q := fun value more =>
    ∀ (act : Activation) (pt : Point) (vs : List Value), pt.results.Unset insts.length →
      fields.mapM (operand act.params pt.results) = some (Value.data vs) →
      act.Follows pt insts more (pure ()) fun _ pt' =>
        act.Gives pt value (Value.datum (.struct vs)) pt') ?_ fun value more hvalue => ?_
  · cases hconstants : fields.mapM IR.Value.constant? with
    | some constants =>
      refine .look (Site.struct_constants hconstants) ?_
      intro act pt vs hunset hfields
      rw [operands_of_constants hconstants] at hfields
      refine .pure hunset ⟨rfl, ?_⟩
      exact congrArg (fun data => some (IR.Datum.struct data)) (Option.some.inj hfields)
    | none =>
      exact .build (Site.struct_fields hopen hconstants) fun act pt vs hunset hfields =>
        Activation.follows_aggregate hunset hfields
  · unfold Meaning.construct
    cases hpassing : ty.passing with
    | byValue =>
      refine .pure ?_
      intro act pt vs hunset hfields
      refine (hvalue act pt vs hunset hfields).silent ?_
      intro pt₁ _ hunset₁ hv
      exact .pure hunset₁ hv
    | byAddress =>
      refine .built (Site.emit hopen _ _) ?_
      refine .built (Site.store hopen _ _) ?_
      refine .pure ?_
      intro act pt vs hunset hfields
      have hid : ∀ inst, (insts ++ more ++ [inst]).length = (insts ++ more).length + 1 :=
        fun _ => List.length_append
      rw [hid]
      refine (hvalue act pt vs hunset hfields).silent ?_
      intro pt₁ _ hunset₁ hv
      refine (Activation.follows_make hunset₁ hv.2).imp ?_
      intro model pt₂ _ hmodel
      exact ⟨hmodel.1.trans hv.1, hmodel.2⟩

/-! ## Calls -/

theorem isVoid_irType (ty : Ty) : ty.irType.isVoid = ty.isVoid := by
  cases ty with
  | aggregate name kind fields => cases kind <;> rfl
  | primitive p => cases p <;> rfl

theorem means_call (hopen : w.Open) {callee : IR.FunctionId} {types : List Ty} {result : Ty}
    (hdeclared : w.base.module.Declares callee types result) (args : List IR.Value) :
    w.Emits insts (Emit.build (IR.Build.call callee args)) fun value more =>
      ∀ (act : Activation) (pt : Point) (vs : List Value), pt.results.Unset insts.length →
        act.calls.Agree act.entry → act.calls.Answer w.base.module →
        args.mapM (operand act.params pt.results) = some (Value.data vs) →
        act.Follows pt insts more (act.calls callee vs) fun r pt' =>
          pt'.frame = pt.frame ∧ operand act.params pt'.results value = r.map Value.datum ∧
            (result.isVoid = false → r.isSome = true) := by
  obtain ⟨f, hf, _, hret⟩ := hdeclared
  refine .build (Site.call hopen hf) ?_
  intro act pt vs hunset hagree hanswer hargs
  refine Activation.follows_call hunset hargs hagree ?_
  intro s r s' hr hvalued
  rw [← isVoid_irType, ← hret] at hvalued
  exact hanswer callee f hf hvalued vs s r s' hr

section Calling

variable {expected : Option Ty} {arguments : List Ty → Emit (List IR.Value)}
  {run : List Ty → Calls → Locals → Run (List Value)}

theorem means_callFunction (hctx : ctx.Fits w) {callee : String} {stop : Nat}
    (harguments : ∀ types, (∀ ty ∈ types, ty.isVoid = false) → ∀ insts,
      w.Emits insts (arguments types) (Collects w.base.module scope insts (run types))) :
    w.Emits insts (ctx.callFunction callee stop expected arguments)
      (Invokes w.base.module scope insts expected fun calls locals =>
        Meaning.callFunction ctx.declarations calls callee fun types => run types calls locals) := by
  unfold callFunction
  split
  · exact .refuse
  · rename_i record hfind
    have hrecord := hctx.declarations.functions _ (SymbolTable.mem_of_find? hfind)
    refine .checked fun _ hresult => ?_
    refine .bind (harguments _ hrecord.known.valued _) ?_
    intro args more hargs
    refine (means_call hctx.opened hrecord.declared args).imp ?_
    intro value more' hcall act locals pt h
    simp only [Meaning.callFunction, hfind, known_bind]
    refine (hargs act locals pt h).bind ?_
    intro vs pt₁ hle hunset hvs
    refine (hcall act pt₁ vs hunset h.agree h.answer hvs.2).imp ?_
    intro r pt₂ _ hr
    refine ⟨hr.1.trans hvs.1, hr.2.1, ?_⟩
    rintro ty rfl hvalued
    rw [requireSame_ok hresult] at hvalued
    exact hr.2.2 hvalued

theorem means_callMethod (hctx : ctx.Fits w) (hscope : scope.Fits ctx.declarations.types)
    {target member : String} {stop : Nat}
    (harguments : ∀ types, (∀ ty ∈ types, ty.isVoid = false) → ∀ insts,
      w.Emits insts (arguments types) (Collects w.base.module scope insts (run types))) :
    w.Emits insts (ctx.callMethod scope target member stop expected arguments)
      (Invokes w.base.module scope insts expected fun calls locals =>
        Meaning.callMethod ctx.declarations calls locals target member fun types =>
          run types calls locals) := by
  refine emits_lookup fun ty storage hlookup => ?_
  obtain ⟨hty, hstorage⟩ := hctx.lookup? hscope hlookup
  refine .required fun haggregate => ?_
  split
  · exact .refuse
  · rename_i record hfind
    have hrecord := hctx.declarations.methods _ (SymbolTable.mem_of_find? hfind)
    refine .checked fun _ hresult => ?_
    refine .bind (means_valueOf hctx.opened hstorage) ?_
    intro receiver more hreceiver
    refine .bind (harguments _ hrecord.known.valued _) ?_
    intro args more' hargs
    refine (means_call hctx.opened hrecord.declared _).imp ?_
    intro value more'' hcall act locals pt h
    obtain ⟨place, hplace, hstands⟩ := Activation.place?_of_lookup? hctx h.tracks hlookup
    simp only [Meaning.callMethod, hplace, hfind, known_bind]
    refine (hreceiver act pt place h.unset hstands).bind ?_
    intro v pt₁ hle hunset hv
    refine (hargs act locals pt₁ (h.later hle hunset hv.1)).bind ?_
    intro vs pt₂ hle₂ hunset₂ hvs
    have hall : (receiver :: args).mapM (operand act.params pt₂.results)
        = some (Value.data (v :: vs)) := by
      rw [List.mapM_cons, IR.operand_le hle₂ hv.2, hvs.2]
      rfl
    refine (hcall act pt₂ (v :: vs) hunset₂ h.agree h.answer hall).imp ?_
    intro r pt₃ _ hr
    refine ⟨hr.1.trans (hvs.1.trans hv.1), hr.2.1, ?_⟩
    rintro ty rfl hvalued
    rw [requireSame_ok hresult] at hvalued
    exact hr.2.2 hvalued

/-- The result of a call that something is expected of is a value. -/
theorem evaluates_of_invokes {m : IR.Module} {ty : Ty} {value : IR.Value} {more : List Inst}
    {run : Calls → Locals → Run (Option Value)} (hvalued : ty.isVoid = false)
    (h : Invokes m scope insts (some ty) run value more) :
    Evaluates m scope insts (fun calls locals => do
      let result ← run calls locals
      known result) value more := by
  intro act locals pt hpt
  rw [← List.append_nil more]
  refine (h act locals pt hpt).bind ?_
  intro r pt₁ _ hunset hr
  obtain ⟨v, rfl⟩ := Option.isSome_iff_exists.mp (hr.2.2 ty rfl hvalued)
  exact .pure hunset ⟨hr.1, hr.2.1⟩

end Calling

/-! ## Trees -/

theorem means_emitOperator (hopen : w.Open) {expected : Ty} (hinteger : expected.isInteger = true)
    {lhs : IR.Value} (hlhs : lhs.ty = expected.irType) (rhs : IR.Value) (operator : Operator) :
    w.Emits insts (Emit.build (emitOperator operator lhs rhs)) fun value more =>
      ∀ (act : Activation) (pt : Point) (a b : Value), pt.results.Unset insts.length →
        operand act.params pt.results lhs = some a.datum →
        operand act.params pt.results rhs = some b.datum →
        act.Follows pt insts more (Meaning.combine expected operator a b) fun v pt' =>
          act.Gives pt value v.datum pt' := by
  have hwidth : lhs.ty = .int (Meaning.width expected) := by
    rw [hlhs]
    cases expected with
    | aggregate => cases hinteger
    | primitive p => cases p <;> first | rfl | cases hinteger
  cases operator <;>
  · refine .build (Site.emit hopen _ _) ?_
    intro act pt a b hunset ha hb
    exact Activation.follows_operator hunset ha hb hwidth rfl

mutual

theorem means_emitTerm (hctx : ctx.Fits w) (hscope : scope.Fits ctx.declarations.types)
    (expected : Ty) (hvalued : expected.isVoid = false) (t : Term) (insts : List Inst) :
    w.Emits insts (ctx.emitTerm scope expected t)
      (Evaluates w.base.module scope insts fun calls locals =>
        Meaning.evalTerm ctx.declarations calls locals expected t) := by
  cases t with
  | word text stop =>
    simp only [Meaning.evalTerm]
    exact means_emitWord hctx hscope expected text stop
  | field target member stop =>
    simp only [Meaning.evalTerm]
    exact means_emitField hctx hscope expected target member stop
  | call callee stop arguments close =>
    unfold emitTerm
    split
    · rename_i ty hfind
      obtain ⟨haggregate, _, hknown⟩ := hctx.declarations.types.known_of_find? hfind
      refine .checked fun _ hsame => ?_
      obtain rfl := requireSame_ok hsame
      have hfields := hctx.declarations.types.valued_fieldTypes hknown
      refine .bind (means_emitArguments hctx hscope _ close _ hfields arguments _)
        ?_
      intro fields more hfields
      refine (means_construct hctx.opened expected fields).imp ?_
      intro value more' hvalue act locals pt h
      simp only [Meaning.evalTerm, hfind]
      refine (hfields act locals pt h).bind ?_
      intro vs pt₁ _ hunset hvs
      refine (hvalue act pt₁ vs hunset hvs.2).imp ?_
      intro v pt₂ _ hv
      exact ⟨hv.1.trans hvs.1, hv.2⟩
    · rename_i hfind
      simp only [Meaning.evalTerm, hfind]
      exact (means_callFunction hctx fun types htypes insts =>
        means_emitArguments hctx hscope _ close types htypes arguments insts).imp
          fun value more h => evaluates_of_invokes hvalued h
  | methodCall target member stop arguments close =>
    unfold emitTerm
    simp only [Meaning.evalTerm]
    exact (means_callMethod hctx hscope fun types htypes insts =>
      means_emitArguments hctx hscope _ close types htypes arguments insts).imp
        fun value more h => evaluates_of_invokes hvalued h

theorem means_emitSteps (hctx : ctx.Fits w) (hscope : scope.Fits ctx.declarations.types)
    (expected : Ty) (hvalued : expected.isVoid = false) (value : IR.Value)
    (hvalue : value.ty = expected.irType) (steps : List Step) (insts : List Inst) :
    w.Emits insts (ctx.emitSteps scope expected value steps) fun last more =>
      ∀ (act : Activation) (locals : Locals) (pt : Point) (v : Value),
        act.At w.base.module scope locals insts pt →
        operand act.params pt.results value = some v.datum →
        act.Follows pt insts more
          (Meaning.evalSteps ctx.declarations act.calls locals expected v steps) fun v' pt' =>
            act.Gives pt last v'.datum pt' := by
  cases steps with
  | nil =>
    unfold emitSteps
    refine .pure ?_
    intro act locals pt v h hv
    simp only [Meaning.evalSteps]
    exact .pure h.unset ⟨rfl, hv⟩
  | cons step rest =>
    obtain ⟨operator, stop, operand⟩ := step
    unfold emitSteps
    refine .required fun hinteger => ?_
    refine .bind ((means_emitTerm hctx hscope expected hvalued operand _).and
      (typed_emitTerm hctx hscope expected operand _) hctx.opened) ?_
    intro right more hright
    refine .bind ((means_emitOperator hctx.opened hinteger hvalue right operator).and
      (typed_emitOperator hctx.opened hinteger hvalue hright.2.1 operator) hctx.opened)
      ?_
    intro result more' hresult
    refine (means_emitSteps hctx hscope expected hvalued result hresult.2.1 rest _).imp
      ?_
    intro last more'' hlast act locals pt v h hv
    simp only [Meaning.evalSteps]
    refine (hright.1 act locals pt h).bind ?_
    intro b pt₁ hle hunset hb
    refine (hresult.1 act pt₁ v b hunset (IR.operand_le hle hv) hb.2).bind
      ?_
    intro sum pt₂ hle₂ hunset₂ hsum
    have h₂ := (h.later hle hunset hb.1).later hle₂ hunset₂ hsum.1
    refine (hlast act locals pt₂ sum h₂ hsum.2).imp ?_
    intro v' pt₃ _ hv'
    exact ⟨hv'.1.trans (hsum.1.trans hb.1), hv'.2⟩

theorem means_emitExpression (hctx : ctx.Fits w) (hscope : scope.Fits ctx.declarations.types)
    (expected : Ty) (hvalued : expected.isVoid = false) (e : Expression) (insts : List Inst) :
    w.Emits insts (ctx.emitExpression scope expected e)
      (Evaluates w.base.module scope insts fun calls locals =>
        Meaning.evalExpression ctx.declarations calls locals expected e) := by
  obtain ⟨first, steps, stop⟩ := e
  unfold emitExpression
  refine .bind ((means_emitTerm hctx hscope expected hvalued first _).and
    (typed_emitTerm hctx hscope expected first _) hctx.opened) ?_
  intro value more hvalue
  refine (means_emitSteps hctx hscope expected hvalued value hvalue.2.1 steps _).imp
    ?_
  intro last more' hlast act locals pt h
  simp only [Meaning.evalExpression]
  refine (hvalue.1 act locals pt h).bind ?_
  intro v pt₁ hle hunset hv
  refine (hlast act locals pt₁ v (h.later hle hunset hv.1) hv.2).imp ?_
  intro v' pt₂ _ hv'
  exact ⟨hv'.1.trans hv.1, hv'.2⟩

theorem means_emitArguments (hctx : ctx.Fits w) (hscope : scope.Fits ctx.declarations.types)
    (total close : Nat) (types : List Ty) (htypes : ∀ ty ∈ types, ty.isVoid = false)
    (arguments : List Argument) (insts : List Inst) :
    w.Emits insts (ctx.emitArguments scope total close types arguments)
      (Collects w.base.module scope insts fun calls locals =>
        Meaning.evalArguments ctx.declarations calls locals types arguments) := by
  cases arguments with
  | nil =>
    cases types with
    | nil =>
      unfold emitArguments
      refine .pure ?_
      intro act locals pt h
      simp only [Meaning.evalArguments]
      exact .pure h.unset ⟨rfl, rfl⟩
    | cons ty types => unfold emitArguments; exact .refuse
  | cons argument rest =>
    obtain ⟨label, start, value⟩ := argument
    cases types with
    | nil => unfold emitArguments; exact .refuse
    | cons ty types =>
      rw [List.forall_mem_cons] at htypes
      unfold emitArguments
      refine .bind (means_emitExpression hctx hscope ty htypes.1 value _) ?_
      intro first more hfirst
      refine .bind (means_emitArguments hctx hscope total close types htypes.2 rest _)
        ?_
      intro others more' hothers
      refine .pure ?_
      intro act locals pt h
      simp only [Meaning.evalArguments]
      refine (hfirst act locals pt h).bind ?_
      intro v pt₁ hle hunset hv
      refine (hothers act locals pt₁ (h.later hle hunset hv.1)).bind
        ?_
      intro vs pt₂ hle₂ hunset₂ hvs
      refine .pure hunset₂ ⟨hvs.1.trans hv.1, ?_⟩
      rw [List.mapM_cons, IR.operand_le hle₂ hv.2, hvs.2]
      rfl

end

end BodyContext

end Straightline
