import Straightline.Proofs.Emission.Typing

/-!
# Bodies are well typed

Statements keep the bindings in scope in fitting places, and a block that is accepted completes its
function: what is dropped after a `return` adds no instruction.
-/

set_option autoImplicit false

namespace Straightline

open IR (Site Inst)

namespace BodyContext

variable {ctx : BodyContext} {w : Site} {scope : Scope IR.Value} {insts : List Inst}

/-- What a statement comes to: the scope after it fits, or the body is complete. -/
def Continued (ctx : BodyContext) (w : Site) : Option (Scope IR.Value) → List Inst → Prop
  | some scope, more => scope.Fits ctx.declarations.types ∧ w.Accepts more
  | none, more => w.Completes more

theorem typed_emitAssign (hctx : ctx.Fits w) (hscope : scope.Fits ctx.declarations.types)
    (name : String) (stop : Nat) (value : Expression) :
    w.Emits insts (ctx.emitAssign scope name stop value) fun scope' more =>
      scope'.Fits ctx.declarations.types ∧ w.Accepts more := by
  refine emits_lookup fun ty storage hlookup => ?_
  obtain ⟨hty, hstorage⟩ := hctx.lookup? hscope hlookup
  refine .bind (typed_emitExpression hctx hscope ty value _) ?_
  intro result more hresult
  cases storage with
  | slot slot =>
    have hslot : slot.ty = .ptr ty.irType := hstorage
    refine .built (Site.store hctx.opened result slot) (.pure ⟨hscope, ?_⟩)
    exact hresult.2.append (.store (hslot.trans (congrArg IRType.ptr hresult.1.symm)))
  | direct address =>
    dsimp only
    split
    · refine .bind (typed_spill hctx.opened hresult.1) fun slot more' hslot => .pure ?_
      exact ⟨hscope.declare hty hslot.1, hresult.2.append (hslot.2.append .nil)⟩
    · exact .refuse

/-- A return of nothing is accepted in a function without a result. -/
theorem completes_ret_none (hctx : ctx.Fits w) (hvoid : ctx.result.isVoid = true) (n : Nat) :
    w.Completes [⟨n, .void, .ret none⟩] := by
  refine ⟨[], _, rfl, .nil, rfl, ?_⟩
  simp only [IR.Module.verifyInst]
  rw [hctx.ret_of_isVoid hvoid]
  exact IR.expectType_self _ _

theorem typed_emitReturn (hctx : ctx.Fits w) (hscope : scope.Fits ctx.declarations.types)
    (value : Option Expression) (start : Nat) :
    w.Emits insts (ctx.emitReturn scope value start) fun _ more => w.Completes more := by
  have hopen := hctx.opened
  unfold emitReturn
  split
  · exact .build (Site.ret hopen none) (completes_ret_none hctx ‹_› _)
  · exact .reported (.build (Site.ret hopen none) (completes_ret_none hctx ‹_› _))
  · exact .refuse
  · refine .bind (typed_emitExpression hctx hscope ctx.result _ _) ?_
    intro result more hresult
    refine .build (Site.ret hopen (some result)) ?_
    refine ⟨more, _, rfl, hresult.2, rfl, ?_⟩
    simp only [IR.Module.verifyInst]
    rw [hresult.1, hctx.returns]
    exact IR.expectType_self _ _

theorem typed_emitStatement (hctx : ctx.Fits w) (hscope : scope.Fits ctx.declarations.types)
    (s : Statement) : w.Emits insts (ctx.emitStatement scope s) (Continued ctx w) := by
  have hopen := hctx.opened
  cases s with
  | ret value start =>
    refine .bind (typed_emitReturn hctx hscope value start) fun _ more hmore => .pure ?_
    rw [List.append_nil]
    exact hmore
  | cond stop condition thenBlock elseBlock => exact .refuse
  | call callee stop arguments close =>
    refine .bind (Q := fun _ more => w.Accepts more) (.discard ?_) fun _ more hmore => .pure ?_
    · exact (typed_callFunction hctx fun types insts =>
        typed_emitArguments hctx hscope _ close types arguments insts).imp fun _ _ h => h.2
    · exact ⟨hscope, hmore.append .nil⟩
  | methodCall target member stop arguments close =>
    refine .bind (Q := fun _ more => w.Accepts more) (.discard ?_) fun _ more hmore => .pure ?_
    · exact (typed_callMethod hctx hscope fun types insts =>
        typed_emitArguments hctx hscope _ close types arguments insts).imp fun _ _ h => h.2
    · exact ⟨hscope, hmore.append .nil⟩
  | assignField target member stop value =>
    refine emits_lookup fun ty storage hlookup => ?_
    obtain ⟨hty, hstorage⟩ := hctx.lookup? hscope hlookup
    refine .checked ?_
    rintro ⟨index, fieldTy⟩ hfield
    obtain ⟨haggregate, _, _, hplace⟩ := hctx.field hty.known hfield
    refine .bind (typed_fieldsAddress hopen haggregate hstorage) ?_
    intro base more hbase
    refine .bind (typed_emitExpression hctx hscope fieldTy value _) ?_
    intro result more' hresult
    refine .built (Site.fieldAddr hopen (by rw [hbase.1]; exact hplace)) ?_
    refine .built (Site.store hopen _ _) (.pure ⟨hscope, ?_⟩)
    exact hbase.2.append (hresult.2.append
      (.cons rfl rfl (.store (congrArg IRType.ptr hresult.1.symm))))
  | declare name typeName stop value =>
    refine .checked fun ty hresolve => ?_
    refine .checked fun _ hstorable => ?_
    have hty : ty.StorableIn ctx.declarations.types :=
      ⟨hctx.declarations.types.known_of_resolve hresolve, Ty.valued_of_requireStorable hstorable⟩
    refine .built (Site.emit hopen _ _) ?_
    refine .bind (typed_emitExpression hctx hscope ty value _) ?_
    intro result more hresult
    refine .built (Site.store hopen _ _) (.pure ⟨hscope.declare hty rfl, ?_⟩)
    exact .cons rfl rfl (hresult.2.append (.store (congrArg IRType.ptr hresult.1.symm)))
  | assign name stop value =>
    refine .bind (typed_emitAssign hctx hscope name stop value) fun scope' more h => .pure ?_
    exact ⟨h.1, h.2.append .nil⟩

/-- Statements after a return are reported and add nothing. -/
theorem emits_reports {f : Line → Emit Unit} (hf : ∀ line, ∃ event, f line = Emit.report event)
    (lines : List Line) : w.Emits insts (lines.forM f) fun _ more => more = [] := by
  induction lines generalizing insts with
  | nil => exact .pure rfl
  | cons line rest ih =>
    obtain ⟨event, hevent⟩ := hf line
    change w.Emits insts (f line >>= fun _ => rest.forM f) _
    rw [hevent]
    exact .reported ih

theorem typed_emitLines (hctx : ctx.Fits w) (hscope : scope.Fits ctx.declarations.types)
    (close : Nat) (lines : List Line) :
    w.Emits insts (ctx.emitLines close scope lines) fun _ more => w.Completes more := by
  induction lines generalizing scope insts with
  | nil => exact .refuse
  | cons line rest ih =>
    obtain ⟨start, statement⟩ := line
    refine .bind (typed_emitStatement hctx hscope statement) ?_
    intro after more hmore
    cases after with
    | some scope' =>
      exact (ih hmore.1).imp fun _ more' hmore' => hmore'.append hmore.2
    | none =>
      refine (emits_reports (fun ⟨_, _⟩ => ⟨_, rfl⟩) rest).imp ?_
      intro _ more' hmore'
      rw [hmore', List.append_nil]
      exact hmore

/-- Parameters are bound to fitting places: a struct is copied into a slot, anything else is used as
it comes in. -/
theorem typed_bindParameters {types : SymbolTable Ty} (hopen : w.Open) (index : Nat)
    (parameters : List (String × Ty))
    (hparams : ∀ i p, parameters[i]? = some p →
      w.function.params[index + i]? = some p.2.irType)
    (hstorable : ∀ p ∈ parameters, p.2.StorableIn types) (hscope : scope.Fits types) :
    w.Emits insts (bindParameters w.id index scope parameters) fun scope' more =>
      scope'.Fits types ∧ w.Accepts more := by
  induction parameters generalizing index scope insts with
  | nil => exact .pure ⟨hscope, .nil⟩
  | cons parameter rest ih =>
    obtain ⟨name, ty⟩ := parameter
    rw [List.forall_mem_cons] at hstorable
    refine .looked (Site.param hopen (hparams 0 _ rfl)) ?_
    refine .bind (Q := fun storage more => storage.Fits ty ∧ w.Accepts more) ?_
      fun storage more hstorage => ?_
    · unfold parameterStorage
      split
      · refine .bind (typed_spill hopen rfl) fun slot more hslot => .pure ?_
        exact ⟨hslot.1, hslot.2.append .nil⟩
      · rename_i hplain
        refine .pure ⟨⟨rfl, fun haggregate => ?_⟩, .nil⟩
        cases hpassing : ty.passing with
        | byAddress => rfl
        | byValue => simp [haggregate, hpassing] at hplain
    · refine (ih (index + 1) (fun i p hp => ?_) hstorable.2
        (hscope.declare hstorable.1 hstorage.1)).imp fun scope' more' h => ?_
      · rw [Nat.add_assoc, Nat.add_comm 1 i]
        exact hparams (i + 1) p hp
      · exact ⟨h.1, hstorage.2.append h.2⟩

/-- A body that is accepted completes its function. -/
theorem typed_emitOpened {declarations : Declarations} {source : List UInt8} {body : PendingBody}
    (hopen : w.Open) (hid : w.id = body.function)
    (hdeclarations : declarations.Sound w.base.module)
    (hparams : w.function.params = body.parameters.map fun p => p.2.irType)
    (hret : w.function.ret = body.result.irType)
    (hstorable : ∀ p ∈ body.parameters, p.2.StorableIn declarations.types) :
    w.Emits [] (emitOpened declarations source body) fun _ more => w.Completes more := by
  have hctx : Fits ⟨declarations, body.name, body.result⟩ w := ⟨hopen, hdeclarations, hret⟩
  unfold emitOpened
  rw [← hid]
  refine .bind (typed_bindParameters hopen 0 body.parameters (fun i p hp => ?_) hstorable
    .root) fun scope more hscope => ?_
  · rw [hparams, Nat.zero_add, List.getElem?_map, hp]
    rfl
  · unfold emitBlockAt
    split
    · rename_i block c hblock
      obtain ⟨lines, close⟩ := block
      exact (typed_emitLines hctx hscope.1.push close lines).imp fun _ more' h =>
        h.append hscope.2
    · exact .refuse

end BodyContext

end Straightline
