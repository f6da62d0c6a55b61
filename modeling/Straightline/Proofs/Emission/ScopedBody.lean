import Straightline.Proofs.Emission.Scoping

/-!
# Bodies are well scoped

Statements keep the handles of all bindings usable, and a block that is accepted leaves a chain of
instructions from the first one on.
-/

set_option autoImplicit false

namespace Straightline

open IR (Site Inst)

namespace BodyContext

variable {ctx : BodyContext} {w : Site} {scope : Scope IR.Value} {insts : List Inst}

/-- The scope can be used after what was added, which is a chain. -/
structure Leaves (ctx : BodyContext) (w : Site) (insts : List Inst) (scope : Scope IR.Value)
    (more : List Inst) : Prop where
  scope : scope.Placed w ctx.declarations.types (insts ++ more)
  chain : ctx.Chains w insts more

/-- What a statement comes to: a scope that can be used after it, or a return. -/
def AfterStatement (ctx : BodyContext) (w : Site) (insts : List Inst) :
    Option (Scope IR.Value) → List Inst → Prop
  | some scope, more => ctx.Leaves w insts scope more
  | none, more => ctx.Chains w insts more

theorem scoped_emitAssign (hctx : ctx.Placed w)
    (hscope : scope.Placed w ctx.declarations.types insts) (name : String) (stop : Nat)
    (value : Expression) :
    w.Emits insts (ctx.emitAssign scope name stop value) (ctx.Leaves w insts) := by
  refine emits_lookup fun ty storage hlookup => ?_
  obtain ⟨hty, hfits, hhandle⟩ := hctx.lookup? hscope hlookup
  refine .bind (scoped_emitExpression hctx hscope ty hty.valued value) ?_
  intro result more hresult
  cases storage with
  | slot slot =>
    refine .bind (scoped_store hctx (.held hty.held) hresult.ty hfits hresult.live
      (hhandle.later more)) fun _ more' hmore' => .pure ?_
    rw [List.append_nil]
    exact ⟨hscope.later _, hresult.chain.append hmore'⟩
  | direct address =>
    dsimp only
    split
    · refine .bind (scoped_spill hctx hty hresult.ty hresult.live) fun slot more' hslot => .pure ?_
      rw [List.append_nil]
      have hplaced := hslot.behind hresult.chain
      exact ⟨(hscope.later _).declare hty hplaced.ty hplaced.live, hplaced.chain⟩
    · exact .refuse

theorem scoped_emitReturn (hctx : ctx.Placed w)
    (hscope : scope.Placed w ctx.declarations.types insts) (value : Option Expression)
    (start : Nat) :
    w.Emits insts (ctx.emitReturn scope value start) fun _ more => ctx.Chains w insts more := by
  have hopen := hctx.fits.opened
  unfold emitReturn
  split
  · exact .build (Site.ret hopen none) (.one (.ret (hctx.fits.ret_of_isVoid ‹_›)))
  · exact .reported (.build (Site.ret hopen none) (.one (.ret (hctx.fits.ret_of_isVoid ‹_›))))
  · exact .refuse
  · refine .bind (scoped_emitExpression hctx hscope ctx.result ‹_› _) ?_
    intro result more hresult
    refine .build (Site.ret hopen (some result)) ?_
    exact hresult.chain.append
      (.one (.retValue hresult.live (hresult.ty.trans hctx.fits.returns.symm)))

/-- A call whose result is dropped. -/
theorem scoped_discard {α : Type} {m : Emit α} {P : α → List Inst → Prop}
    (h : w.Emits insts m P) (hchain : ∀ a more, P a more → ctx.Chains w insts more) :
    w.Emits insts (discard m) fun _ more => ctx.Chains w insts more :=
  .discard (h.imp hchain)

theorem scoped_emitStatement (hctx : ctx.Placed w)
    (hscope : scope.Placed w ctx.declarations.types insts) (s : Statement) :
    w.Emits insts (ctx.emitStatement scope s) (ctx.AfterStatement w insts) := by
  have hopen := hctx.fits.opened
  cases s with
  | ret value start =>
    refine .bind (scoped_emitReturn hctx hscope value start) fun _ more hmore => .pure ?_
    rw [List.append_nil]
    exact hmore
  | cond stop condition thenBlock elseBlock => exact .refuse
  | call callee stop arguments close =>
    refine .bind (scoped_discard (scoped_callFunction hctx fun types htypes =>
      scoped_emitArguments hctx hscope _ close types htypes arguments)
      fun _ _ ⟨_, _, h⟩ => h.chain) fun _ more hmore => .pure ?_
    rw [List.append_nil]
    exact ⟨hscope.later more, hmore⟩
  | methodCall target member stop arguments close =>
    refine .bind (scoped_discard (scoped_callMethod hctx hscope fun types more htypes =>
      scoped_emitArguments hctx (hscope.later more) _ close types htypes arguments)
      fun _ _ ⟨_, _, h⟩ => h.chain) fun _ more hmore => .pure ?_
    rw [List.append_nil]
    exact ⟨hscope.later more, hmore⟩
  | assignField target member stop value =>
    refine emits_lookup fun ty storage hlookup => ?_
    obtain ⟨hty, hfits, hhandle⟩ := hctx.lookup? hscope hlookup
    refine .checked ?_
    rintro ⟨index, fieldTy⟩ hfield
    obtain ⟨haggregate, hfieldTy, _, _⟩ := hctx.field hty.known hfield
    refine .bind (scoped_fieldsAddress hctx hty haggregate hfits hhandle) ?_
    intro base more hbase
    refine .bind (scoped_emitExpression hctx (hscope.later more) fieldTy hfieldTy.valued value) ?_
    intro result more' hresult
    refine .bind (scoped_fieldAddr hctx hty.known hfield hbase.ty (hbase.live.later more')) ?_
    intro address more'' haddress
    refine .bind (scoped_store hctx (.held hfieldTy.held) hresult.ty haddress.ty
      (hresult.live.later more'') haddress.live) fun _ more₃ hmore₃ => .pure ?_
    rw [List.append_nil]
    exact ⟨hscope.later _,
      hbase.chain.append (hresult.chain.append (haddress.chain.append hmore₃))⟩
  | declare name typeName stop value =>
    refine .checked fun ty hresolve => ?_
    refine .checked fun _ hstorable => ?_
    have hty : ty.StorableIn ctx.declarations.types :=
      ⟨hctx.fits.declarations.types.known_of_resolve hresolve, Ty.valued_of_requireStorable hstorable⟩
    refine .built (Site.emit hopen _ _) ?_
    have hslot := handled_alloca w insts (some name) hty.held
    refine .bind (scoped_emitExpression hctx (hscope.later _) ty hty.valued value) ?_
    intro result more hresult
    refine .bind (scoped_store hctx (.held hty.held) hresult.ty hslot.ty hresult.live
      (hslot.live.later more)) fun _ more' hmore' => .pure ?_
    rw [List.append_nil]
    -- The slot comes first and is still in scope behind the value that is stored to it.
    have hplaced := hslot.onward (hresult.chain.append hmore')
    exact ⟨(hscope.later _).declare hty hplaced.ty hplaced.live, hplaced.chain⟩
  | assign name stop value =>
    refine .bind (scoped_emitAssign hctx hscope name stop value) fun scope' more h => .pure ?_
    rw [List.append_nil]
    exact h

theorem scoped_emitLines (hctx : ctx.Placed w)
    (hscope : scope.Placed w ctx.declarations.types insts) (close : Nat) (lines : List Line) :
    w.Emits insts (ctx.emitLines close scope lines) fun _ more => ctx.Chains w insts more := by
  induction lines generalizing scope insts with
  | nil => exact .refuse
  | cons line rest ih =>
    obtain ⟨start, statement⟩ := line
    refine .bind (scoped_emitStatement hctx hscope statement) ?_
    intro after more hmore
    cases after with
    | some scope' =>
      exact (ih hmore.scope).imp fun _ more' hmore' => hmore.chain.append hmore'
    | none =>
      refine (emits_reports (fun ⟨_, _⟩ => ⟨_, rfl⟩) rest).imp ?_
      intro _ more' hmore'
      rw [hmore', List.append_nil]
      exact hmore

theorem scoped_bindParameters (hctx : ctx.Placed w) (index : Nat)
    (parameters : List (String × Ty))
    (hparams : ∀ i p, parameters[i]? = some p →
      w.function.params[index + i]? = some p.2.irType)
    (hstorable : ∀ p ∈ parameters, p.2.StorableIn ctx.declarations.types)
    (hscope : scope.Placed w ctx.declarations.types insts) :
    w.Emits insts (bindParameters w.id index scope parameters) (ctx.Leaves w insts) := by
  have hopen := hctx.fits.opened
  induction parameters generalizing index scope insts with
  | nil => exact .pure ⟨hscope.later [], chains_nil⟩
  | cons parameter rest ih =>
    obtain ⟨name, ty⟩ := parameter
    rw [List.forall_mem_cons] at hstorable
    have hparam := hparams 0 _ rfl
    have hlive : w.Scoped insts ⟨.param index, ty.irType⟩ := .param hparam
    refine .looked (Site.param hopen hparam) ?_
    refine .bind (Q := fun storage more => storage.Fits ty ∧
      w.Scoped (insts ++ more) storage.handle ∧ ctx.Chains w insts more) ?_
      fun storage more hstorage => ?_
    · unfold parameterStorage
      split
      · refine .bind (scoped_spill hctx hstorable.1 rfl hlive) fun slot more hslot => .pure ?_
        rw [List.append_nil]
        exact ⟨hslot.ty, hslot.live, hslot.chain⟩
      · rename_i hplain
        refine .pure ⟨⟨rfl, fun haggregate => ?_⟩, hlive.later [], chains_nil⟩
        cases hpassing : ty.passing with
        | byAddress => rfl
        | byValue => simp [haggregate, hpassing] at hplain
    · refine (ih (index + 1) (fun i p hp => ?_) hstorable.2
        ((hscope.later more).declare hstorable.1 hstorage.1 hstorage.2.1)).imp
        fun scope' more' h => ?_
      · rw [Nat.add_assoc, Nat.add_comm 1 i]
        exact hparams (i + 1) p hp
      · have hplaced := h.scope
        rw [List.append_assoc] at hplaced
        exact ⟨hplaced, hstorage.2.2.append h.chain⟩

/-- A body that is accepted is a chain. -/
theorem scoped_emitOpened {declarations : Declarations} {source : List UInt8} {body : PendingBody}
    (hopen : w.Open) (hid : w.id = body.function)
    (hdeclarations : declarations.Sound w.base.module)
    (hmatching : declarations.Matches w.base.module)
    (hparams : w.function.params = body.parameters.map fun p => p.2.irType)
    (hret : w.function.ret = body.result.irType)
    (hstorable : ∀ p ∈ body.parameters, p.2.StorableIn declarations.types) :
    w.Emits [] (emitOpened declarations source body) fun _ more =>
      IR.Chain w.base.module (Ty.kinds declarations.types) w.function [] more := by
  have hctx : Placed ⟨declarations, body.name, body.result⟩ w :=
    ⟨⟨hopen, hdeclarations, hret⟩, hmatching⟩
  unfold emitOpened
  rw [← hid]
  refine .bind (scoped_bindParameters hctx 0 body.parameters (fun i p hp => ?_) hstorable
    .root) fun scope more hscope => ?_
  · rw [hparams, Nat.zero_add, List.getElem?_map, hp]
    rfl
  · unfold emitBlockAt
    split
    · rename_i block c hblock
      obtain ⟨lines, close⟩ := block
      exact (scoped_emitLines hctx hscope.scope.push close lines).imp fun _ more' h =>
        hscope.chain.append h
    · exact .refuse

end BodyContext

end Straightline
