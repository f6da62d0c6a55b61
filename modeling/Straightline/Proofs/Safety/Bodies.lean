import Straightline.Proofs.Emission.Frame
import Straightline.Proofs.Safety.Expressions

/-!
# Bodies that are accepted are not stuck

A statement leaves bindings of the types that the scope after it says, or returns a value of the type of
the result. So a definition whose body was accepted answers as its function is declared to, if the
functions that it knows do (`Definition.Safe`).
-/

set_option autoImplicit false

namespace Straightline

open Meaning (Answers Calls Definition Flow Locals Place Run Setting Shape Value Yields known
  known_bind place?)

namespace Meaning

/-- A statement ends as the scope after it says: with bindings of its types, or, if there is none, with
what the function answers. -/
def Flow.Typed (σ : Shape) (types : SymbolTable Ty) (result : Ty) :
    Flow → Option (Scope IR.Value) → Prop
  | .next locals, some scope => locals.Typed σ types scope
  | .returned r, none => Answers σ result r
  | _, _ => False

/-- Evaluated on arguments of the types of its parameters, the definition answers as its result is
declared, if all functions that it knows do. -/
def Definition.Safe (d : Definition) : Prop :=
  ∀ (σ : Shape) (calls : Calls) (args : List Value), σ.Knows d.names → calls.Serve σ d.names →
    Value.HaveTypes σ args (d.parameters.map Prod.snd) →
    Yields σ (d.evaluate calls args) fun σ' r => Answers σ' d.result r

end Meaning

namespace BodyContext

variable {ctx : BodyContext} {scope : Scope IR.Value} {m : IR.Module}

/-! ## Assignments -/

/-- Assigning to a name does not change what the name stands for, but may move it. -/
theorem safe_emitAssign (hnames : ctx.declarations.Sound m) (name : String) (stop : Nat)
    (value : Expression) :
    Ensures (ctx.emitAssign scope name stop value) fun _ scope' _ =>
      Secures ctx.declarations scope
        (fun calls locals => Meaning.evalAssign ctx.declarations calls locals name value)
        fun σ locals' => locals'.Typed σ ctx.declarations.types scope' := by
  intro s scope' s' h σ calls locals hset
  obtain ⟨⟨ty, storage⟩, s₁, hlookup, h⟩ := bind_ok h
  obtain ⟨result, s₂, hresult, h⟩ := bind_ok h
  have hlookup := lookup_ok (Emit.check_ok hlookup)
  cases hb : scope.lookup name with
  | some b =>
    obtain ⟨rfl, rfl⟩ := lookup?_local hb hlookup
    obtain ⟨old, hplace, _, hstorable⟩ := place?_local hset hb
    simp only [Meaning.evalAssign, hplace, known_bind]
    refine (safe_emitExpression hnames b.ty hstorable.valued value _ _ _ hresult σ calls locals
      hset).bind fun σ' v hle hv => .pure ?_
    -- Wherever the name lives now, it stands for a binding of the same type.
    have hmoved : ∃ b' : Binding IR.Value, b'.ty = b.ty ∧ ∀ name', scope'.lookup name'
        = if name = name' then some b' else scope.lookup name' := by
      cases hstorage : b.storage with
      | slot address =>
        simp only [hstorage] at h
        obtain ⟨_, s₃, _, h⟩ := bind_ok h
        cases h
        refine ⟨b, rfl, fun name' => ?_⟩
        by_cases hname : name = name'
        · rw [if_pos hname, ← hname, hb]
        · rw [if_neg hname]
      | direct direct =>
        simp only [hstorage, hb, Option.isSome_some, if_true] at h
        obtain ⟨slot, s₃, _, h⟩ := bind_ok h
        cases h
        exact ⟨⟨name, b.ty, .slot slot⟩, rfl, fun _ => Scope.lookup_declare ..⟩
    obtain ⟨b', hty, hscope⟩ := hmoved
    exact (hset.typed.later hle).assign hb hty hv hscope
  | none =>
    obtain ⟨index, hplace, hglobal, hstorable, rfl⟩ := place?_free hnames hset hb hlookup
    simp only [Meaning.evalAssign, hplace, known_bind]
    refine (safe_emitExpression hnames ty hstorable.valued value _ _ _ hresult σ calls locals
      hset).bind ?_
    intro σ' v hle hv
    cases hpassing : ty.passing with
    | byValue =>
      simp only [Declaring.globalStorage, hpassing] at h
      obtain ⟨_, s₃, _, h⟩ := bind_ok h
      cases h
      refine (Meaning.yields_write (hle _ _ hglobal)
        ((Value.fills_iff hpassing).mpr hv)).bind fun σ'' _ hle' _ => .pure ?_
      exact hset.typed.later (hle.trans hle')
    | byAddress =>
      -- The address of a global model is used directly, and the name is not bound: refused.
      simp only [Declaring.globalStorage, hpassing, hb, Option.isSome_none, Bool.false_eq_true,
        if_false] at h
      cases h

theorem safe_emitAssignField (hnames : ctx.declarations.Sound m) (target member : String)
    (stop : Nat) (value : Expression) :
    Ensures (ctx.emitStatement scope (.assignField target member stop value)) fun _ after _ =>
      after = some scope ∧ Secures ctx.declarations scope
        (fun calls locals => Meaning.evalAssignField ctx.declarations calls locals target member
          value)
        fun σ locals' => locals'.Typed σ ctx.declarations.types scope := by
  intro s after s' h
  obtain ⟨⟨ty, storage⟩, s₁, hlookup, h⟩ := bind_ok h
  obtain ⟨⟨index, fieldTy⟩, s₂, hfield, h⟩ := bind_ok h
  obtain ⟨base, s₃, _, h⟩ := bind_ok h
  obtain ⟨result, s₄, hresult, h⟩ := bind_ok h
  obtain ⟨address, s₅, _, h⟩ := bind_ok h
  obtain ⟨_, s₆, _, h⟩ := bind_ok h
  cases h
  refine ⟨rfl, fun σ calls locals hset => ?_⟩
  have hlookup := lookup_ok (Emit.check_ok hlookup)
  have hfield := Emit.check_ok hfield
  obtain ⟨haggregate, hget⟩ := fieldOf_ok hfield
  obtain ⟨place, hplace, htyped, hstorable⟩ := place?_typed hnames hset hlookup
  have hvalued := hnames.types.valued_fieldTypes hstorable.known fieldTy (List.mem_of_getElem? hget)
  have hvalue := safe_emitExpression hnames fieldTy hvalued value _ _ _ hresult
  simp only [Meaning.evalAssignField, hplace, field?_of_fieldOf hfield, known_bind]
  cases hpassing : ty.passing with
  | byAddress =>
    dsimp only
    -- The model is looked up first, and what it refers to outlives the evaluation of the value.
    refine (Meaning.yields_value htyped).bind ?_
    intro σ₁ model hle hmodel
    refine (hvalue σ₁ calls locals (hset.later hle)).bind ?_
    intro σ₂ v hle₂ hv
    refine (Meaning.yields_target (hmodel.later hle₂) hpassing).bind ?_
    intro σ₃ ref hle₃ href
    refine (Meaning.yields_writeField href haggregate hget (hv.later hle₃)).bind
      fun σ₄ _ hle₄ _ => .pure ?_
    exact hset.typed.later (((hle.trans hle₂).trans hle₃).trans hle₄)
  | byValue =>
    dsimp only
    -- A struct is changed where it is, after the value has been evaluated.
    refine (hvalue σ calls locals hset).bind ?_
    intro σ₁ v hle hv
    cases hb : scope.lookup target with
    | some b =>
      obtain ⟨rfl, _⟩ := lookup?_local hb hlookup
      obtain ⟨fields, hplace', hfields, _⟩ := place?_local hset hb
      rw [hplace] at hplace'
      cases hplace'
      have hfills := (Value.fills_iff hpassing).mpr (hfields.later hle)
      obtain ⟨fields', hset', hfills'⟩ := hfills.setField haggregate hget hv
      dsimp only
      rw [hset', known_bind]
      refine .pure ((hset.typed.later hle).assign hb rfl ((Value.fills_iff hpassing).mp hfills')
        fun name' => ?_)
      by_cases hname : target = name'
      · rw [if_pos hname, ← hname, hb]
      · rw [if_neg hname]
    | none =>
      obtain ⟨global, hplace', hglobal, _⟩ := place?_free hnames hset hb hlookup
      rw [hplace] at hplace'
      cases hplace'
      refine (Meaning.yields_writeField (hle _ _ hglobal) haggregate hget hv).bind
        fun σ₂ _ hle₂ _ => .pure ?_
      exact hset.typed.later (hle.trans hle₂)

/-! ## Statements -/

theorem safe_emitReturn (hnames : ctx.declarations.Sound m) (value : Option Expression)
    (start : Nat) :
    Ensures (ctx.emitReturn scope value start) fun _ _ _ =>
      Secures ctx.declarations scope
        (fun calls locals => Meaning.evalReturn ctx.declarations calls ctx.result locals value)
        fun σ r => Answers σ ctx.result r := by
  intro s _ s' h σ calls locals hset
  unfold emitReturn at h
  unfold Meaning.evalReturn
  cases hvoid : ctx.result.isVoid with
  | true => exact .pure hvoid
  | false =>
    rw [hvoid] at h
    cases value with
    | none => cases h
    | some value =>
      obtain ⟨result, s₁, hresult, _⟩ := bind_ok h
      refine (safe_emitExpression hnames ctx.result hvoid value _ _ _ hresult σ calls locals
        hset).bind ?_
      intro σ' v _ hv
      exact .pure hv

theorem safe_emitStatement (hnames : ctx.declarations.Sound m) (statement : Statement) :
    Ensures (ctx.emitStatement scope statement) fun _ after _ =>
      Secures ctx.declarations scope
        (fun calls locals =>
          Meaning.evalStatement ctx.declarations calls ctx.result locals statement)
        fun σ flow => flow.Typed σ ctx.declarations.types ctx.result after := by
  intro s after s' h σ calls locals hset
  cases statement with
  | ret value start =>
    obtain ⟨_, s₁, hreturn, h⟩ := bind_ok h
    cases h
    refine (safe_emitReturn hnames value start _ _ _ hreturn σ calls locals hset).bind
      ?_
    intro σ' r _ hr
    exact .pure hr
  | cond => cases h
  | call callee stop arguments close =>
    obtain ⟨_, s₁, hcall, h⟩ := bind_ok h
    cases h
    rw [discard_eq] at hcall
    obtain ⟨value, s₂, hcall, _⟩ := bind_ok hcall
    have hsafe := safe_callFunction hnames (fun types htypes =>
      safe_emitArguments hnames _ close types htypes arguments) _ _ _ hcall
    simp only [Meaning.evalStatement, discard_eq, bind_assoc, pure_bind]
    refine (hsafe σ calls locals hset).bind ?_
    intro σ' r hle _
    exact .pure (hset.typed.later hle)
  | methodCall target member stop arguments close =>
    obtain ⟨_, s₁, hcall, h⟩ := bind_ok h
    cases h
    rw [discard_eq] at hcall
    obtain ⟨value, s₂, hcall, _⟩ := bind_ok hcall
    have hsafe := safe_callMethod hnames (fun types htypes =>
      safe_emitArguments hnames _ close types htypes arguments) _ _ _ hcall
    simp only [Meaning.evalStatement, discard_eq, bind_assoc, pure_bind]
    refine (hsafe σ calls locals hset).bind ?_
    intro σ' r hle _
    exact .pure (hset.typed.later hle)
  | assignField target member stop value =>
    obtain ⟨rfl, hsafe⟩ := safe_emitAssignField hnames target member stop value _ _ _ h
    refine (hsafe σ calls locals hset).bind ?_
    intro σ' locals' _ hlocals
    exact .pure hlocals
  | declare name typeName stop value =>
    obtain ⟨ty, s₁, hresolve, h⟩ := bind_ok h
    obtain ⟨_, s₂, hvalued, h⟩ := bind_ok h
    obtain ⟨slot, s₃, _, h⟩ := bind_ok h
    obtain ⟨result, s₄, hresult, h⟩ := bind_ok h
    obtain ⟨_, s₅, _, h⟩ := bind_ok h
    cases h
    have hresolve := Emit.check_ok hresolve
    have hvalued := Ty.valued_of_requireStorable (Emit.check_ok hvalued)
    have hknown := hnames.types.known_of_resolve hresolve
    simp only [Meaning.evalStatement, hresolve]
    refine (safe_emitExpression hnames ty hvalued value _ _ _ hresult σ calls locals hset).bind
      ?_
    intro σ' v hle hv
    exact .pure ((hset.typed.later hle).declare (.slot slot) hv ⟨hknown, hvalued⟩)
  | assign name stop value =>
    obtain ⟨scope', s₁, hassign, h⟩ := bind_ok h
    cases h
    refine (safe_emitAssign hnames name stop value _ _ _ hassign σ calls locals hset).bind
      ?_
    intro σ' locals' _ hlocals
    exact .pure hlocals

theorem safe_emitLines (hnames : ctx.declarations.Sound m) (close : Nat) (lines : List Line) :
    Ensures (ctx.emitLines close scope lines) fun _ _ _ =>
      Secures ctx.declarations scope
        (fun calls locals => Meaning.evalLines ctx.declarations calls ctx.result locals lines)
        fun σ r => Answers σ ctx.result r := by
  induction lines generalizing scope with
  | nil =>
    intro s _ s' h
    cases h
  | cons line rest ih =>
    obtain ⟨start, statement⟩ := line
    intro s _ s' h σ calls locals hset
    obtain ⟨after, s₁, hstatement, h⟩ := bind_ok h
    refine (safe_emitStatement hnames statement _ _ _ hstatement σ calls locals hset).bind
      ?_
    intro σ' flow hle hflow
    cases flow with
    | next locals' =>
      cases after with
      | some scope' =>
        exact ih _ _ _ h σ' calls locals' ⟨hset.knows.later hle, hset.serve.later hle, hflow⟩
      | none => cases hflow
    | returned r =>
      cases after with
      | some scope' => cases hflow
      | none => exact .pure hflow

/-! ## Parameters -/

/-- Parameters are bound to arguments of their types. -/
theorem safe_bindParameters {types : SymbolTable Ty} (function : IR.FunctionId) (index : Nat)
    (parameters : List (String × Ty)) (hstorable : ∀ p ∈ parameters, p.2.StorableIn types) :
    Ensures (bindParameters function index scope parameters) fun _ scope' _ =>
      ∀ (σ : Shape) (locals : Locals) (args : List Value), locals.Typed σ types scope →
        Value.HaveTypes σ args (parameters.map Prod.snd) →
        ∃ locals', locals.enter parameters args = some locals' ∧ locals'.Typed σ types scope' := by
  induction parameters generalizing scope index with
  | nil =>
    intro s scope' s' h σ locals args htyped hargs
    cases h
    cases hargs
    exact ⟨locals, rfl, htyped⟩
  | cons parameter rest ih =>
    obtain ⟨name, ty⟩ := parameter
    rw [List.forall_mem_cons] at hstorable
    intro s scope' s' h σ locals args htyped hargs
    obtain ⟨value, s₁, _, h⟩ := bind_ok h
    obtain ⟨storage, s₂, _, h⟩ := bind_ok h
    cases hargs with
    | cons hv hvs =>
      exact ih (index + 1) hstorable.2 _ _ _ h σ _ _ (htyped.declare storage hv hstorable.1) hvs

/-- A block that was accepted makes a definition safe. -/
theorem safe_emitOpened {declarations : Declarations} {source : List UInt8} {body : PendingBody}
    (hnames : declarations.Sound m)
    (hstorable : ∀ p ∈ body.parameters, p.2.StorableIn declarations.types) :
    Ensures (emitOpened declarations source body) fun _ _ _ =>
      ∀ lines close c, Scan.block (.seek source body.resume) = .ok (.mk lines close) c →
        Definition.Safe ⟨body.function, declarations, body.parameters, body.result, lines⟩ := by
  intro s _ s' h lines close c hblock σ calls args hknows hserve hargs
  obtain ⟨scope, s₁, hparameters, h⟩ := bind_ok h
  unfold emitBlockAt at h
  rw [hblock] at h
  have hroot : Locals.Typed [] σ declarations.types .root :=
    ⟨fun name b hb => by simp [Scope.root, Scope.lookup] at hb, fun _ _ => rfl⟩
  obtain ⟨locals, henter, htyped⟩ :=
    safe_bindParameters body.function 0 body.parameters hstorable _ _ _ hparameters σ [] args
      hroot hargs
  unfold Definition.evaluate
  rw [henter, known_bind]
  have hlines := safe_emitLines hnames close lines _ _ _ h
  exact hlines σ calls locals ⟨hknows, hserve, htyped.bound, htyped.free⟩

end BodyContext

end Straightline
