import Straightline.Proofs.Declaring.Constants
import Straightline.Proofs.Emission.Typing

/-!
# Terms that come to constants

A term that is a constant by the types alone is emitted as this constant: no name is looked up for it and
no instruction is added (`emitTerm_constant`). Conversely a term comes to a constant only if it is one
(`folds_emitTerm`). Everything else ends in an instruction, whose result no constant is, or stands for a
binding: what is in scope is never a constant, since parameters come in as the function runs and the
variables of a body live in slots. A builder that cannot carry out a step answers with a constant as well,
but records a defect, so nothing is said of emission that has recorded one.
-/

set_option autoImplicit false

namespace Straightline

/-! ## Constants are emitted as they are -/

namespace BodyContext

variable {ctx : BodyContext} {scope : Scope IR.Value} {expected : Ty}

theorem construct_constants (hpassing : expected.passing = .byValue) {fields : List IR.Value}
    {constants : List IR.Constant} (hfields : fields.mapM IR.Value.constant? = some constants)
    (s : Emission) :
    construct expected fields s = .ok ⟨.const (.struct constants), expected.irType⟩ s := by
  have hstruct : Emit.build (IR.Build.struct expected.layoutType fields) s
      = .ok ⟨.const (.struct constants), expected.layoutType⟩ s := by
    simp only [Emit.build, IR.Build.struct, hfields]
    rfl
  refine (bind_of_ok hstruct).trans ?_
  rw [hpassing, Ty.irType_of_byValue hpassing]
  rfl

mutual

/-- A term that is a constant is emitted as the constant, and nothing is added for it. -/
theorem emitTerm_constant (t : Term) {expected : Ty} {v : IR.Constant}
    (h : t.constant? ctx.declarations.types expected = some v) (s : Emission) :
    ctx.emitTerm scope expected t s = .ok ⟨.const v, expected.irType⟩ s := by
  cases t with
  | word text stop =>
    obtain ⟨n, hliteral, rfl⟩ := Option.map_eq_some_iff.mp h
    simp only [emitTerm, emitWord, hliteral]
    rfl
  | call callee stop arguments close =>
    unfold Term.constant? at h
    unfold emitTerm
    split at h
    · rename_i ty hfind
      split at h
      · rename_i hty
        obtain ⟨rfl, hpassing⟩ := hty
        obtain ⟨constants, hconstants, rfl⟩ := Option.map_eq_some_iff.mp h
        obtain ⟨fields, hfields, hvalues⟩ := emitArguments_constants arguments hconstants
          ty.fieldTypes.length close s
        have hsame : Emit.check stop (ty.requireSame ty) s = .ok () s := by
          rw [Ty.requireSame, if_pos rfl]
          rfl
        rw [hfind]
        exact (bind_of_ok hsame).trans ((bind_of_ok hfields).trans
          (construct_constants hpassing hvalues s))
      · cases h
    · cases h
  | field | methodCall => cases h

theorem emitExpression_constant (e : Expression) {expected : Ty} {v : IR.Constant}
    (h : e.constant? ctx.declarations.types expected = some v) (s : Emission) :
    ctx.emitExpression scope expected e s = .ok ⟨.const v, expected.irType⟩ s := by
  obtain ⟨first, steps, stop⟩ := e
  cases steps with
  | cons => cases h
  | nil =>
    unfold emitExpression
    exact (bind_of_ok (emitTerm_constant first h s)).trans rfl

theorem emitArguments_constants (arguments : List Argument) {types : List Ty} {vs : List IR.Constant}
    (h : Argument.constants? ctx.declarations.types types arguments = some vs) (total close : Nat)
    (s : Emission) :
    ∃ values, ctx.emitArguments scope total close types arguments s = .ok values s ∧
      values.mapM IR.Value.constant? = some vs := by
  cases arguments with
  | nil =>
    obtain ⟨rfl, rfl⟩ := Argument.constants?_nil.mp h
    exact ⟨[], rfl, rfl⟩
  | cons argument rest =>
    obtain ⟨label, start, value⟩ := argument
    obtain ⟨ty, others, v, vs', rfl, hvalue, hrest, rfl⟩ := Argument.constants?_cons.mp h
    obtain ⟨values, hvalues, hconstants⟩ := emitArguments_constants rest hrest total close s
    refine ⟨⟨.const v, ty.irType⟩ :: values, ?_, ?_⟩
    · exact (bind_of_ok (emitExpression_constant value hvalue s)).trans (bind_of_ok hvalues)
    · rw [List.mapM_cons, hconstants]
      rfl

end

end BodyContext

/-! ## Nothing else is emitted as a constant -/

variable {α β γ δ : Type}

/-- Unless a defect is recorded, the step answers with what the program computes. -/
structure IR.Build.Computes (step : IR.Build IR.Value) : Prop where
  framed : Framed Builder.Amends step
  computed : ∀ b : IR.Builder, (step b).2.defects = b.defects → (step b).1.constant? = none

namespace IR.Build

theorem computes_fail (problem : Problem) (ty : IRType) : Computes (fail problem ty) := by
  refine ⟨framed_fail _ _, fun b h => ?_⟩
  simp [fail, Builder.record] at h

theorem computes_emit (ty : IRType) (op : Op) : Computes (emit ty op) := by
  refine ⟨fun b => .emit b ty op, fun b h => ?_⟩
  unfold emit at h ⊢
  split at h
  · split at h
    · exact absurd h (by simp [fail, Builder.record])
    · rename_i hblocks
      simp only [hblocks]
      rfl
  · exact absurd h (by simp [fail, Builder.record])

theorem computes_load (ptr : Value) : Computes (load ptr) := by
  unfold load
  split
  · exact computes_emit _ _
  · exact computes_fail _ _

theorem computes_call (callee : FunctionId) (args : List Value) : Computes (call callee args) := by
  refine ⟨framed_call _ _, fun b => ?_⟩
  unfold call
  split
  · exact (computes_emit _ _).computed b
  · exact (computes_fail _ _).computed b

end IR.Build

/-- Unless a defect is recorded, what `m` gives is a constant only if this is `folded`. -/
structure Emit.Folds (constant? : α → Option γ) (m : Emit α) (folded : Option γ) : Prop where
  amends : Emit.Amends m
  only : ∀ s a s', m s = .ok a s' → s'.builder.defects = s.builder.defects →
    ∀ v, constant? a = some v → folded = some v

namespace Emit.Folds

variable {constant? : α → Option γ} {constant?' : β → Option δ} {folded : Option γ}
  {folded' : Option δ} {m : Emit α} {k : α → Emit β}

theorem pure {a : α} (h : ∀ v, constant? a = some v → folded = some v) :
    Folds constant? (pure a) folded := by
  refine ⟨.pure a, fun s a' s' hm _ => ?_⟩
  cases hm
  exact h

theorem imp {folded' : Option γ} (h : Folds constant? m folded)
    (himp : ∀ v, folded = some v → folded' = some v) : Folds constant? m folded' :=
  ⟨h.amends, fun s a s' hm hdefects v hv => himp v (h.only s a s' hm hdefects v hv)⟩

theorem refuse {fault : Fault} {offset : Nat} : Folds constant? (Emit.refuse fault offset) folded := by
  refine ⟨.refuse _ _, fun s a s' hm => ?_⟩
  cases hm

theorem build {step : IR.Build IR.Value} {folded : Option IR.Constant} (h : IR.Build.Computes step) :
    Folds IR.Value.constant? (Emit.build step) folded := by
  refine ⟨.build h.framed, fun s a s' hm hdefects v hv => ?_⟩
  cases hm
  rw [h.computed s.builder hdefects] at hv
  cases hv

/-- No defect is recorded on the whole only if none is in either part. -/
theorem bind (hm : Folds constant? m folded) (hamends : ∀ a, Emit.Amends (k a))
    (hk : ∀ a, (∀ v, constant? a = some v → folded = some v) → Folds constant?' (k a) folded') :
    Folds constant?' (m >>= k) folded' := by
  refine ⟨.bind hm.amends hamends, fun s b s' h hdefects => ?_⟩
  obtain ⟨a, s₁, hma, h⟩ := bind_ok h
  -- Defects are only added, so with as many in the end as before there were no more in between.
  have hbefore := (hm.amends.ok hma).defects
  have hafter := ((hamends a).ok h).defects
  have hfirst : s₁.builder.defects = s.builder.defects := by
    refine (hbefore.eq_of_length_le ?_).symm
    rw [← hdefects]
    exact hafter.length_le
  exact (hk a (hm.only s a s₁ hma hfirst)).only s₁ b s' h (hdefects.trans hfirst.symm)

/-- A sequence comes to what its last part does. -/
theorem after (hm : Emit.Amends m) (hk : ∀ a, Folds constant?' (k a) folded') :
    Folds constant?' (m >>= k) folded' := by
  have hnothing : Folds (fun _ => (none : Option Unit)) m none := ⟨hm, fun _ _ _ _ _ _ h => nomatch h⟩
  exact hnothing.bind (fun a => (hk a).amends) fun a _ => hk a

/-- What a check found may be used. -/
theorem check {offset : Nat} {outcome : Except Fault α}
    (hk : ∀ a, outcome = .ok a → Folds constant?' (k a) folded') :
    Folds constant?' (Emit.check offset outcome >>= k) folded' := by
  cases outcome with
  | ok a => exact hk a rfl
  | error fault => exact refuse

end Emit.Folds

/-- What the place of a binding holds is only known as the program runs. -/
def Storage.Varies : Storage IR.Value → Prop
  | .slot _ => True
  | .direct value => value.constant? = none

/-- No binding that can be looked up is a constant. -/
def Scope.Varies (scope : Scope IR.Value) : Prop :=
  ∀ name binding, scope.lookup name = some binding → binding.storage.Varies

namespace Scope.Varies

variable {scope : Scope IR.Value}

theorem root : (Scope.root : Scope IR.Value).Varies := fun _ _ h => nomatch h

theorem push (h : scope.Varies) : scope.push.Varies := h

theorem declare (h : scope.Varies) {name : String} {ty : Ty} {storage : Storage IR.Value}
    (hstorage : storage.Varies) : (scope.declare name ty storage).Varies := by
  intro name' binding hbinding
  rw [lookup_declare] at hbinding
  split at hbinding
  · cases hbinding
    exact hstorage
  · exact h name' binding hbinding

end Scope.Varies

namespace BodyContext

/-- No name stands for a constant. -/
def Varies (ctx : BodyContext) (scope : Scope IR.Value) : Prop :=
  ∀ name ty storage, ctx.lookup? scope name = some (ty, storage) → storage.Varies

variable {ctx : BodyContext} {scope : Scope IR.Value} {expected : Ty} {folded : Option IR.Constant}

open IR (Site)
open Emit.Folds IR.Build

theorem folds_valueOf {storage : Storage IR.Value} (h : storage.Varies) :
    Emit.Folds IR.Value.constant? (valueOf storage) folded := by
  cases storage with
  | slot address => exact .build (computes_load address)
  | direct value =>
    refine .pure fun v hv => ?_
    cases h.symm.trans hv

theorem folds_struct (ty : IRType) (fields : List IR.Value) :
    Emit.Folds IR.Value.constant? (Emit.build (IR.Build.struct ty fields))
      ((fields.mapM IR.Value.constant?).map .struct) := by
  unfold IR.Build.struct
  cases fields.mapM IR.Value.constant? with
  | none => exact .build (computes_emit _ _)
  | some constants => exact .pure fun v hv => hv

/-- A struct of constants is a constant; a model never is, since it is put into storage. -/
theorem folds_construct (ty : Ty) (fields : List IR.Value) :
    Emit.Folds IR.Value.constant? (construct ty fields)
      (if ty.passing = .byValue then (fields.mapM IR.Value.constant?).map .struct else none) := by
  have hstruct := folds_struct ty.layoutType fields
  unfold construct
  cases hpassing : ty.passing with
  | byValue =>
    rw [if_pos rfl]
    exact .bind hstruct (fun _ => .pure _) fun value hvalue => .pure hvalue
  | byAddress =>
    have haddress : Emit.Folds IR.Value.constant? (Emit.build (heapAlloc ty.layoutType)) none :=
      .build (computes_emit _ _)
    have hstores (value address : IR.Value) : Emit.Amends (Emit.build (store value address)) :=
      .build (framed_store _ _)
    rw [if_neg (by decide)]
    exact .after hstruct.amends fun value => .bind haddress
      (fun address => .bind (hstores value address) fun _ => .pure _)
      fun address hnone => .after (hstores value address) fun _ => .pure hnone

/-- A word is a literal or stands for a binding. -/
theorem folds_emitWord (hscope : ctx.Varies scope) (expected : Ty) (text : String) (stop : Nat) :
    Emit.Folds IR.Value.constant? (ctx.emitWord scope expected text stop)
      ((expected.literal? text).map .int) := by
  unfold emitWord
  cases hliteral : expected.literal? text with
  | some n => exact .pure fun v hv => hv
  | none =>
    dsimp only
    cases hlookup : ctx.lookup? scope text with
    | some found => exact .after (.check _ _) fun _ => folds_valueOf (hscope _ _ _ hlookup)
    | none =>
      dsimp only
      split <;> exact .refuse

theorem folds_emitField (expected : Ty) (target member : String) (stop : Nat) :
    Emit.Folds IR.Value.constant? (ctx.emitField scope expected target member stop) folded :=
  .after (.check _ _) fun _ => .after (.check _ _) fun _ => .after (.check _ _) fun _ =>
    .after (framed_fieldsAddress _ _) fun _ => .after (.build (framed_fieldAddr _ _)) fun _ =>
      .build (computes_load _)

theorem folds_callFunction {callee : String} {stop : Nat} {expected : Option Ty}
    {arguments : List Ty → Emit (List IR.Value)}
    (harguments : ∀ types, Emit.Amends (arguments types)) :
    Emit.Folds IR.Value.constant? (ctx.callFunction callee stop expected arguments) folded := by
  unfold callFunction
  split
  · exact .refuse
  · exact .after (.check _ _) fun _ => .after (harguments _) fun _ => .build (computes_call _ _)

theorem folds_callMethod {target member : String} {stop : Nat} {expected : Option Ty}
    {arguments : List Ty → Emit (List IR.Value)}
    (harguments : ∀ types, Emit.Amends (arguments types)) :
    Emit.Folds IR.Value.constant? (ctx.callMethod scope target member stop expected arguments)
      folded := by
  refine .after (.check _ _) fun found => .after (.require _ _ _) fun _ => ?_
  split
  · exact .refuse
  · exact .after (.check _ _) fun _ => .after (framed_valueOf _) fun _ =>
      .after (harguments _) fun _ => .build (computes_call _ _)

theorem computes_emitOperator (operator : Operator) (lhs rhs : IR.Value) :
    Computes (emitOperator operator lhs rhs) := by
  cases operator <;> exact computes_emit _ _

/-- Whatever operators apply to, it is computed; without any the first value remains. -/
theorem folds_emitSteps (expected : Ty) (steps : List Step) (value : IR.Value)
    (h : steps = [] → ∀ v, value.constant? = some v → folded = some v) :
    Emit.Folds IR.Value.constant? (ctx.emitSteps scope expected value steps) folded := by
  induction steps generalizing value with
  | nil => exact .pure (h rfl)
  | cons step rest ih =>
    obtain ⟨operator, stop, operand⟩ := step
    unfold emitSteps
    exact .after (.require _ _ _) fun _ => .after (framed_emitTerm expected operand) fun right =>
      .bind (.build (computes_emitOperator operator value right)) (fun _ => framed_emitSteps _ _ _)
        fun result hresult => ih result fun _ => hresult

mutual

/-- A term that is no constant is not emitted as one. -/
theorem folds_emitTerm (hscope : ctx.Varies scope) (expected : Ty) (t : Term) :
    Emit.Folds IR.Value.constant? (ctx.emitTerm scope expected t)
      (t.constant? ctx.declarations.types expected) := by
  cases t with
  | word text stop => exact folds_emitWord hscope expected text stop
  | field target member stop => exact folds_emitField expected target member stop
  | call callee stop arguments close =>
    unfold emitTerm Term.constant?
    cases hfind : ctx.declarations.types.find? callee with
    | none => exact folds_callFunction fun _ => framed_emitArguments _ _ _ _
    | some ty =>
      refine .check fun _ hsame => ?_
      obtain rfl := requireSame_ok hsame
      refine .bind (folds_emitArguments hscope _ close _ arguments) (fun _ => framed_construct _ _)
        fun fields hfields => (folds_construct expected fields).imp fun v hv => ?_
      split at hv
      · obtain ⟨vs, hvs, rfl⟩ := Option.map_eq_some_iff.mp hv
        simp [*, hfields vs hvs]
      · cases hv
  | methodCall target member stop arguments close =>
    unfold emitTerm
    exact folds_callMethod fun _ => framed_emitArguments _ _ _ _

theorem folds_emitExpression (hscope : ctx.Varies scope) (expected : Ty) (e : Expression) :
    Emit.Folds IR.Value.constant? (ctx.emitExpression scope expected e)
      (e.constant? ctx.declarations.types expected) := by
  obtain ⟨first, steps, stop⟩ := e
  refine .bind (folds_emitTerm hscope expected first) (fun _ => framed_emitSteps _ _ _)
    fun value hvalue => folds_emitSteps expected steps value fun hsteps => ?_
  subst hsteps
  exact hvalue

theorem folds_emitArguments (hscope : ctx.Varies scope) (total close : Nat) (types : List Ty)
    (arguments : List Argument) :
    Emit.Folds (fun values : List IR.Value => values.mapM IR.Value.constant?)
      (ctx.emitArguments scope total close types arguments)
      (Argument.constants? ctx.declarations.types types arguments) := by
  cases arguments with
  | nil =>
    cases types with
    | nil => exact .pure fun v hv => hv
    | cons ty types => exact .refuse
  | cons argument rest =>
    obtain ⟨label, start, value⟩ := argument
    cases types with
    | nil => exact .refuse
    | cons ty types =>
      refine .bind (folds_emitExpression hscope ty value)
        (fun first => .bind (framed_emitArguments _ _ _ _) fun others => .pure _) fun first hfirst => ?_
      refine .bind (folds_emitArguments hscope total close types rest) (fun _ => .pure _)
        fun others hothers => .pure fun vs hvs => ?_
      rw [List.mapM_cons] at hvs
      obtain ⟨v, hv, hvs⟩ := Option.bind_eq_some_iff.mp hvs
      obtain ⟨vs', hvs', hvs⟩ := Option.bind_eq_some_iff.mp hvs
      cases hvs
      exact Argument.constants?_cons.mpr ⟨ty, types, v, vs', rfl, hfirst v hv, hothers vs' hvs', rfl⟩

end

/-! ## What is in scope -/

/-- The address of a global is known only as the program runs. -/
theorem varies_of_scope {m : IR.Module} (hdeclarations : ctx.declarations.Sound m) (h : scope.Varies) :
    ctx.Varies scope := by
  intro name ty storage hlookup
  cases hb : scope.lookup name with
  | some binding =>
    obtain ⟨rfl, rfl⟩ := lookup?_local hb hlookup
    exact h name binding hb
  | none =>
    obtain ⟨record, hfind, rfl, rfl⟩ := lookup?_global hb hlookup
    obtain ⟨i, hi⟩ := List.getElem?_of_mem (SymbolTable.mem_of_find? hfind)
    rw [(hdeclarations.globals i _ hi).stored]
    unfold Declaring.globalStorage
    split
    · trivial
    · rfl

/-- Parameters come in when the function is called. -/
theorem varies_bindParameters {function : IR.FunctionId} {parameters : List (String × Ty)} {index : Nat}
    (h : scope.Varies) :
    Ensures (bindParameters function index scope parameters) fun _ scope' _ => scope'.Varies := by
  induction parameters generalizing index scope with
  | nil =>
    intro s scope' s' hs
    cases hs
    exact h
  | cons parameter rest ih =>
    obtain ⟨name, ty⟩ := parameter
    intro s scope' s' hs
    obtain ⟨value, s₁, hvalue, hs⟩ := bind_ok hs
    obtain ⟨storage, s₂, hstorage, hs⟩ := bind_ok hs
    refine ih (h.declare ?_) _ _ _ hs
    unfold parameterStorage at hstorage
    split at hstorage
    · obtain ⟨slot, s₃, _, hstorage⟩ := bind_ok hstorage
      cases hstorage
      trivial
    · cases hstorage
      have hparam : (IR.Build.param function index s.builder).1 = value := by
        cases hvalue
        rfl
      rw [← hparam]
      unfold IR.Build.param
      split <;> rfl

/-- A parameter that is assigned to moves to a slot. -/
theorem varies_emitAssign (h : scope.Varies) (name : String) (stop : Nat) (value : Expression) :
    Ensures (ctx.emitAssign scope name stop value) fun _ scope' _ => scope'.Varies := by
  intro s scope' s' hs
  obtain ⟨⟨ty, storage⟩, s₁, _, hs⟩ := bind_ok hs
  obtain ⟨result, s₂, _, hs⟩ := bind_ok hs
  cases storage with
  | slot slot =>
    obtain ⟨_, s₃, _, hs⟩ := bind_ok hs
    cases hs
    exact h
  | direct address =>
    dsimp only at hs
    split at hs
    · obtain ⟨slot, s₃, _, hs⟩ := bind_ok hs
      cases hs
      exact h.declare trivial
    · cases hs

/-- A name that a statement binds gets a slot. -/
theorem varies_emitStatement (h : scope.Varies) (statement : Statement) :
    Ensures (ctx.emitStatement scope statement) fun _ after _ =>
      ∀ scope', after = some scope' → scope'.Varies := by
  intro s after s' hs scope' hafter
  subst hafter
  cases statement with
  | ret value start =>
    obtain ⟨_, s₁, _, hs⟩ := bind_ok hs
    cases hs
  | cond => cases hs
  | call | methodCall =>
    obtain ⟨_, s₁, _, hs⟩ := bind_ok hs
    cases hs
    exact h
  | assignField target member stop value =>
    obtain ⟨⟨ty, storage⟩, s₁, _, hs⟩ := bind_ok hs
    obtain ⟨⟨index, fieldTy⟩, s₂, _, hs⟩ := bind_ok hs
    obtain ⟨base, s₃, _, hs⟩ := bind_ok hs
    obtain ⟨result, s₄, _, hs⟩ := bind_ok hs
    obtain ⟨address, s₅, _, hs⟩ := bind_ok hs
    obtain ⟨_, s₆, _, hs⟩ := bind_ok hs
    cases hs
    exact h
  | declare name typeName stop value =>
    obtain ⟨ty, s₁, _, hs⟩ := bind_ok hs
    obtain ⟨_, s₂, _, hs⟩ := bind_ok hs
    obtain ⟨slot, s₃, _, hs⟩ := bind_ok hs
    obtain ⟨result, s₄, _, hs⟩ := bind_ok hs
    obtain ⟨_, s₅, _, hs⟩ := bind_ok hs
    cases hs
    exact h.declare trivial
  | assign name stop value =>
    obtain ⟨after, s₁, hassign, hs⟩ := bind_ok hs
    cases hs
    exact varies_emitAssign h name stop value _ _ _ hassign

/-! ## Constants exactly where they are written -/

/-- In a function that is compiled a term comes to a constant only if it is one, which then leaves no
trace. -/
theorem emitTerm_constant_iff {w : Site} {insts : List IR.Inst} {log : List Event} (hctx : ctx.Fits w)
    (hscope : scope.Fits ctx.declarations.types) (hvaries : scope.Varies) {t : Term} {value : IR.Value}
    {s' : Emission} {v : IR.Constant} :
    ctx.emitTerm scope expected t ⟨w.builder insts, log⟩ = .ok value s' ∧ value.constant? = some v ↔
      t.constant? ctx.declarations.types expected = some v ∧ value = ⟨.const v, expected.irType⟩ ∧
        s' = ⟨w.builder insts, log⟩ := by
  constructor
  · rintro ⟨h, hvalue⟩
    -- Whatever else is known of terms that are well typed, no defect is recorded for them.
    obtain ⟨more, log', hs', _⟩ := typed_emitTerm hctx hscope expected t insts _ _ _ h
    have hdefects : s'.builder.defects = w.base.defects := by rw [hs', Site.builder]
    have hconstant := (folds_emitTerm (varies_of_scope hctx.declarations hvaries) expected t).only
      _ _ _ h hdefects v hvalue
    cases (emitTerm_constant t hconstant _).symm.trans h
    exact ⟨hconstant, rfl, rfl⟩
  · rintro ⟨hconstant, rfl, rfl⟩
    exact ⟨emitTerm_constant t hconstant _, rfl⟩

end BodyContext

end Straightline
