import Straightline.Proofs.Emission.Typing
import Straightline.Proofs.Safety.Types

/-!
# What is accepted is not stuck

The checks that emission makes are those that evaluation needs: wherever the bindings in scope hold
values of their types, and calls answer with values of the types of results, a term that was accepted for
a place yields a value of the type of the place. Nothing is said of the instructions here. There is one
lemma for each function that emits, and the functions on trees are taken together by recursion on the
tree, as they are for what the instructions mean.
-/

set_option autoImplicit false

namespace Straightline

open Meaning (Calls Flow Locals Place Run Shape Value Yields known known_bind place? yields_read
  yields_write yields_make)

/-! ## What is needed -/

namespace Meaning

/-- What a function of result type `ty` answers with: nothing, if there are no values of it. -/
def Answers (σ : Shape) (ty : Ty) : Option Value → Prop
  | none => ty.isVoid = true
  | some v => v.HasType σ ty

/-- Function `id` may be called on arguments of these types. -/
def Calls.Take (calls : Calls) (σ : Shape) (id : IR.FunctionId) (types : List Ty) (result : Ty) :
    Prop :=
  ∀ σ' args, σ.Le σ' → Value.HaveTypes σ' args types →
    Yields σ' (calls id args) fun σ'' r => Answers σ'' result r

/-- Whatever the tables know may be called as they say. -/
structure Calls.Serve (calls : Calls) (σ : Shape) (names : Declarations) : Prop where
  functions : ∀ entry ∈ names.functions.entries,
    calls.Take σ entry.2.function entry.2.signature.argumentTypes entry.2.signature.result
  methods : ∀ entry ∈ names.methods.entries,
    calls.Take σ entry.2.function (entry.2.owner :: entry.2.signature.argumentTypes)
      entry.2.signature.result

/-- The bindings in scope hold values of their types, which are known. -/
structure Locals.Typed (locals : Locals) (σ : Shape) (types : SymbolTable Ty)
    (scope : Scope IR.Value) : Prop where
  bound : ∀ name b, scope.lookup name = some b →
    ∃ l, locals.lookup name = some l ∧ l.ty = b.ty ∧ l.value.HasType σ b.ty ∧
      b.ty.StorableIn types
  free : ∀ name, scope.lookup name = none → locals.lookup name = none

/-- A place has the type `ty`. -/
def Place.HasType (σ : Shape) (ty : Ty) : Place → Prop
  | .held v => v.HasType σ ty
  | .global index => σ.ty? (.global index) = some ty

/-- Everything that is needed for what stands in `scope` to be evaluated. -/
structure Setting (names : Declarations) (scope : Scope IR.Value) (σ : Shape) (calls : Calls)
    (locals : Locals) : Prop where
  knows : σ.Knows names
  serve : calls.Serve σ names
  typed : locals.Typed σ names.types scope

section Settings

variable {names : Declarations} {scope : Scope IR.Value} {σ σ' : Shape} {calls : Calls}
  {locals : Locals} {name : String} {ty : Ty} {v : Value}

theorem Calls.Take.later {id : IR.FunctionId} {types : List Ty} {result : Ty}
    (h : calls.Take σ id types result) (hle : σ.Le σ') : calls.Take σ' id types result :=
  fun σ'' args hle' hargs => h σ'' args (hle.trans hle') hargs

theorem Calls.Serve.later (h : calls.Serve σ names) (hle : σ.Le σ') : calls.Serve σ' names :=
  ⟨fun entry hentry => (h.functions entry hentry).later hle,
    fun entry hentry => (h.methods entry hentry).later hle⟩

theorem Locals.Typed.later {types : SymbolTable Ty} (h : locals.Typed σ types scope)
    (hle : σ.Le σ') : locals.Typed σ' types scope where
  bound := by
    intro name b hb
    obtain ⟨l, hl, hty, hv, hstorable⟩ := h.bound name b hb
    exact ⟨l, hl, hty, hv.later hle, hstorable⟩
  free := h.free

theorem Setting.later (h : Setting names scope σ calls locals) (hle : σ.Le σ') :
    Setting names scope σ' calls locals :=
  ⟨h.knows.later hle, h.serve.later hle, h.typed.later hle⟩

/-- A name gets a value of its type, whether it is bound anew or assigned to. -/
theorem Locals.Typed.rebind {types : SymbolTable Ty} {scope' : Scope IR.Value} {locals' : Locals}
    {b : Binding IR.Value} {l : Local} (h : locals.Typed σ types scope) (hty : l.ty = b.ty)
    (hv : l.value.HasType σ b.ty) (hstorable : b.ty.StorableIn types)
    (hscope : ∀ name', scope'.lookup name' = if name = name' then some b else scope.lookup name')
    (hlocals : ∀ name', locals'.lookup name'
      = if name = name' then some l else locals.lookup name') :
    locals'.Typed σ types scope' where
  bound := by
    intro name' b' hb'
    rw [hscope] at hb'
    rw [hlocals]
    by_cases hname : name = name'
    · rw [if_pos hname] at hb' ⊢
      cases hb'
      exact ⟨l, rfl, hty, hv, hstorable⟩
    · rw [if_neg hname] at hb' ⊢
      exact h.bound name' b' hb'
  free := by
    intro name' hfree
    rw [hscope] at hfree
    rw [hlocals]
    by_cases hname : name = name'
    · rw [if_pos hname] at hfree
      cases hfree
    · rw [if_neg hname] at hfree ⊢
      exact h.free name' hfree

theorem Locals.Typed.declare {types : SymbolTable Ty} (h : locals.Typed σ types scope)
    (storage : Storage IR.Value) (hv : v.HasType σ ty) (hstorable : ty.StorableIn types) :
    Locals.Typed (⟨name, ty, v⟩ :: locals) σ types (scope.declare name ty storage) :=
  h.rebind (b := ⟨name, ty, storage⟩) rfl hv hstorable
    (fun _ => Scope.lookup_declare ..) fun _ => Locals.lookup_cons ..

/-- An assignment to a bound name may move the name to another place. -/
theorem Locals.Typed.assign {types : SymbolTable Ty} {scope' : Scope IR.Value}
    {b b' : Binding IR.Value} (h : locals.Typed σ types scope) (hb : scope.lookup name = some b)
    (hty : b'.ty = b.ty) (hv : v.HasType σ b.ty)
    (hscope : ∀ name', scope'.lookup name'
      = if name = name' then some b' else scope.lookup name') :
    (locals.assign name v).Typed σ types scope' := by
  obtain ⟨l, hl, hlty, _, hstorable⟩ := h.bound name b hb
  rw [← hty] at hlty hv hstorable
  refine h.rebind (l := { l with value := v }) hlty hv hstorable hscope ?_
  intro name'
  rw [Locals.lookup_assign, hl]
  rfl

/-! ## Places -/

theorem yields_value {place : Place} (h : place.HasType σ ty) :
    Yields σ (place.value ty) fun σ' v => v.HasType σ' ty := by
  cases place with
  | held v => exact .pure h
  | global index =>
    unfold Place.value
    cases hpassing : ty.passing with
    | byValue => exact (yields_read h).imp fun σ' v _ hv => (Value.fills_iff hpassing).mp hv
    | byAddress => exact .pure (Value.hasType_model hpassing h)

theorem yields_target (h : v.HasType σ ty) (hmodel : ty.passing = .byAddress) :
    Yields σ (target v) fun σ' ref => σ'.ty? ref = some ty := by
  obtain ⟨ref, rfl, href⟩ := h.model_inv hmodel
  exact .pure href

/-- The fields of a place are contents of its type. -/
theorem yields_fields {place : Place} (h : place.HasType σ ty) :
    Yields σ (place.fields ty) fun σ' v => v.Fills σ' ty := by
  unfold Place.fields
  refine (yields_value h).bind ?_
  intro σ₁ v _ hv
  cases hpassing : ty.passing with
  | byValue => exact .pure ((Value.fills_iff hpassing).mpr hv)
  | byAddress => exact (yields_target hv hpassing).bind fun σ₂ ref _ href => yields_read href

/-- A value of an aggregate is made of values of the types of its fields. -/
theorem yields_construct {vs : List Value} (haggregate : ty.isAggregate = true)
    (h : Value.HaveTypes σ vs ty.fieldTypes) :
    Yields σ (construct ty vs) fun σ' v => v.HasType σ' ty := by
  have hfills := Value.fills_struct haggregate h
  unfold construct
  cases hpassing : ty.passing with
  | byValue => exact .pure ((Value.fills_iff hpassing).mp hfills)
  | byAddress => exact yields_make hpassing hfills

end Settings

end Meaning

/-! ## Terms -/

namespace Emit

variable {α : Type} {offset : Nat} {s s' : Emission}

theorem check_ok {outcome : Except Fault α} {a : α} (h : check offset outcome s = .ok a s') :
    outcome = .ok a := by
  cases outcome with
  | ok value =>
    cases h
    rfl
  | error fault => cases h

theorem require_ok {holds : Bool} {fault : Fault} (h : require holds fault offset s = .ok () s') :
    holds = true := by
  unfold require at h
  split at h
  · assumption
  · cases h

end Emit

namespace BodyContext

open Meaning (Answers Setting)

/-- Wherever the bindings in scope have values, `run` yields what `Q` says. -/
def Secures {α : Type} (names : Declarations) (scope : Scope IR.Value)
    (run : Calls → Locals → Run α) (Q : Shape → α → Prop) : Prop :=
  ∀ σ calls locals, Setting names scope σ calls locals → Yields σ (run calls locals) Q

variable {ctx : BodyContext} {scope : Scope IR.Value} {m : IR.Module}

section Places

variable {σ : Shape} {calls : Calls} {locals : Locals} {name : String} {ty : Ty}
  {storage : Storage IR.Value}

/-- A name that is bound holds a value of its type. -/
theorem place?_local (h : Setting ctx.declarations scope σ calls locals) {b : Binding IR.Value}
    (hb : scope.lookup name = some b) :
    ∃ v, place? ctx.declarations locals name = some (b.ty, .held v) ∧ v.HasType σ b.ty ∧
      b.ty.StorableIn ctx.declarations.types := by
  obtain ⟨l, hl, hty, hv, hstorable⟩ := h.typed.bound name b hb
  refine ⟨l.value, ?_, hv, hstorable⟩
  unfold Meaning.place?
  rw [hl, ← hty]

/-- Any other name that was looked up is that of a global. -/
theorem place?_free (hnames : ctx.declarations.Sound m)
    (h : Setting ctx.declarations scope σ calls locals) (hfree : scope.lookup name = none)
    (hlookup : ctx.lookup? scope name = some (ty, storage)) :
    ∃ index, place? ctx.declarations locals name = some (ty, .global index) ∧
      σ.ty? (.global index) = some ty ∧ ty.StorableIn ctx.declarations.types ∧
      storage = Declaring.globalStorage ty ⟨.global index, .ptr ty.layoutType⟩ := by
  obtain ⟨record, hfind, rfl, rfl⟩ := lookup?_global hfree hlookup
  obtain ⟨index, hentry, hplace⟩ := Meaning.place?_of_find? (h.typed.free name hfree) hfind
  obtain ⟨hstorable, hstored⟩ := hnames.globals index _ hentry
  exact ⟨index, hplace, h.knows index _ hentry, hstorable, hstored⟩

/-- A name that was looked up stands for a place of its type. -/
theorem place?_typed (hnames : ctx.declarations.Sound m)
    (h : Setting ctx.declarations scope σ calls locals)
    (hlookup : ctx.lookup? scope name = some (ty, storage)) :
    ∃ place, place? ctx.declarations locals name = some (ty, place) ∧ place.HasType σ ty ∧
      ty.StorableIn ctx.declarations.types := by
  cases hb : scope.lookup name with
  | some b =>
    obtain ⟨rfl, _⟩ := lookup?_local hb hlookup
    obtain ⟨v, hplace, hv, hstorable⟩ := place?_local h hb
    exact ⟨.held v, hplace, hv, hstorable⟩
  | none =>
    obtain ⟨index, hplace, hty, hstorable, _⟩ := place?_free hnames h hb hlookup
    exact ⟨.global index, hplace, hty, hstorable⟩

end Places

theorem safe_emitWord (hnames : ctx.declarations.Sound m) (expected : Ty) (text : String)
    (stop : Nat) :
    Ensures (ctx.emitWord scope expected text stop) fun _ _ _ =>
      Secures ctx.declarations scope
        (fun _ locals => Meaning.evalWord ctx.declarations locals expected text)
        fun σ v => v.HasType σ expected := by
  intro s value s' h σ calls locals hset
  unfold emitWord at h
  unfold Meaning.evalWord
  cases hliteral : expected.literal? text with
  | some n => exact .pure (Value.hasType_literal σ hliteral)
  | none =>
    rw [hliteral] at h
    dsimp only at h ⊢
    cases hlookup : ctx.lookup? scope text with
    | none =>
      rw [hlookup] at h
      dsimp only at h
      split at h <;> cases h
    | some found =>
      obtain ⟨ty, storage⟩ := found
      rw [hlookup] at h
      obtain ⟨_, s₁, hsame, _⟩ := bind_ok h
      have hty : expected = ty := requireSame_ok (Emit.check_ok hsame)
      subst hty
      obtain ⟨place, hplace, htyped, _⟩ := place?_typed hnames hset hlookup
      rw [hplace]
      exact Meaning.yields_value htyped

theorem safe_emitField (hnames : ctx.declarations.Sound m) (expected : Ty)
    (target member : String) (stop : Nat) :
    Ensures (ctx.emitField scope expected target member stop) fun _ _ _ =>
      Secures ctx.declarations scope
        (fun _ locals => Meaning.evalField ctx.declarations locals target member)
        fun σ v => v.HasType σ expected := by
  intro s value s' h σ calls locals hset
  obtain ⟨⟨ty, storage⟩, s₁, hlookup, h⟩ := bind_ok h
  obtain ⟨⟨index, fieldTy⟩, s₂, hfield, h⟩ := bind_ok h
  obtain ⟨_, s₃, hsame, _⟩ := bind_ok h
  have hfield := Emit.check_ok hfield
  have hty : expected = fieldTy := requireSame_ok (Emit.check_ok hsame)
  subst hty
  obtain ⟨haggregate, hget⟩ := fieldOf_ok hfield
  obtain ⟨place, hplace, htyped, _⟩ :=
    place?_typed hnames hset (lookup_ok (Emit.check_ok hlookup))
  simp only [Meaning.evalField, hplace, field?_of_fieldOf hfield, known_bind]
  refine (Meaning.yields_fields htyped).bind ?_
  intro σ' v _ hv
  obtain ⟨w, hw, hwty⟩ := hv.field haggregate hget
  exact .known hw hwty

/-! ## Calls -/

section Calling

variable {expected : Option Ty} {arguments : List Ty → Emit (List IR.Value)}
  {run : List Ty → Calls → Locals → Run (List Value)}

/-- What a call answers with, and that it is of the type that is expected, if any is. -/
def Meets (expected : Option Ty) (σ : Shape) (r : Option Value) : Prop :=
  ∀ ty, expected = some ty → Answers σ ty r

theorem meets_of_checkResult {signature : Signature} {σ : Shape} {r : Option Value}
    (h : checkResult expected signature = .ok ()) (hr : Answers σ signature.result r) :
    Meets expected σ r := by
  intro ty hty
  subst hty
  have hsame : ty = signature.result := requireSame_ok h
  rw [hsame]
  exact hr

theorem safe_callFunction (hnames : ctx.declarations.Sound m) {callee : String} {stop : Nat}
    (harguments : ∀ types, (∀ ty ∈ types, ty.isVoid = false) → Ensures (arguments types)
      fun _ _ _ => Secures ctx.declarations scope (run types) fun σ vs =>
        Value.HaveTypes σ vs types) :
    Ensures (ctx.callFunction callee stop expected arguments) fun _ _ _ =>
      Secures ctx.declarations scope
        (fun calls locals => Meaning.callFunction ctx.declarations calls callee fun types =>
          run types calls locals)
        (Meets expected) := by
  intro s value s' h σ calls locals hset
  unfold callFunction at h
  cases hfind : ctx.declarations.functions.find? callee with
  | none =>
    rw [hfind] at h
    cases h
  | some record =>
    rw [hfind] at h
    obtain ⟨_, s₁, hresult, h⟩ := bind_ok h
    obtain ⟨args, s₂, hargs, _⟩ := bind_ok h
    simp only [Meaning.callFunction, hfind, known_bind]
    have hmem := SymbolTable.mem_of_find? hfind
    have hserve := hset.serve.functions _ hmem
    have hvalued := (hnames.functions _ hmem).known.valued
    refine (harguments _ hvalued _ _ _ hargs σ calls locals hset).bind ?_
    intro σ₁ vs hle hvs
    refine (hserve σ₁ vs hle hvs).imp ?_
    intro σ₂ r _ hr
    exact meets_of_checkResult (Emit.check_ok hresult) hr

theorem safe_callMethod (hnames : ctx.declarations.Sound m) {target member : String} {stop : Nat}
    (harguments : ∀ types, (∀ ty ∈ types, ty.isVoid = false) → Ensures (arguments types)
      fun _ _ _ => Secures ctx.declarations scope (run types) fun σ vs =>
        Value.HaveTypes σ vs types) :
    Ensures (ctx.callMethod scope target member stop expected arguments) fun _ _ _ =>
      Secures ctx.declarations scope
        (fun calls locals => Meaning.callMethod ctx.declarations calls locals target member
          fun types => run types calls locals)
        (Meets expected) := by
  intro s value s' h σ calls locals hset
  obtain ⟨⟨ty, storage⟩, s₁, hlookup, h⟩ := bind_ok h
  obtain ⟨_, s₂, haggregate, h⟩ := bind_ok h
  have haggregate := Emit.require_ok haggregate
  cases hfind : ctx.declarations.methods.find? (Declarations.methodKey ty member) with
  | none =>
    simp only [hfind] at h
    cases h
  | some record =>
    simp only [hfind] at h
    obtain ⟨_, s₃, hresult, h⟩ := bind_ok h
    obtain ⟨receiver, s₄, _, h⟩ := bind_ok h
    obtain ⟨args, s₅, hargs, _⟩ := bind_ok h
    obtain ⟨place, hplace, htyped, hstorable⟩ :=
      place?_typed hnames hset (lookup_ok (Emit.check_ok hlookup))
    have hmem := SymbolTable.mem_of_find? hfind
    -- The method was declared for the very type of the receiver, not for one of the same name.
    have howner : record.owner = ty :=
      (hnames.methods _ hmem).owner_eq hnames.types hstorable.known haggregate
    have hserve := hset.serve.methods _ hmem
    rw [howner] at hserve
    simp only [Meaning.callMethod, hplace, hfind, known_bind]
    refine (Meaning.yields_value htyped).bind ?_
    intro σ₁ v hle hv
    have hvalued := (hnames.methods _ hmem).known.valued
    refine (harguments _ hvalued _ _ _ hargs σ₁ calls locals (hset.later hle)).bind
      ?_
    intro σ₂ vs hle₂ hvs
    refine (hserve σ₂ (v :: vs) (hle.trans hle₂) (.cons (hv.later hle₂) hvs)).imp
      ?_
    intro σ₃ r _ hr
    exact meets_of_checkResult (Emit.check_ok hresult) hr

/-- The result of a call in a place that calls for a value is one of the type of the place. -/
theorem secures_value {names : Declarations} {ty : Ty} (hvalued : ty.isVoid = false)
    {run : Calls → Locals → Run (Option Value)}
    (h : Secures names scope run (Meets (some ty))) :
    Secures names scope (fun calls locals => do
      let result ← run calls locals
      known result) fun σ v => v.HasType σ ty := by
  intro σ calls locals hset
  refine (h σ calls locals hset).bind ?_
  intro σ' r _ hr
  have hr := hr ty rfl
  cases r with
  | none =>
    -- Nothing is answered only where there are no values.
    have hvoid : ty.isVoid = true := hr
    rw [hvalued] at hvoid
    cases hvoid
  | some v => exact .known rfl hr

end Calling

/-! ## Trees -/

mutual

theorem safe_emitTerm (hnames : ctx.declarations.Sound m) (expected : Ty)
    (hvalued : expected.isVoid = false) (t : Term) :
    Ensures (ctx.emitTerm scope expected t) fun _ _ _ =>
      Secures ctx.declarations scope
        (fun calls locals => Meaning.evalTerm ctx.declarations calls locals expected t)
        fun σ v => v.HasType σ expected := by
  cases t with
  | word text stop =>
    simp only [Meaning.evalTerm]
    exact safe_emitWord hnames expected text stop
  | field target member stop =>
    simp only [Meaning.evalTerm]
    exact safe_emitField hnames expected target member stop
  | call callee stop arguments close =>
    unfold emitTerm
    simp only [Meaning.evalTerm]
    cases hfind : ctx.declarations.types.find? callee with
    | some ty =>
      intro s value s' h σ calls locals hset
      obtain ⟨_, s₁, hsame, h⟩ := bind_ok h
      obtain ⟨fields, s₂, hfields, _⟩ := bind_ok h
      have hty : expected = ty := requireSame_ok (Emit.check_ok hsame)
      subst hty
      obtain ⟨haggregate, _, hknown⟩ := hnames.types.known_of_find? hfind
      have hall := hnames.types.valued_fieldTypes hknown
      refine (safe_emitArguments hnames _ close _ hall arguments _ _ _ hfields σ calls locals
        hset).bind ?_
      intro σ' vs _ hvs
      exact Meaning.yields_construct haggregate hvs
    | none =>
      exact (safe_callFunction hnames fun types htypes =>
        safe_emitArguments hnames _ close types htypes arguments).imp
          fun _ _ _ h => secures_value hvalued h
  | methodCall target member stop arguments close =>
    unfold emitTerm
    simp only [Meaning.evalTerm]
    exact (safe_callMethod hnames fun types htypes =>
      safe_emitArguments hnames _ close types htypes arguments).imp
        fun _ _ _ h => secures_value hvalued h

theorem safe_emitSteps (hnames : ctx.declarations.Sound m) (expected : Ty)
    (hvalued : expected.isVoid = false) (value : IR.Value) (steps : List Step) :
    Ensures (ctx.emitSteps scope expected value steps) fun _ _ _ =>
      ∀ σ calls locals v, Setting ctx.declarations scope σ calls locals → v.HasType σ expected →
        Yields σ (Meaning.evalSteps ctx.declarations calls locals expected v steps)
          fun σ' result => result.HasType σ' expected := by
  cases steps with
  | nil =>
    intro s last s' _ σ calls locals v _ hv
    simp only [Meaning.evalSteps]
    exact .pure hv
  | cons step rest =>
    obtain ⟨operator, stop, operand⟩ := step
    unfold emitSteps
    intro s last s' h σ calls locals v hset hv
    obtain ⟨_, s₁, hinteger, h⟩ := bind_ok h
    obtain ⟨right, s₂, hright, h⟩ := bind_ok h
    obtain ⟨result, s₃, _, hrest⟩ := bind_ok h
    simp only [Meaning.evalSteps]
    refine (safe_emitTerm hnames expected hvalued operand _ _ _ hright σ calls locals hset).bind
      ?_
    intro σ₁ w hle hw
    refine (Meaning.yields_combine operator (Emit.require_ok hinteger) (hv.later hle) hw).bind
      ?_
    intro σ₂ sum hle₂ hsum
    exact safe_emitSteps hnames expected hvalued result rest _ _ _ hrest σ₂ calls locals sum
      (hset.later (hle.trans hle₂)) hsum

theorem safe_emitExpression (hnames : ctx.declarations.Sound m) (expected : Ty)
    (hvalued : expected.isVoid = false) (e : Expression) :
    Ensures (ctx.emitExpression scope expected e) fun _ _ _ =>
      Secures ctx.declarations scope
        (fun calls locals => Meaning.evalExpression ctx.declarations calls locals expected e)
        fun σ v => v.HasType σ expected := by
  obtain ⟨first, steps, stop⟩ := e
  unfold emitExpression
  intro s last s' h σ calls locals hset
  obtain ⟨value, s₁, hfirst, hsteps⟩ := bind_ok h
  simp only [Meaning.evalExpression]
  refine (safe_emitTerm hnames expected hvalued first _ _ _ hfirst σ calls locals hset).bind
    ?_
  intro σ' v hle hv
  exact safe_emitSteps hnames expected hvalued value steps _ _ _ hsteps σ' calls locals v
    (hset.later hle) hv

theorem safe_emitArguments (hnames : ctx.declarations.Sound m) (total close : Nat)
    (types : List Ty) (htypes : ∀ ty ∈ types, ty.isVoid = false) (arguments : List Argument) :
    Ensures (ctx.emitArguments scope total close types arguments) fun _ _ _ =>
      Secures ctx.declarations scope
        (fun calls locals => Meaning.evalArguments ctx.declarations calls locals types arguments)
        fun σ vs => Value.HaveTypes σ vs types := by
  cases arguments with
  | nil =>
    cases types with
    | nil =>
      intro s values s' _ σ calls locals _
      simp only [Meaning.evalArguments]
      exact .pure .nil
    | cons ty types =>
      intro s values s' h
      unfold emitArguments at h
      cases h
  | cons argument rest =>
    obtain ⟨label, start, value⟩ := argument
    cases types with
    | nil =>
      intro s values s' h
      unfold emitArguments at h
      cases h
    | cons ty types =>
      rw [List.forall_mem_cons] at htypes
      unfold emitArguments
      intro s values s' h σ calls locals hset
      obtain ⟨first, s₁, hfirst, h⟩ := bind_ok h
      obtain ⟨others, s₂, hothers, _⟩ := bind_ok h
      simp only [Meaning.evalArguments]
      refine (safe_emitExpression hnames ty htypes.1 value _ _ _ hfirst σ calls locals hset).bind
        ?_
      intro σ₁ v hle hv
      refine (safe_emitArguments hnames total close types htypes.2 rest _ _ _ hothers σ₁ calls
        locals (hset.later hle)).bind ?_
      intro σ₂ vs hle₂ hvs
      exact .pure (.cons (hv.later hle₂) hvs)

end

end BodyContext

end Straightline
