import Straightline.Proofs.Declaring.Records
import Straightline.Proofs.IR.Renumbering
import Straightline.Proofs.Reading.Relocation
import Straightline.Proofs.Trees.Emission

/-!
# A body elsewhere, among functions under other numbers

What is made of a body depends on where it stands only in the offsets that it is refused or warned at, and on
the numbers of functions only in its calls. So a body that stands at other offsets and is compiled with tables
that give functions other numbers comes to the same (`Emit.Mirrors`): the same instructions with their calls
renumbered, the same warnings and the same refusal with their offsets changed.
-/

set_option autoImplicit false

namespace Straightline

/-! ## Tables with other numbers -/

def FunctionRecord.renumber (σ : IR.FunctionId → IR.FunctionId) (r : FunctionRecord) :
    FunctionRecord :=
  { r with function := σ r.function }

def MethodRecord.renumber (σ : IR.FunctionId → IR.FunctionId) (r : MethodRecord) : MethodRecord :=
  { r with function := σ r.function }

/-- `d'` has the same types and globals, and under the same names the same functions and methods with other
numbers. -/
structure Declarations.Renumbered (σ : IR.FunctionId → IR.FunctionId) (d d' : Declarations) : Prop where
  types : d'.types = d.types
  globals : d'.globals = d.globals
  functions : ∀ name, d'.functions.find? name
    = (d.functions.find? name).map (FunctionRecord.renumber σ)
  methods : ∀ key, d'.methods.find? key = (d.methods.find? key).map (MethodRecord.renumber σ)

/-- The tables as they are have the numbers they have. -/
theorem Declarations.Renumbered.refl (d : Declarations) : d.Renumbered id d where
  types := rfl
  globals := rfl
  functions name := by cases d.functions.find? name <;> rfl
  methods key := by cases d.methods.find? key <;> rfl

/-- What is found of a function under either of two tables, whatever bodies have been compiled. -/
theorem Declarations.Renumbered.function? {σ : IR.FunctionId → IR.FunctionId} {d d' : Declarations}
    (h : d.settled.Renumbered σ d'.settled) (name : String) :
    (d.functions.find? name = none ∧ d'.functions.find? name = none) ∨
    ∃ r resume, d.functions.find? name = some r ∧
      d'.functions.find? name = some { r with function := σ r.function, resume } := by
  have hfound := h.functions name
  simp only [settled, SymbolTable.find?_map, Option.map_map] at hfound
  cases hr : d.functions.find? name with
  | none =>
    rw [hr, Option.map_none, Option.map_eq_none_iff] at hfound
    exact .inl ⟨rfl, hfound⟩
  | some r =>
    rw [hr, Option.map_some, Option.map_eq_some_iff] at hfound
    obtain ⟨r', hr', he⟩ := hfound
    cases r
    cases r'
    cases he
    exact .inr ⟨_, _, rfl, hr'⟩

theorem Declarations.Renumbered.method? {σ : IR.FunctionId → IR.FunctionId} {d d' : Declarations}
    (h : d.settled.Renumbered σ d'.settled) (key : String) :
    (d.methods.find? key = none ∧ d'.methods.find? key = none) ∨
    ∃ r resume, d.methods.find? key = some r ∧
      d'.methods.find? key = some { r with function := σ r.function, resume } := by
  have hfound := h.methods key
  simp only [settled, SymbolTable.find?_map, Option.map_map] at hfound
  cases hr : d.methods.find? key with
  | none =>
    rw [hr, Option.map_none, Option.map_eq_none_iff] at hfound
    exact .inl ⟨rfl, hfound⟩
  | some r =>
    rw [hr, Option.map_some, Option.map_eq_some_iff] at hfound
    obtain ⟨r', hr', he⟩ := hfound
    cases r
    cases r'
    cases he
    exact .inr ⟨_, _, rfl, hr'⟩

/-! ## Outcomes at other offsets -/

/-- The event with its offset changed by `f`. -/
def Event.relocate (f : Nat → Nat) : Event → Event
  | bodyStarted function resume => bodyStarted function (f resume)
  | unreachableStatement function start => unreachableStatement function (f start)
  | ignoredResult function start => ignoredResult function (f start)
  | event => event

def Refusal.relocate (f : Nat → Nat) (r : Refusal) : Refusal := { r with offset := f r.offset }

namespace Emit

variable {α β : Type} {T : IR.Builder → IR.Builder → Prop} {f : Nat → Nat}

/-- How a run that begins in `s'` ends, compared with one that begins in `s`. -/
inductive Mirrored (T : IR.Builder → IR.Builder → Prop) (f : Nat → Nat) (s s' : Emission) :
    EStateM.Result Refusal Emission α → EStateM.Result Refusal Emission α → Prop where
  | ok {a : α} {t t' : Emission} (more : List Event) (related : T t.builder t'.builder)
      (log : t.log = s.log ++ more) (log' : t'.log = s'.log ++ more.map (Event.relocate f)) :
      Mirrored T f s s' (.ok a t) (.ok a t')
  | error {refusal : Refusal} {t t' : Emission} (more : List Event)
      (related : T t.builder t'.builder) (log : t.log = s.log ++ more)
      (log' : t'.log = s'.log ++ more.map (Event.relocate f)) :
      Mirrored T f s s' (.error refusal t) (.error (refusal.relocate f) t')

/-- What happened before is put in front. -/
theorem Mirrored.after {s s' s₁ s₁' : Emission} {r r' : EStateM.Result Refusal Emission α}
    (h : Mirrored T f s₁ s₁' r r') {before : List Event} (hlog : s₁.log = s.log ++ before)
    (hlog' : s₁'.log = s'.log ++ before.map (Event.relocate f)) : Mirrored T f s s' r r' := by
  cases h with
  | ok more related log log' =>
    refine .ok (before ++ more) related ?_ ?_
    · rw [log, hlog, List.append_assoc]
    · rw [log', hlog', List.map_append, List.append_assoc]
  | error more related log log' =>
    refine .error (before ++ more) related ?_ ?_
    · rw [log, hlog, List.append_assoc]
    · rw [log', hlog', List.map_append, List.append_assoc]

/-- From builders that `T` relates `m'` does what `m` does, at offsets that `f` has changed. -/
def Mirrors (T : IR.Builder → IR.Builder → Prop) (f : Nat → Nat) (m m' : Emit α) : Prop :=
  ∀ s s' : Emission, T s.builder s'.builder → Mirrored T f s s' (m s) (m' s')

namespace Mirrors

theorem pure (a : α) : Mirrors T f (pure a) (pure a) :=
  fun _ _ h => .ok [] h (List.append_nil _).symm (List.append_nil _).symm

theorem refuse (fault : Fault) (offset : Nat) :
    Mirrors T f (Emit.refuse fault offset : Emit α) (Emit.refuse fault (f offset)) :=
  fun _ _ h => .error [] h (List.append_nil _).symm (List.append_nil _).symm

theorem bind {m m' : Emit α} {k k' : α → Emit β} (hm : Mirrors T f m m')
    (hk : ∀ a, Mirrors T f (k a) (k' a)) : Mirrors T f (m >>= k) (m' >>= k') := by
  intro s s' h
  have hs := hm s s' h
  generalize hr : m s = r at hs
  generalize hr' : m' s' = r' at hs
  cases hs with
  | ok more related log log' =>
    rw [bind_of_ok hr, bind_of_ok hr']
    exact (hk _ _ _ related).after log log'
  | error more related log log' =>
    rw [bind_of_error hr, bind_of_error hr']
    exact .error more related log log'

theorem discard {m m' : Emit α} (hm : Mirrors T f m m') :
    Mirrors T f (discard m) (discard m') := by
  rw [discard_eq, discard_eq]
  exact hm.bind fun _ => pure ()

theorem build {step step' : IR.Build α} (h : IR.Build.Parallel T step step') :
    Mirrors T f (Emit.build step) (Emit.build step') := by
  intro s s' hs
  obtain ⟨hvalue, hbuilder⟩ := h s.builder s'.builder hs
  have hleft : Emit.build step s
      = .ok (step s.builder).1 { s with builder := (step s.builder).2 } := rfl
  have hright : Emit.build step' s'
      = .ok (step s.builder).1 { s' with builder := (step' s'.builder).2 } := by
    rw [← hvalue]
    rfl
  rw [hleft, hright]
  exact .ok [] hbuilder (List.append_nil _).symm (List.append_nil _).symm

theorem report (event : Event) :
    Mirrors T f (Emit.report event) (Emit.report (event.relocate f)) :=
  fun _ _ h => .ok [event] h rfl rfl

theorem require (holds : Bool) (fault : Fault) (offset : Nat) :
    Mirrors T f (Emit.require holds fault offset) (Emit.require holds fault (f offset)) := by
  unfold Emit.require
  split
  · exact pure ()
  · exact refuse _ _

theorem check (offset : Nat) {outcome outcome' : Except Fault α} (h : outcome' = outcome) :
    Mirrors T f (Emit.check offset outcome) (Emit.check (f offset) outcome') := by
  subst h
  cases outcome' with
  | ok value => exact pure _
  | error fault => exact refuse _ _

end Mirrors

end Emit

namespace BodyContext

open Emit IR.Build

variable {σ : IR.FunctionId → IR.FunctionId} {T : IR.Builder → IR.Builder → Prop} {f : Nat → Nat}
  {ctx ctx' : BodyContext} {scope : Scope IR.Value}

/-- The same body is compiled with tables that give functions other numbers. -/
structure Renumbered (σ : IR.FunctionId → IR.FunctionId) (ctx ctx' : BodyContext) : Prop where
  declarations : ctx.declarations.settled.Renumbered σ ctx'.declarations.settled
  function : ctx'.function = ctx.function
  result : ctx'.result = ctx.result

theorem Renumbered.refl (ctx : BodyContext) : ctx.Renumbered id ctx := ⟨.refl _, rfl, rfl⟩

theorem Renumbered.types (h : ctx.Renumbered σ ctx') : ctx'.declarations.types = ctx.declarations.types :=
  h.declarations.types

theorem Renumbered.lookup? (h : ctx.Renumbered σ ctx') (scope : Scope IR.Value) (name : String) :
    ctx'.lookup? scope name = ctx.lookup? scope name := by
  have hglobals : ctx'.declarations.globals = ctx.declarations.globals := h.declarations.globals
  simp only [BodyContext.lookup?, hglobals]

theorem Renumbered.lookup (h : ctx.Renumbered σ ctx') (scope : Scope IR.Value) (name : String) :
    ctx'.lookup scope name = ctx.lookup scope name := by
  simp only [BodyContext.lookup, h.lookup?]

theorem stop_relocate (f : Nat → Nat) (e : Expression) : (e.relocate f).stop = f e.stop := by
  obtain ⟨first, steps, stop⟩ := e
  rw [Expression.relocate]
  rfl

variable (hT : IR.Build.Alike σ T)
include hT

/-! ## Values -/

theorem mirrors_valueOf (storage : Storage IR.Value) :
    Mirrors T f (valueOf storage) (valueOf storage) := by
  cases storage with
  | slot address => exact .build (hT.load address)
  | direct value => exact .pure _

theorem mirrors_spill (ty : Ty) (name : Option String) (value : IR.Value) :
    Mirrors T f (spill ty name value) (spill ty name value) :=
  .bind (.build (hT.emit _ (.alloca _ _))) fun _ =>
    .bind (.build (hT.store _ _)) fun _ => .pure _

theorem mirrors_fieldsAddress (ty : Ty) (storage : Storage IR.Value) :
    Mirrors T f (fieldsAddress ty storage) (fieldsAddress ty storage) := by
  unfold fieldsAddress
  split
  · exact .build (hT.load _)
  · exact .pure _
  · exact .pure _
  · exact mirrors_spill hT _ _ _

theorem mirrors_construct (ty : Ty) (fields : List IR.Value) :
    Mirrors T f (construct ty fields) (construct ty fields) := by
  refine .bind (.build (hT.struct _ _)) ?_
  intro value
  split
  · exact .pure _
  · exact .bind (.build (hT.emit _ (.heapAlloc _))) fun _ =>
      .bind (.build (hT.store _ _)) fun _ => .pure _

theorem parallel_emitOperator (operator : Operator) (lhs rhs : IR.Value) :
    IR.Build.Parallel T (emitOperator operator lhs rhs) (emitOperator operator lhs rhs) := by
  cases operator with
  | add => exact hT.emit _ (.add lhs rhs)
  | sub => exact hT.emit _ (.sub lhs rhs)

/-! ## Expressions -/

theorem mirrors_emitWord (h : ctx.Renumbered σ ctx') (expected : Ty) (text : String) (stop : Nat) :
    Mirrors T f (ctx.emitWord scope expected text stop) (ctx'.emitWord scope expected text (f stop)) := by
  unfold emitWord
  rw [h.lookup?]
  split
  · exact .pure _
  · split
    · exact .bind (.check _ rfl) fun _ => mirrors_valueOf hT _
    · split <;> exact .refuse _ _

theorem mirrors_emitField (h : ctx.Renumbered σ ctx') (expected : Ty) (target member : String)
    (stop : Nat) :
    Mirrors T f (ctx.emitField scope expected target member stop)
      (ctx'.emitField scope expected target member (f stop)) := by
  unfold emitField
  exact .bind (.check _ (h.lookup _ _)) fun _ => .bind (.check _ rfl) fun _ => .bind (.check _ rfl) fun _ =>
    .bind (mirrors_fieldsAddress hT _ _) fun _ => .bind (.build (hT.fieldAddr _ _)) fun _ =>
      .build (hT.load _)

theorem mirrors_callFunction (h : ctx.Renumbered σ ctx') {callee : String} {stop : Nat}
    {expected : Option Ty} {arguments arguments' : List Ty → Emit (List IR.Value)}
    (harguments : ∀ types, Mirrors T f (arguments types) (arguments' types)) :
    Mirrors T f (ctx.callFunction callee stop expected arguments)
      (ctx'.callFunction callee (f stop) expected arguments') := by
  unfold callFunction
  rcases h.declarations.function? callee with ⟨hnone, hnone'⟩ | ⟨record, resume, hfound, hfound'⟩
  · rw [hnone, hnone']
    exact .refuse _ _
  · rw [hfound, hfound']
    exact .bind (.check _ rfl) fun _ => .bind (harguments _) fun _ =>
      .build (hT.call record.function _)

theorem mirrors_callMethod (h : ctx.Renumbered σ ctx') {target member : String} {stop : Nat}
    {expected : Option Ty} {arguments arguments' : List Ty → Emit (List IR.Value)}
    (harguments : ∀ types, Mirrors T f (arguments types) (arguments' types)) :
    Mirrors T f (ctx.callMethod scope target member stop expected arguments)
      (ctx'.callMethod scope target member (f stop) expected arguments') := by
  unfold callMethod
  refine .bind (.check _ (h.lookup _ _)) fun found => .bind (.require _ _ _) ?_
  intro _
  rcases h.declarations.method? (Declarations.methodKey found.1 member) with
    ⟨hnone, hnone'⟩ | ⟨record, resume, hfound, hfound'⟩
  · rw [hnone, hnone']
    exact .refuse _ _
  · rw [hfound, hfound']
    exact .bind (.check _ rfl) fun _ => .bind (mirrors_valueOf hT _) fun _ =>
      .bind (harguments _) fun _ => .build (hT.call record.function _)

set_option linter.unusedSectionVars false in
mutual

theorem mirrors_emitTerm (h : ctx.Renumbered σ ctx') (expected : Ty) (t : Term) :
    Mirrors T f (ctx.emitTerm scope expected t) (ctx'.emitTerm scope expected (t.relocate f)) := by
  cases t with
  | word text stop => exact mirrors_emitWord hT h _ _ _
  | field target member stop => exact mirrors_emitField hT h _ _ _ _
  | call callee stop arguments close =>
    unfold Term.relocate emitTerm
    rw [h.types]
    split
    · exact .bind (.check _ rfl) fun _ =>
        .bind (mirrors_emitArguments h _ _ _ arguments) fun _ => mirrors_construct hT _ _
    · exact mirrors_callFunction hT h fun types => mirrors_emitArguments h _ _ _ arguments
  | methodCall target member stop arguments close =>
    unfold Term.relocate emitTerm
    exact mirrors_callMethod hT h fun types => mirrors_emitArguments h _ _ _ arguments

theorem mirrors_emitSteps (h : ctx.Renumbered σ ctx') (expected : Ty) (value : IR.Value)
    (steps : List Step) :
    Mirrors T f (ctx.emitSteps scope expected value steps)
      (ctx'.emitSteps scope expected value (Step.relocate f steps)) := by
  cases steps with
  | nil => exact .pure _
  | cons step rest =>
    obtain ⟨operator, stop, operand⟩ := step
    unfold Step.relocate emitSteps
    exact .bind (.require _ _ _) fun _ => .bind (mirrors_emitTerm h expected operand) fun _ =>
      .bind (.build (parallel_emitOperator hT _ _ _)) fun result =>
        mirrors_emitSteps h expected result rest

theorem mirrors_emitExpression (h : ctx.Renumbered σ ctx') (expected : Ty) (e : Expression) :
    Mirrors T f (ctx.emitExpression scope expected e)
      (ctx'.emitExpression scope expected (e.relocate f)) := by
  obtain ⟨first, steps, stop⟩ := e
  unfold Expression.relocate emitExpression
  exact .bind (mirrors_emitTerm h expected first) fun value =>
    mirrors_emitSteps h expected value steps

theorem mirrors_emitArguments (h : ctx.Renumbered σ ctx') (total close : Nat) (types : List Ty)
    (arguments : List Argument) :
    Mirrors T f (ctx.emitArguments scope total close types arguments)
      (ctx'.emitArguments scope total (f close) types (Argument.relocate f arguments)) := by
  cases arguments with
  | nil =>
    cases types with
    | nil => unfold Argument.relocate emitArguments; exact .pure _
    | cons ty types => unfold Argument.relocate emitArguments; exact .refuse _ _
  | cons argument rest =>
    obtain ⟨label, start, value⟩ := argument
    cases types with
    | nil => unfold Argument.relocate emitArguments; exact .refuse _ _
    | cons ty types =>
      unfold Argument.relocate emitArguments
      exact .bind (mirrors_emitExpression h ty value) fun _ =>
        .bind (mirrors_emitArguments h total close types rest) fun _ => .pure _

end

/-! ## Statements -/

theorem mirrors_emitAssign (h : ctx.Renumbered σ ctx') (name : String) (stop : Nat)
    (value : Expression) :
    Mirrors T f (ctx.emitAssign scope name stop value)
      (ctx'.emitAssign scope name (f stop) (value.relocate f)) := by
  unfold emitAssign
  rw [stop_relocate]
  refine .bind (.check _ (h.lookup _ _)) fun found => .bind (mirrors_emitExpression hT h _ value) ?_
  intro result
  split
  · exact .bind (.build (hT.store _ _)) fun _ => .pure _
  · split
    · exact .bind (mirrors_spill hT _ _ _) fun _ => .pure _
    · exact .refuse _ _

theorem mirrors_emitReturn (h : ctx.Renumbered σ ctx') (value : Option Expression) (start : Nat) :
    Mirrors T f (ctx.emitReturn scope value start)
      (ctx'.emitReturn scope (value.map (Expression.relocate f)) (f start)) := by
  have hret : ∀ value, Mirrors T f (build (ret value)) (build (ret value)) :=
    fun value => .build (hT.emit _ (.ret value)).discard
  unfold emitReturn
  rw [h.result, h.function]
  cases ctx.result.isVoid with
  | true =>
    cases value with
    | none => exact hret none
    | some value => exact .bind (.report (.ignoredResult _ _)) fun _ => hret none
  | false =>
    cases value with
    | none => exact .refuse _ _
    | some value => exact .bind (mirrors_emitExpression hT h _ value) fun _ => hret _

theorem mirrors_emitAll (h : ctx.Renumbered σ ctx') (arguments : List Argument) (close : Nat)
    (types : List Ty) :
    Mirrors T f (ctx.emitAll scope arguments close types)
      (ctx'.emitAll scope (Argument.relocate f arguments) (f close) types) :=
  mirrors_emitArguments hT h _ _ _ _

theorem mirrors_emitStatement (h : ctx.Renumbered σ ctx') (s : Statement) :
    Mirrors T f (ctx.emitStatement scope s) (ctx'.emitStatement scope (s.relocate f)) := by
  cases s with
  | ret value start =>
    cases value <;> exact .bind (mirrors_emitReturn hT h _ start) fun _ => .pure _
  | cond stop condition thenBlock elseBlock => cases elseBlock <;> exact .refuse _ _
  | call callee stop arguments close =>
    exact .bind (mirrors_callFunction hT h fun _ => mirrors_emitAll hT h _ _ _).discard fun _ => .pure _
  | methodCall target member stop arguments close =>
    exact .bind (mirrors_callMethod hT h fun _ => mirrors_emitAll hT h _ _ _).discard fun _ => .pure _
  | assignField target member stop value =>
    exact .bind (.check _ (h.lookup _ _)) fun _ => .bind (.check _ rfl) fun _ =>
      .bind (mirrors_fieldsAddress hT _ _) fun _ => .bind (mirrors_emitExpression hT h _ value) fun _ =>
        .bind (.build (hT.fieldAddr _ _)) fun _ =>
          .bind (.build (hT.store _ _)) fun _ => .pure _
  | declare name typeName stop value =>
    exact .bind (.check _ (by rw [h.types])) fun _ => .bind (.check _ rfl) fun _ =>
      .bind (.build (hT.emit _ (.alloca _ _))) fun _ =>
        .bind (mirrors_emitExpression hT h _ value) fun _ =>
          .bind (.build (hT.store _ _)) fun _ => .pure _
  | assign name stop value => exact .bind (mirrors_emitAssign hT h _ _ _) fun _ => .pure _

theorem mirrors_emitLines (h : ctx.Renumbered σ ctx') (close : Nat) (scope : Scope IR.Value)
    (lines : List Line) :
    Mirrors T f (ctx.emitLines close scope lines)
      (ctx'.emitLines (f close) scope (Line.relocate f lines)) := by
  induction lines generalizing scope with
  | nil =>
    unfold Line.relocate emitLines
    rw [h.function]
    exact .refuse _ _
  | cons line rest ih =>
    obtain ⟨start, statement⟩ := line
    unfold Line.relocate emitLines
    refine .bind (mirrors_emitStatement hT h statement) ?_
    intro after
    cases after with
    | some scope => exact ih scope
    | none =>
      dsimp only
      rw [h.function]
      clear ih
      induction rest with
      | nil => exact .pure _
      | cons line rest ih =>
        obtain ⟨start, statement⟩ := line
        unfold Line.relocate
        exact .bind (.report (.unreachableStatement _ _)) fun _ => ih

/-- A block that stands elsewhere, in a body that is compiled with other numbers for functions, comes to the
same. -/
theorem mirrors_emitBlock (h : ctx.Renumbered σ ctx') (block : Block) :
    Mirrors T f (ctx.emitBlock scope block) (ctx'.emitBlock scope (block.relocate f)) := by
  obtain ⟨lines, close⟩ := block
  exact mirrors_emitLines hT h close scope lines

/-! ## Whole bodies -/

theorem mirrors_bindParameters (function : IR.FunctionId) (index : Nat) (scope : Scope IR.Value)
    (parameters : List (String × Ty)) :
    Mirrors T f (bindParameters function index scope parameters)
      (bindParameters (σ function) index scope parameters) := by
  induction parameters generalizing index scope with
  | nil => exact .pure _
  | cons parameter rest ih =>
    obtain ⟨name, ty⟩ := parameter
    refine .bind (.build (hT.param _ _)) fun value => .bind ?_ fun _ => ih _ _
    unfold parameterStorage
    split
    · exact .bind (mirrors_spill hT _ _ _) fun _ => .pure _
    · exact .pure _

omit hT in
/-- Where a body stands is all that its offsets tell, and the numbers of functions all that tables can tell
apart: with neither changed, a block comes to the very same. -/
theorem emitBlock_of_renumbered (h : ctx.Renumbered id ctx') (block : Block) :
    ctx'.emitBlock scope block = ctx.emitBlock scope block := by
  funext s
  have hmirrored : Mirrored Eq id s s (ctx.emitBlock scope block s) (ctx'.emitBlock scope (block.relocate id) s) :=
    mirrors_emitBlock .eq h block s s rfl
  rw [block.relocate_id] at hmirrored
  have hevents : ∀ events : List Event, events.map (Event.relocate id) = events := by
    intro events
    refine (List.map_congr_left fun event _ => ?_).trans (List.map_id events)
    cases event <;> rfl
  generalize ctx.emitBlock scope block s = r at hmirrored ⊢
  generalize ctx'.emitBlock scope block s = r' at hmirrored ⊢
  cases hmirrored with
  | @ok a t t' more related log log' =>
    obtain ⟨builder, events⟩ := t
    obtain ⟨builder', events'⟩ := t'
    rw [hevents] at log'
    cases related
    cases log
    cases log'
    rfl
  | @error refusal t t' more related log log' =>
    obtain ⟨builder, events⟩ := t
    obtain ⟨builder', events'⟩ := t'
    rw [hevents] at log'
    cases related
    cases log
    cases log'
    rfl

omit hT in
/-- A body comes to the same whichever of the other bodies have been compiled by then. -/
theorem emitPending_of_settled {d d' : Declarations} (h : d'.settled = d.settled) (source : List UInt8)
    (body : PendingBody) : emitPending d' source body = emitPending d source body := by
  have hctx : Renumbered id ⟨d, body.name, body.result⟩ ⟨d', body.name, body.result⟩ :=
    ⟨h ▸ Declarations.Renumbered.refl _, rfl, rfl⟩
  have hblock : ∀ (scope : Scope IR.Value) (block : Block), emitBlock ⟨d', body.name, body.result⟩ scope block
      = emitBlock ⟨d, body.name, body.result⟩ scope block := fun _ => emitBlock_of_renumbered hctx
  simp only [emitPending, emitOpened, emitBlockAt, hblock]

end BodyContext

end Straightline
