import Straightline.Proofs.Reading.Span
import Straightline.Proofs.Trees.Emission

/-!
# What a body that was read can still be refused for

The second pass works on a tree. Two facts about its refusals are proved together, term by term:

* the cause is one of meaning (`Fault.isSemantic`), never one of grammar;
* it is told at an offset that the tree keeps.

Grammar is out of the question here because a tree is at hand: whether there is one was decided by
the reader.
-/

set_option autoImplicit false

namespace Straightline

namespace Fault

/-- Whether the fault lies in what a well-formed body means. An unknown operation does if it is one
of the two that the language has, applied to values it does not apply to. -/
def isSemantic : Fault → Bool
  | unknownVariable _ | unknownFunction _ | unknownType _ | invalidMember _ | typeMismatch _ _
  | tooManyArguments _ | tooFewArguments _ _ | missingReturn _ | unsupportedStatement _ => true
  | unknownOperation symbol => symbol == Operator.add.symbol || symbol == Operator.sub.symbol
  | unknownStatement _ | unexpectedEnd | missingType _ | missingComma | missingArrow
  | missingAssignment | missingCharacter _ | invalidTypeDefinition _ | redefinition _ => false

end Fault

/-- A cause of meaning, told at one of `offsets`. -/
def Refusal.SemanticAt (offsets : List Nat) (r : Refusal) : Prop :=
  r.fault.isSemantic = true ∧ r.offset ∈ offsets

theorem Refusal.SemanticAt.mono {os os' : List Nat} (h : os ⊆ os') :
    ∀ r, Refusal.SemanticAt os r → Refusal.SemanticAt os' r :=
  fun _ hr => ⟨hr.1, h hr.2⟩

/-! ## The steps of emission -/

namespace Emit

variable {α : Type} {P : Refusal → Prop}

theorem refuses_build (step : IR.Build α) : Refuses (build step) P := by
  intro s r s' h
  cases h

theorem refuses_report (event : Event) : Refuses (report event) P := by
  intro s r s' h
  cases h

theorem refuses_refuse {fault : Fault} {offset : Nat} (h : P ⟨fault, offset⟩) :
    Refuses (refuse fault offset : Emit α) P := Refuses.throw h

theorem refuses_require {holds : Bool} {fault : Fault} {offset : Nat} (h : P ⟨fault, offset⟩) :
    Refuses (Emit.require holds fault offset) P := by
  unfold Emit.require
  split
  · exact .pure _
  · exact refuses_refuse h

theorem refuses_check {offset : Nat} {outcome : Except Fault α}
    (h : ∀ fault, outcome = .error fault → P ⟨fault, offset⟩) :
    Refuses (Emit.check offset outcome) P := by
  cases outcome with
  | ok value => exact .pure _
  | error fault => exact refuses_refuse (h fault rfl)

end Emit

/-! ## Checks that emission makes -/

theorem Ty.isSemantic_requireSame {expected found : Ty} {fault : Fault}
    (h : expected.requireSame found = .error fault) : fault.isSemantic = true := by
  unfold Ty.requireSame at h
  split at h <;> cases h
  rfl

theorem Ty.isSemantic_fieldOf {ty : Ty} {member : String} {fault : Fault}
    (h : ty.fieldOf member = .error fault) : fault.isSemantic = true := by
  unfold Ty.fieldOf at h
  split at h <;> cases h
  rfl

theorem Ty.isSemantic_resolve {types : SymbolTable Ty} {name : String} {fault : Fault}
    (h : Ty.resolve types name = .error fault) : fault.isSemantic = true := by
  unfold Ty.resolve at h
  split at h
  · cases h
  · split at h <;> cases h
    rfl

theorem Ty.isSemantic_requireStorable {ty : Ty} {binding : String} {fault : Fault}
    (h : ty.requireStorable binding = .error fault) : fault.isSemantic = true := by
  unfold Ty.requireStorable at h
  split at h <;> cases h
  rfl

theorem isSemantic_unknownOperation (operator : Operator) :
    (Fault.unknownOperation operator.symbol).isSemantic = true := by
  cases operator <;> rfl

namespace BodyContext

variable {ctx : BodyContext} {scope : Scope IR.Value} {os : List Nat}

theorem isSemantic_lookup {name : String} {fault : Fault}
    (h : ctx.lookup scope name = .error fault) : fault.isSemantic = true := by
  unfold lookup at h
  split at h <;> cases h
  rfl

theorem isSemantic_checkResult {expected : Option Ty} {signature : Signature} {fault : Fault}
    (h : checkResult expected signature = .error fault) : fault.isSemantic = true := by
  cases expected with
  | none => cases h
  | some ty => exact Ty.isSemantic_requireSame h

/-! ## Parts that only build -/

theorem refuses_valueOf {P : Refusal → Prop} (storage : Storage IR.Value) :
    Refuses (valueOf storage) P := by
  cases storage with
  | slot address => exact Emit.refuses_build _
  | direct value => exact .pure _

theorem refuses_spill {P : Refusal → Prop} (ty : Ty) (name : Option String) (value : IR.Value) :
    Refuses (spill ty name value) P :=
  (Emit.refuses_build _).bind fun _ => (Emit.refuses_build _).bind fun _ => .pure _

theorem refuses_fieldsAddress {P : Refusal → Prop} (ty : Ty) (storage : Storage IR.Value) :
    Refuses (fieldsAddress ty storage) P := by
  unfold fieldsAddress
  split
  · exact Emit.refuses_build _
  · exact .pure _
  · exact .pure _
  · exact refuses_spill _ _ _

theorem refuses_construct {P : Refusal → Prop} (ty : Ty) (fields : List IR.Value) :
    Refuses (construct ty fields) P := by
  refine (Emit.refuses_build _).bind ?_
  intro value
  split
  · exact .pure _
  · exact (Emit.refuses_build _).bind fun _ => (Emit.refuses_build _).bind fun _ => .pure _

/-! ## Terms -/

theorem refuses_emitWord {expected : Ty} {text : String} {stop : Nat} (hstop : stop ∈ os) :
    Refuses (ctx.emitWord scope expected text stop) (Refusal.SemanticAt os) := by
  unfold emitWord
  split
  · exact .pure _
  · split
    · exact (Emit.refuses_check fun _ h => ⟨Ty.isSemantic_requireSame h, hstop⟩).bind
        fun _ => refuses_valueOf _
    · split
      · exact Emit.refuses_refuse ⟨rfl, hstop⟩
      · exact Emit.refuses_refuse ⟨rfl, hstop⟩

theorem refuses_emitField {expected : Ty} {target member : String} {stop : Nat}
    (hstop : stop ∈ os) :
    Refuses (ctx.emitField scope expected target member stop) (Refusal.SemanticAt os) := by
  refine (Emit.refuses_check fun _ h => ⟨isSemantic_lookup h, hstop⟩).bind ?_
  intro found
  refine (Emit.refuses_check fun _ h => ⟨Ty.isSemantic_fieldOf h, hstop⟩).bind ?_
  intro field
  refine (Emit.refuses_check fun _ h => ⟨Ty.isSemantic_requireSame h, hstop⟩).bind ?_
  intro _
  refine (refuses_fieldsAddress _ _).bind fun _ => (Emit.refuses_build _).bind ?_
  intro _
  exact Emit.refuses_build _

theorem refuses_callFunction {callee : String} {stop : Nat} {expected : Option Ty}
    {arguments : List Ty → Emit (List IR.Value)} (hstop : stop ∈ os)
    (harguments : ∀ types, Refuses (arguments types) (Refusal.SemanticAt os)) :
    Refuses (ctx.callFunction callee stop expected arguments) (Refusal.SemanticAt os) := by
  unfold callFunction
  split
  · exact Emit.refuses_refuse ⟨rfl, hstop⟩
  · refine (Emit.refuses_check fun _ h => ⟨isSemantic_checkResult h, hstop⟩).bind ?_
    intro _
    exact (harguments _).bind fun _ => Emit.refuses_build _

theorem refuses_callMethod {target member : String} {stop : Nat} {expected : Option Ty}
    {arguments : List Ty → Emit (List IR.Value)} (hstop : stop ∈ os)
    (harguments : ∀ types, Refuses (arguments types) (Refusal.SemanticAt os)) :
    Refuses (ctx.callMethod scope target member stop expected arguments)
      (Refusal.SemanticAt os) := by
  refine (Emit.refuses_check fun _ h => ⟨isSemantic_lookup h, hstop⟩).bind ?_
  intro found
  refine (Emit.refuses_require ⟨rfl, hstop⟩).bind ?_
  intro _
  split
  · exact Emit.refuses_refuse ⟨rfl, hstop⟩
  · refine (Emit.refuses_check fun _ h => ⟨isSemantic_checkResult h, hstop⟩).bind ?_
    intro _
    refine (refuses_valueOf _).bind fun _ => (harguments _).bind ?_
    intro _
    exact Emit.refuses_build _

mutual

theorem refuses_emitTerm (expected : Ty) (t : Term) :
    Refuses (ctx.emitTerm scope expected t) (Refusal.SemanticAt t.offsets) := by
  cases t with
  | word text stop => exact refuses_emitWord (List.mem_singleton.mpr rfl)
  | field target member stop => exact refuses_emitField (List.mem_singleton.mpr rfl)
  | call callee stop arguments close =>
    have harguments : ∀ types : List Ty, Refuses
        (ctx.emitArguments scope types.length close types arguments)
        (Refusal.SemanticAt (Term.call callee stop arguments close).offsets) :=
      fun types => (refuses_emitArguments types.length close types arguments).imp
        (Refusal.SemanticAt.mono (List.subset_cons_self _ _))
    unfold emitTerm
    split
    · refine (Emit.refuses_check fun _ h =>
        ⟨Ty.isSemantic_requireSame h, List.mem_cons_self⟩).bind ?_
      intro _
      exact (harguments _).bind fun _ => refuses_construct _ _
    · exact refuses_callFunction List.mem_cons_self harguments
  | methodCall target member stop arguments close =>
    unfold emitTerm
    exact refuses_callMethod List.mem_cons_self fun types =>
      (refuses_emitArguments types.length close types arguments).imp
        (Refusal.SemanticAt.mono (List.subset_cons_self _ _))

theorem refuses_emitSteps (expected : Ty) (value : IR.Value) (steps : List Step) :
    Refuses (ctx.emitSteps scope expected value steps)
      (Refusal.SemanticAt (Step.offsets steps)) := by
  cases steps with
  | nil => exact .pure _
  | cons step rest =>
    obtain ⟨operator, stop, operand⟩ := step
    unfold emitSteps
    refine (Emit.refuses_require
      ⟨isSemantic_unknownOperation operator, List.mem_cons_self⟩).bind ?_
    intro _
    refine ((refuses_emitTerm expected operand).imp (Refusal.SemanticAt.mono ?_)).bind
      fun _ => ?_
    · exact fun o ho => List.mem_cons_of_mem _ (List.mem_append_left _ ho)
    refine (Emit.refuses_build _).bind ?_
    intro result
    refine (refuses_emitSteps expected result rest).imp (Refusal.SemanticAt.mono ?_)
    exact fun o ho => List.mem_cons_of_mem _ (List.mem_append_right _ ho)

theorem refuses_emitExpression (expected : Ty) (e : Expression) :
    Refuses (ctx.emitExpression scope expected e) (Refusal.SemanticAt e.offsets) := by
  obtain ⟨first, steps, stop⟩ := e
  unfold emitExpression
  refine ((refuses_emitTerm expected first).imp (Refusal.SemanticAt.mono ?_)).bind
    fun value => ?_
  · exact fun o ho => List.mem_cons_of_mem _ (List.mem_append_left _ ho)
  refine (refuses_emitSteps expected value steps).imp (Refusal.SemanticAt.mono ?_)
  exact fun o ho => List.mem_cons_of_mem _ (List.mem_append_right _ ho)

/-- One argument too few is told after the list, one too many where it begins. -/
theorem refuses_emitArguments (total close : Nat) (types : List Ty) (arguments : List Argument) :
    Refuses (ctx.emitArguments scope total close types arguments)
      (Refusal.SemanticAt (close :: Argument.offsets arguments)) := by
  cases arguments with
  | nil =>
    cases types with
    | nil => unfold emitArguments; exact .pure _
    | cons ty types => unfold emitArguments; exact Emit.refuses_refuse ⟨rfl, List.mem_cons_self⟩
  | cons argument rest =>
    obtain ⟨label, start, value⟩ := argument
    cases types with
    | nil =>
      unfold emitArguments
      exact Emit.refuses_refuse ⟨rfl, List.mem_cons_of_mem _ List.mem_cons_self⟩
    | cons ty types =>
      unfold emitArguments
      refine ((refuses_emitExpression ty value).imp (Refusal.SemanticAt.mono ?_)).bind
        fun _ => ?_
      · exact fun o ho =>
          List.mem_cons_of_mem _ (List.mem_cons_of_mem _ (List.mem_append_left _ ho))
      refine ((refuses_emitArguments total close types rest).imp
        (Refusal.SemanticAt.mono ?_)).bind fun _ => .pure _
      intro o ho
      rcases List.mem_cons.mp ho with rfl | ho
      · exact List.mem_cons_self
      · exact List.mem_cons_of_mem _ (List.mem_cons_of_mem _ (List.mem_append_right _ ho))

end

/-! ## Statements and blocks -/

theorem refuses_bindParameters {P : Refusal → Prop} {function : IR.FunctionId} {index : Nat}
    (parameters : List (String × Ty)) :
    Refuses (bindParameters function index scope parameters) P := by
  induction parameters generalizing index scope with
  | nil => exact .pure _
  | cons parameter rest ih =>
    obtain ⟨name, ty⟩ := parameter
    refine (Emit.refuses_build _).bind fun value => Refuses.bind ?_ fun _ => ih
    unfold parameterStorage
    split
    · exact (refuses_spill _ _ _).bind fun _ => .pure _
    · exact .pure _

theorem refuses_emitAssign {name : String} {stop : Nat} {value : Expression} (hstop : stop ∈ os)
    (hvalue : value.offsets ⊆ os) :
    Refuses (ctx.emitAssign scope name stop value) (Refusal.SemanticAt os) := by
  have hend : value.stop ∈ os := by
    obtain ⟨first, steps, last⟩ := value
    exact hvalue List.mem_cons_self
  refine (Emit.refuses_check fun _ h => ⟨isSemantic_lookup h, hstop⟩).bind ?_
  intro found
  refine ((refuses_emitExpression _ value).imp (Refusal.SemanticAt.mono hvalue)).bind
    ?_
  intro result
  split
  · exact (Emit.refuses_build _).bind fun _ => .pure _
  · split
    · exact (refuses_spill _ _ _).bind fun _ => .pure _
    · exact Emit.refuses_refuse ⟨rfl, hend⟩

theorem refuses_emitReturn (value : Option Expression) (start : Nat) :
    Refuses (ctx.emitReturn scope value start)
      (Refusal.SemanticAt (Statement.ret value start).offsets) := by
  unfold emitReturn
  split
  · exact Emit.refuses_build _
  · exact (Emit.refuses_report _).bind fun _ => Emit.refuses_build _
  · exact Emit.refuses_refuse ⟨rfl, List.mem_cons_self⟩
  · exact ((refuses_emitExpression _ _).imp
      (Refusal.SemanticAt.mono (List.subset_cons_self _ _))).bind fun _ => Emit.refuses_build _

theorem refuses_emitStatement (s : Statement) :
    Refuses (ctx.emitStatement scope s) (Refusal.SemanticAt s.offsets) := by
  cases s with
  | ret value start => exact (refuses_emitReturn value start).bind fun _ => .pure _
  | cond stop condition thenBlock elseBlock =>
    refine Emit.refuses_refuse ⟨rfl, ?_⟩
    cases elseBlock <;> exact List.mem_cons_self
  | call callee stop arguments close =>
    refine (refuses_callFunction List.mem_cons_self fun types => ?_).discard.bind fun _ => .pure _
    exact (refuses_emitArguments _ _ _ _).imp
      (Refusal.SemanticAt.mono (List.subset_cons_self _ _))
  | methodCall target member stop arguments close =>
    refine (refuses_callMethod List.mem_cons_self fun types => ?_).discard.bind fun _ => .pure _
    exact (refuses_emitArguments _ _ _ _).imp
      (Refusal.SemanticAt.mono (List.subset_cons_self _ _))
  | assignField target member stop value =>
    refine (Emit.refuses_check fun _ h => ⟨isSemantic_lookup h, List.mem_cons_self⟩).bind
      ?_
    intro found
    refine (Emit.refuses_check fun _ h => ⟨Ty.isSemantic_fieldOf h, List.mem_cons_self⟩).bind
      ?_
    intro field
    refine (refuses_fieldsAddress _ _).bind ?_
    intro _
    refine ((refuses_emitExpression _ value).imp
      (Refusal.SemanticAt.mono (List.subset_cons_self _ _))).bind ?_
    intro _
    exact (Emit.refuses_build _).bind fun _ => (Emit.refuses_build _).bind fun _ => .pure _
  | declare name typeName stop value =>
    refine (Emit.refuses_check fun _ h => ⟨Ty.isSemantic_resolve h, List.mem_cons_self⟩).bind
      ?_
    intro ty
    refine (Emit.refuses_check fun _ h =>
      ⟨Ty.isSemantic_requireStorable h, List.mem_cons_self⟩).bind ?_
    intro _
    refine (Emit.refuses_build _).bind ?_
    intro _
    refine ((refuses_emitExpression _ value).imp
      (Refusal.SemanticAt.mono (List.subset_cons_self _ _))).bind ?_
    intro _
    exact (Emit.refuses_build _).bind fun _ => .pure _
  | assign name stop value =>
    exact (refuses_emitAssign List.mem_cons_self (List.subset_cons_self _ _)).bind fun _ => .pure _

/-- The statements after a return are reported, and nothing about them is refused. -/
theorem refuses_emitLines (scope : Scope IR.Value) (close : Nat) (lines : List Line) :
    Refuses (ctx.emitLines close scope lines)
      (Refusal.SemanticAt (close :: Line.offsets lines)) := by
  induction lines generalizing scope with
  | nil => exact Emit.refuses_refuse ⟨rfl, List.mem_cons_self⟩
  | cons line rest ih =>
    obtain ⟨start, statement⟩ := line
    refine ((refuses_emitStatement statement).imp (Refusal.SemanticAt.mono ?_)).bind
      fun after => ?_
    · exact fun o ho =>
        List.mem_cons_of_mem _ (List.mem_cons_of_mem _ (List.mem_append_left _ ho))
    cases after with
    | none => exact .forM fun ⟨_, _⟩ _ => Emit.refuses_report _
    | some scope =>
      refine (ih scope).imp (Refusal.SemanticAt.mono ?_)
      intro o ho
      rcases List.mem_cons.mp ho with rfl | ho
      · exact List.mem_cons_self
      · exact List.mem_cons_of_mem _ (List.mem_cons_of_mem _ (List.mem_append_right _ ho))

theorem refuses_emitBlock (block : Block) :
    Refuses (ctx.emitBlock scope block) (Refusal.SemanticAt block.offsets) := by
  obtain ⟨lines, close⟩ := block
  exact refuses_emitLines scope close lines

end BodyContext

end Straightline
