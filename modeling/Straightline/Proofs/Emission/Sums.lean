import Straightline.Proofs.Emission.Scoping

/-!
# How sums are emitted

An expression is emitted from the left. After the instructions of its first operand come, step by step,
those of the next one and the instruction of the operator, which works on what there is so far and on that
operand (`BodyContext.Sums`). Nothing else is added (`BodyContext.emits_sum`).
-/

set_option autoImplicit false

namespace Straightline

open IR (Site Inst)

/-- The operation of an operator. -/
def Operator.op : Operator → IR.Value → IR.Value → IR.Op
  | .add => .add
  | .sub => .sub

/-- A step of a sum: the instructions of its operand, the operand, and the instruction of its operator. -/
structure Addend where
  operand : List Inst
  value : IR.Value
  step : Inst

def Addend.insts (a : Addend) : List Inst := a.operand ++ [a.step]

/-- Whatever is emitted comes of a run. -/
theorem IR.Site.Emits.ran {α : Type} {w : Site} {insts : List Inst} {m : Emit α}
    {Q : α → List Inst → Prop} (h : w.Emits insts m Q) :
    w.Emits insts m fun a more => Q a more ∧
      ∃ log log', m ⟨w.builder insts, log⟩ = .ok a ⟨w.builder (insts ++ more), log'⟩ := by
  intro log a s' hm
  obtain ⟨more, log', rfl, ha⟩ := h log a s' hm
  exact ⟨more, log', rfl, ha, log, log', hm⟩

namespace BodyContext

variable {ctx : BodyContext} {w : Site} {scope : Scope IR.Value} {insts : List Inst} {expected : Ty}

section

variable (ctx : BodyContext) (w : Site) (scope : Scope IR.Value) (expected : Ty)

/-- The term was emitted after `insts`: it comes to `value`, after the instructions `more`. -/
structure Emitted (insts : List Inst) (term : Term) (value : IR.Value) (more : List Inst) : Prop extends
    ctx.Handled w insts expected.irType value more where
  run : ∃ log log', ctx.emitTerm scope expected term ⟨w.builder insts, log⟩ =
    .ok value ⟨w.builder (insts ++ more), log'⟩

/-- The steps were emitted after `insts`, from `left` on, and come to the last of these values. -/
inductive Sums : List Inst → IR.Value → List Step → List Addend → IR.Value → Prop
  | done {insts : List Inst} {left : IR.Value} : Sums insts left [] [] left
  | step {insts operand : List Inst} {left right result : IR.Value} {operator : Operator} {stop : Nat}
      {term : Term} {steps : List Step} {addends : List Addend}
      (emitted : ctx.Emitted w scope expected insts term right operand)
      (others : Sums (insts ++ operand ++
          [⟨(insts ++ operand).length, expected.irType, operator.op left right⟩])
        (Site.next (insts ++ operand) expected.irType) steps addends result) :
      Sums insts left (.mk operator stop term :: steps)
        (⟨operand, right, ⟨(insts ++ operand).length, expected.irType, operator.op left right⟩⟩ :: addends)
        result

end

theorem emits_term (hctx : ctx.Placed w) (hscope : scope.Placed w ctx.declarations.types insts)
    (hvalued : expected.isVoid = false) (term : Term) :
    w.Emits insts (ctx.emitTerm scope expected term) (ctx.Emitted w scope expected insts term) :=
  (scoped_emitTerm hctx hscope expected hvalued term).ran.imp fun _ _ ⟨hhandled, hrun⟩ =>
    ⟨hhandled, hrun⟩

/-- The instruction of an operator is of the type of its operands. -/
theorem emits_operator (hctx : ctx.Placed w) {left : IR.Value} (hleft : left.ty = expected.irType)
    (right : IR.Value) (operator : Operator) :
    w.Emits insts (Emit.build (emitOperator operator left right)) fun value more =>
      value = Site.next insts expected.irType ∧
        more = [⟨insts.length, expected.irType, operator.op left right⟩] := by
  rw [← hleft]
  cases operator with
  | add | sub => exact .step (Site.emit hctx.fits.opened _ _)

theorem emits_steps (hctx : ctx.Placed w) (hscope : scope.Placed w ctx.declarations.types insts)
    (hvalued : expected.isVoid = false) {left : IR.Value} (hleft : left.ty = expected.irType)
    (steps : List Step) :
    w.Emits insts (ctx.emitSteps scope expected left steps) fun result more =>
      ∃ addends, ctx.Sums w scope expected insts left steps addends result ∧
        more = addends.flatMap Addend.insts := by
  induction steps generalizing insts left with
  | nil =>
    unfold emitSteps
    exact .pure ⟨[], .done, rfl⟩
  | cons step steps ih =>
    obtain ⟨operator, stop, term⟩ := step
    unfold emitSteps
    refine .required fun _ => ?_
    refine .bind (emits_term hctx hscope hvalued term) fun right operand hright => ?_
    refine .bind (emits_operator hctx hleft right operator) ?_
    rintro _ _ ⟨rfl, rfl⟩
    refine (ih ((hscope.later operand).later _) rfl).imp ?_
    rintro result _ ⟨addends, hsums, rfl⟩
    refine ⟨_, .step hright hsums, ?_⟩
    simp [Addend.insts]

/-- An expression is emitted operand by operand, with an instruction for each operator. -/
theorem emits_sum (hctx : ctx.Placed w) (hscope : scope.Placed w ctx.declarations.types insts)
    (hvalued : expected.isVoid = false) (first : Term) (steps : List Step) (stop : Nat) :
    w.Emits insts (ctx.emitExpression scope expected (.mk first steps stop)) fun result more =>
      ∃ operand value addends, ctx.Emitted w scope expected insts first value operand ∧
        ctx.Sums w scope expected (insts ++ operand) value steps addends result ∧
        more = operand ++ addends.flatMap Addend.insts := by
  unfold emitExpression
  refine .bind (emits_term hctx hscope hvalued first) fun value operand hvalue => ?_
  refine (emits_steps hctx (hscope.later operand) hvalued hvalue.ty steps).imp ?_
  rintro result _ ⟨addends, hsums, rfl⟩
  exact ⟨operand, value, addends, hvalue, hsums, rfl⟩

end BodyContext

end Straightline
