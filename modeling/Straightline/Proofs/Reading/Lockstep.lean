import Straightline.Proofs.Reading.Position

/-!
# Skipping is reading without the tree

The readers of trees and the readers that skip are two separate recursions over the same bytes. Each
lemma here says of one pair that reading and throwing the tree away *is* skipping: not that both
succeed on the same bodies, but that they are the same function of the cursor, faults included. So
wherever one stops the other stops, for the same reason and at the same byte.

`discard_block` is the sum of it. What carries it is that the recursions bound their depth and
their lengths by the same number of bytes, so the bounds never have to be compared.
-/

set_option autoImplicit false

namespace Straightline

namespace Scan

variable {α β : Type}

/-- Asking where the cursor is makes no difference to a reader that does not use the answer. -/
theorem offset_bind {k : Nat → Scan α} {r : Scan α} (h : ∀ n, k n = r) : offset >>= k = r := by
  funext c
  exact congrFun (h c.offset) c

theorem map_offset (a : α) : (fun _ => a) <$> offset = pure a := rfl

/-- A bound computed from the cursor passes through anything done to the result. -/
theorem discard_bounded (reader : Nat → Scan α) :
    discard (bounded reader) = bounded fun bound => discard (reader bound) := rfl

/-! ## Terms and expressions -/

theorem discard_stepsWithin (term : Scan Term) (bound : Nat) :
    discard (stepsWithin term bound) = skipStepsWithin (discard term) bound := by
  induction bound with
  | zero => rfl
  | succ bound ih =>
    rw [skipStepsWithin, stepsWithin, ← ih]
    simp only [discard_eq, bind_assoc]
    congr 1
    funext more
    cases more with
    | false => simp
    | true =>
      simp only [if_true, bind_assoc, pure_bind]
      rfl

theorem discard_expressionOf (term : Scan Term) :
    discard (expressionOf term) = skipExpressionOf (discard term) := by
  have hsteps : discard (bounded (stepsWithin term))
      = bounded (skipStepsWithin (discard term)) := by
    rw [discard_bounded]
    exact congrArg bounded (funext (discard_stepsWithin term))
  rw [skipExpressionOf, expressionOf, ← hsteps]
  simp [discard_eq, map_offset]

theorem discard_argumentsWithin (read : Nat → Scan α) (index bound : Nat) :
    discard (argumentsWithin read index bound)
      = discard (argumentsWithin (fun i => discard (read i)) index bound) := by
  induction bound generalizing index with
  | zero => rfl
  | succ bound ih =>
    have hrest := ih (index + 1)
    simp only [discard_eq] at hrest
    simp only [argumentsWithin, discard_eq, bind_assoc]
    congr 1
    funext _
    congr 1
    funext closes
    cases closes with
    | true => simp
    | false =>
      simp only [Bool.false_eq_true, if_false, bind_assoc, pure_bind]
      simp only [hrest]

theorem discard_arguments (read : Nat → Scan α) :
    discard (arguments read) = discard (arguments fun i => discard (read i)) := by
  simp only [arguments, discard_bounded]
  exact congrArg bounded (funext (discard_argumentsWithin read 0))

theorem discard_argumentElement (term : Scan Term) :
    discard (argumentElement term) = (do
      skipToContent
      skipExpressionOf (discard term) : Scan Unit) := by
  rw [← discard_expressionOf]
  simp only [argumentElement, discard_eq, bind_assoc, pure_bind]
  exact offset_bind fun _ => rfl

theorem discard_argumentsOf (term : Scan Term) :
    discard (argumentsOf term) = skipArgumentsOf (discard term) := by
  have hdrop : discard (argumentsOf term) = discard (arguments fun _ => argumentElement term) := by
    simp [argumentsOf_eq, discard_eq]
  rw [hdrop, discard_arguments, skipArgumentsOf, discard_argumentElement]

theorem discard_termWithin (depth : Nat) : discard (termWithin depth) = skipTermWithin depth := by
  induction depth with
  | zero => rfl
  | succ depth ih =>
    rw [skipTermWithin, termWithin, ← ih, ← discard_argumentsOf]
    simp only [discard_eq, bind_assoc]
    congr 1
    funext head
    refine offset_bind ?_
    intro stop
    cases head <;> simp [map_offset]

theorem discard_term : discard term = skipTerm := by
  rw [term, skipTerm, discard_bounded]
  exact congrArg bounded (funext discard_termWithin)

theorem discard_expression : discard expression = skipExpression := by
  rw [expression, skipExpression, discard_expressionOf, discard_term]

theorem discard_callArguments : discard callArguments = skipArguments := by
  rw [callArguments, skipArguments, discard_argumentsOf, discard_term]

/-! ## Statements and blocks -/

theorem discard_linesWithin (statement : Scan Statement) (bound : Nat) :
    discard (linesWithin statement bound) = skipLinesWithin (discard statement) bound := by
  induction bound with
  | zero => rfl
  | succ bound ih =>
    rw [skipLinesWithin, linesWithin, ← ih]
    simp only [discard_eq, bind_assoc]
    congr 1
    funext _
    congr 1
    funext closes
    cases closes with
    | true => simp
    | false =>
      simp only [Bool.false_eq_true, if_false, bind_assoc, pure_bind]
      exact offset_bind fun _ => rfl

theorem discard_blockOf (statement : Scan Statement) :
    discard (blockOf statement) = skipBlockOf (discard statement) := by
  have hlines : discard (bounded (linesWithin statement))
      = bounded (skipLinesWithin (discard statement)) := by
    rw [discard_bounded]
    exact congrArg bounded (funext (discard_linesWithin statement))
  rw [skipBlockOf, blockOf, ← hlines]
  simp [discard_eq, map_offset]

theorem discard_condOf (statement : Scan Statement) :
    discard (condOf statement) = skipCondOf (discard statement) := by
  rw [skipCondOf, condOf, ← discard_blockOf, ← discard_expression]
  simp only [discard_eq, bind_assoc, pure_bind]
  refine offset_bind ?_
  intro stop
  repeat (congr 1; funext _)
  split <;> simp

theorem discard_initializer : discard initializer = skipInitializer := by
  rw [skipInitializer, ← discard_expression]
  simp [initializer, discard_eq]

theorem discard_retOf :
    discard retOf = (do if ← expressionContinues then skipExpression else return ()) := by
  rw [← discard_expression]
  simp only [retOf, discard_eq, bind_assoc]
  congr 1
  funext more
  cases more with
  | false => simp [map_offset]
  | true =>
    simp only [if_true, bind_assoc, pure_bind]
    exact offset_bind fun _ => rfl

theorem discard_statementWithin (depth : Nat) :
    discard (statementWithin depth) = skipStatementWithin depth := by
  induction depth with
  | zero => rfl
  | succ depth ih =>
    rw [skipStatementWithin, statementWithin, ← ih]
    simp only [discard_eq, bind_assoc]
    congr 1
    funext _
    congr 1
    funext head
    cases head with
    | reserved word =>
      cases word with
      | ret => exact (discard_eq retOf).symm.trans discard_retOf
      | cond =>
        rw [← discard_eq, ← discard_eq, discard_condOf]
    | call callee =>
      rw [← discard_callArguments]
      simp only [bind_assoc, pure_bind, discard_eq]
      exact offset_bind fun _ => by simp [map_offset]
    | methodCall target member =>
      rw [← discard_callArguments]
      simp only [bind_assoc, pure_bind, discard_eq]
      exact offset_bind fun _ => by simp [map_offset]
    | assignField target member =>
      rw [← discard_initializer]
      simp only [bind_assoc, pure_bind, discard_eq]
      exact offset_bind fun _ => rfl
    | declare name =>
      rw [← discard_initializer]
      simp only [bind_assoc, pure_bind, discard_eq]
      rfl
    | assign name =>
      rw [← discard_expression]
      simp only [bind_assoc, pure_bind, discard_eq]
      exact offset_bind fun _ => rfl

theorem discard_statement : discard statement = skipStatement := by
  rw [statement, skipStatement, discard_bounded]
  exact congrArg bounded (funext discard_statementWithin)

/-- Reading a body and throwing the tree away is skipping it. -/
theorem discard_block : discard block = skipBlock := by
  rw [block, skipBlock, discard_blockOf, discard_statement]

end Scan

end Straightline
