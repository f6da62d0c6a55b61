import Straightline.Proofs.Compiling.Progress
import Straightline.Proofs.Declaring.Rounds

/-!
# Going through a source ends

Five readers skip: a term, an expression, the rest of an argument list, a statement, the rest of a block.
From any place in any bytes they end where they can be, further on if they succeed, and they come back to
themselves no more often than there are bytes left. Compiling a body does so as well. The first phase goes
round once for a declaration, which has a byte.

That a recursion is not come back to more than so many times is said by cutting it off: whatever is put in
its place there, it makes no difference (`reading_ends`).
-/

set_option autoImplicit false

namespace Straightline

namespace Scan

/-- What can be skipped. -/
inductive Skipped where
  | value
  | expression
  | arguments
  | statement
  | block

/-- The reader that skips it. -/
def Skipped.reader : Skipped → Scan Unit
  | value => skipTerm
  | expression => skipExpression
  | arguments => skipArguments
  | statement => skipStatement
  | block => skipBlock

/-- The reader that skips it in a number of unrollings. -/
def Walk.reader (w : Walk) : Skipped → Scan Unit
  | .value => w.value
  | .expression => w.expression
  | .arguments => w.elements 0
  | .statement => w.statement
  | .block => w.lines

theorem takes_skipArguments : Takes 1 skipArguments := by
  change Takes 1 (skipElements 0)
  rw [skipElements_eq]
  exact takes_elementsBy takes_skipExpression
    (.bounded fun bound => advances_skipElementsWithin advances_skipExpression 1 bound) 0

namespace Skipped

variable (skipped : Skipped)

theorem takes_reader : Takes 1 skipped.reader := by
  cases skipped with
  | value => exact takes_skipTerm
  | expression => exact takes_skipExpression
  | arguments => exact takes_skipArguments
  | statement => exact takes_skipStatement
  | block => exact takes_skipBlock

theorem stays_reader : Stays skipped.reader := by
  have hstays := Walk.stays_skippers
  cases skipped with
  | value => exact Walk.value_skippers.subst (motive := Stays) hstays.value
  | expression => exact Walk.expression_skippers.subst (motive := Stays) hstays.expression
  | arguments => exact hstays.elements 0
  | statement => exact Walk.statement_skippers.subst (motive := Stays) hstays.statement
  | block => exact hstays.lines

theorem reader_unrolled (w : Walk) (n : Nat) : Same n ((Walk.next^[n] w).reader skipped) skipped.reader := by
  have hskips := Walk.skips_unrolled w n
  cases skipped with
  | value => exact hskips.value.mono (Nat.le_succ n)
  | expression => exact hskips.expression.mono (Nat.le_succ n)
  | arguments => exact hskips.elements 0
  | statement => exact hskips.statement.mono (Nat.le_succ n)
  | block => exact hskips.lines

end Skipped

end Scan

theorem Cursor.reaches_seek (bytes : List UInt8) (start : Nat) :
    (Cursor.start bytes).Reaches (.seek bytes start) :=
  ⟨bytes.take start, (List.take_append_drop start bytes).symm, by simp [Cursor.start, Cursor.seek]⟩

theorem Cursor.Reaches.offset_le {bytes : List UInt8} {c : Cursor} (h : (Cursor.start bytes).Reaches c) :
    c.offset ≤ bytes.length := by
  rw [h.eq_seek]
  exact Nat.min_le_right _ _

namespace Declare

/-- A turn leaves fewer bytes for those that follow. -/
theorem loop_unrolled (last : Declare Unit) {n bound : Nat} {s : Declaring}
    (hn : s.cursor.rest.length < n) (hbound : s.cursor.rest.length < bound) :
    (loop^[n] last) s = declareWithin bound s := by
  induction n generalizing bound s with
  | zero => exact absurd hn (Nat.not_lt_zero _)
  | succ n ih =>
    obtain ⟨bound, rfl⟩ := Nat.exists_eq_succ_of_ne_zero (Nat.ne_zero_of_lt hbound)
    rw [Function.iterate_succ_apply', loop_eq, declareWithin_succ]
    split
    · rfl
    · cases h : round s with
      | ok _ s₁ =>
        have hshorter := shorter_round h
        rw [bind_of_ok h, bind_of_ok h]
        exact ih (by omega) (by omega)
      | error e s₁ => rw [bind_of_error h, bind_of_error h]

end Declare

open Scan in
/-- From any place in any bytes the readers that skip stop within the bytes and not before that place, and
further on if they succeed. With more unrollings of their recursion than there are bytes left, nothing
depends on what is put below. Expressions and blocks can be read as trees in the same steps, and what goes
through their trees has a byte for each term, operator and statement of them.

Compiling a block stops within the bytes and not before that place either. With more statements in a block, more
operators in an expression, more arguments in a list or more calls nested than there are bytes left, nothing
depends on what would come after those. The same is true of the turns of the first phase. -/
theorem reading_ends (bytes : List UInt8) (start : Nat) :
    let c := Cursor.seek bytes start
    (∀ skipped : Skipped,
      (c.offset ≤ (endState (skipped.reader c)).offset ∧
        (endState (skipped.reader c)).offset ≤ bytes.length) ∧
      (∀ c', skipped.reader c = .ok () c' → c.offset < c'.offset) ∧
      ∀ (w : Walk) (n : Nat), c.rest.length < n → (Walk.next^[n] w).reader skipped c = skipped.reader c) ∧
    (discard expression = Skipped.expression.reader ∧
      ∀ e c', expression c = .ok e c' → c.offset + e.size ≤ c'.offset) ∧
    (discard block = Skipped.block.reader ∧
      ∀ b c', block c = .ok b c' → c.offset + b.size ≤ c'.offset) ∧
    (∀ (ctx : BodyContext) (scope : Scope IR.Value) (made : Emission),
      (c.offset ≤ (endState (ctx.compileBlock scope ⟨made, c⟩)).cursor.offset ∧
        (endState (ctx.compileBlock scope ⟨made, c⟩)).cursor.offset ≤ bytes.length) ∧
      ∀ n : Nat, c.rest.length < n →
        (∀ last, (ctx.lineBy^[n] last) (some scope) ⟨made, c⟩ = ctx.compileBlock scope ⟨made, c⟩) ∧
        (∀ expected value last,
          ((BodyContext.stepBy expected (ctx.compileTerm scope expected))^[n] last) value ⟨made, c⟩
            = bounded (fun bound =>
                BodyContext.compileStepsWithin expected (ctx.compileTerm scope expected) bound value) ⟨made, c⟩) ∧
        (∀ types index last,
          ((BodyContext.elementBy types (ctx.compileExpression scope))^[n] last) index ⟨made, c⟩
            = bounded (argumentsWithin (BodyContext.compileElement types (ctx.compileExpression scope)) index)
                ⟨made, c⟩) ∧
        ∀ expected last,
          ((ctx.compileTermOf scope)^[n] last) expected ⟨made, c⟩ = ctx.compileTerm scope expected ⟨made, c⟩) ∧
    ∀ (s : Declaring) (last : Declare Unit) (n : Nat), s.cursor = c → c.rest.length < n →
      (Declare.loop^[n] last) s = Declare.declareWithin (c.rest.length + 1) s := by
  intro c
  have hstart : (Cursor.start bytes).Reaches c := Cursor.reaches_seek bytes start
  refine ⟨fun skipped => ⟨⟨?_, ?_⟩, ?_, ?_⟩, ⟨discard_expression, pays_expression c⟩,
    ⟨discard_block, pays_block c⟩, fun ctx scope made => ⟨?_, fun n hlt => ⟨?_, ?_, ?_, ?_⟩⟩, ?_⟩
  · exact (skipped.stays_reader c).le
  · exact (hstart.trans (skipped.stays_reader c)).offset_le
  · exact fun c' h => skipped.takes_reader.pays skipped.stays_reader.advances c () c' h
  · exact fun w n hlt => skipped.reader_unrolled w n c hlt
  · have hstays : c.Reaches (endState (ctx.compileBlock scope ⟨made, c⟩)).cursor :=
      BodyContext.stays_compileBlock scope ⟨made, c⟩
    exact ⟨hstays.le, (hstart.trans hstays).offset_le⟩
  · exact fun last => BodyContext.compileBlock_unrolled last hlt
  · exact fun expected value last => BodyContext.compileSteps_unrolled expected last hlt value
  · exact fun types index last => BodyContext.compileElements_unrolled types last hlt index
  · exact fun expected last => BodyContext.compileTerm_unrolled last hlt expected
  · intro s last n hs hlt
    rw [← hs] at hlt ⊢
    exact Declare.loop_unrolled last hlt (Nat.lt_succ_self _)

end Straightline
