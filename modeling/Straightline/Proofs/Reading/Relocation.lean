import Straightline.Proofs.Reading.Locality
import Straightline.Proofs.Trees.Reading

/-!
# A body depends on its own bytes

The tree of a body keeps offsets and is otherwise made of the bytes of the body alone. Where two sources
agree up to the brace that closes a body, it is read from both, and the trees differ by the offset at which
the body stands (`Fork.closed_block`).

What is looked at beyond the bytes of a statement is the word after the block of an `if`, which might be
`else`. It cannot be beyond the brace that closes the block around the statement.
-/

set_option autoImplicit false

namespace Straightline

/-! ## Trees at other offsets -/

mutual

/-- The term with its offsets changed by `f`. -/
def Term.relocate (f : Nat → Nat) : Term → Term
  | .word text stop => .word text (f stop)
  | .field target member stop => .field target member (f stop)
  | .call callee stop arguments close =>
    .call callee (f stop) (Argument.relocate f arguments) (f close)
  | .methodCall target member stop arguments close =>
    .methodCall target member (f stop) (Argument.relocate f arguments) (f close)

def Expression.relocate (f : Nat → Nat) : Expression → Expression
  | .mk first steps stop => .mk (first.relocate f) (Step.relocate f steps) (f stop)

/-- The steps of an expression with their offsets changed by `f`. -/
def Step.relocate (f : Nat → Nat) : List Step → List Step
  | [] => []
  | .mk operator stop operand :: rest =>
    .mk operator (f stop) (operand.relocate f) :: Step.relocate f rest

/-- An argument list with its offsets changed by `f`. -/
def Argument.relocate (f : Nat → Nat) : List Argument → List Argument
  | [] => []
  | .mk label start value :: rest => .mk label (f start) (value.relocate f) :: Argument.relocate f rest

end

mutual

def Statement.relocate (f : Nat → Nat) : Statement → Statement
  | .ret none start => .ret none (f start)
  | .ret (some value) start => .ret (some (value.relocate f)) (f start)
  | .cond stop condition thenBlock none =>
    .cond (f stop) (condition.relocate f) (thenBlock.relocate f) none
  | .cond stop condition thenBlock (some elseBlock) =>
    .cond (f stop) (condition.relocate f) (thenBlock.relocate f) (some (elseBlock.relocate f))
  | .call callee stop arguments close =>
    .call callee (f stop) (Argument.relocate f arguments) (f close)
  | .methodCall target member stop arguments close =>
    .methodCall target member (f stop) (Argument.relocate f arguments) (f close)
  | .assignField target member stop value => .assignField target member (f stop) (value.relocate f)
  | .declare name typeName stop value => .declare name typeName (f stop) (value.relocate f)
  | .assign name stop value => .assign name (f stop) (value.relocate f)

def Block.relocate (f : Nat → Nat) : Block → Block
  | .mk lines close => .mk (Line.relocate f lines) (f close)

/-- The statements of a block with their offsets changed by `f`. -/
def Line.relocate (f : Nat → Nat) : List Line → List Line
  | [] => []
  | .mk start statement :: rest => .mk (f start) (statement.relocate f) :: Line.relocate f rest

end

mutual

theorem Term.relocate_id (t : Term) : t.relocate id = t := by
  cases t with
  | word | field => rfl
  | call callee stop arguments close | methodCall target member stop arguments close =>
    rw [Term.relocate, Argument.relocate_id arguments]
    rfl

theorem Expression.relocate_id (e : Expression) : e.relocate id = e := by
  obtain ⟨first, steps, stop⟩ := e
  rw [Expression.relocate, first.relocate_id, Step.relocate_id steps]
  rfl

theorem Step.relocate_id (steps : List Step) : Step.relocate id steps = steps := by
  cases steps with
  | nil => rfl
  | cons step rest =>
    obtain ⟨operator, stop, operand⟩ := step
    rw [Step.relocate, operand.relocate_id, Step.relocate_id rest]
    rfl

theorem Argument.relocate_id (arguments : List Argument) :
    Argument.relocate id arguments = arguments := by
  cases arguments with
  | nil => rfl
  | cons argument rest =>
    obtain ⟨label, start, value⟩ := argument
    rw [Argument.relocate, value.relocate_id, Argument.relocate_id rest]
    rfl

end

mutual

theorem Statement.relocate_id (s : Statement) : s.relocate id = s := by
  cases s with
  | ret value start =>
    cases value with
    | none => rfl
    | some value =>
      rw [Statement.relocate, value.relocate_id]
      rfl
  | cond stop condition thenBlock elseBlock =>
    cases elseBlock with
    | none =>
      rw [Statement.relocate, condition.relocate_id, thenBlock.relocate_id]
      rfl
    | some elseBlock =>
      rw [Statement.relocate, condition.relocate_id, thenBlock.relocate_id, elseBlock.relocate_id]
      rfl
  | call callee stop arguments close | methodCall target member stop arguments close =>
    rw [Statement.relocate, Argument.relocate_id arguments]
    rfl
  | assignField target member stop value | declare name typeName stop value
  | assign name stop value =>
    rw [Statement.relocate, value.relocate_id]
    rfl

theorem Block.relocate_id (b : Block) : b.relocate id = b := by
  obtain ⟨lines, close⟩ := b
  rw [Block.relocate, Line.relocate_id lines]
  rfl

theorem Line.relocate_id (lines : List Line) : Line.relocate id lines = lines := by
  cases lines with
  | nil => rfl
  | cons line rest =>
    obtain ⟨start, statement⟩ := line
    rw [Line.relocate, statement.relocate_id, Line.relocate_id rest]
    rfl

end

theorem Argument.relocate_map (f : Nat → Nat) (elements : List (String × Nat × Expression)) :
    Argument.relocate f (elements.map Scan.argument)
      = (elements.map (Prod.map id (Prod.map f (Expression.relocate f)))).map Scan.argument := by
  induction elements with
  | nil => rfl
  | cons e rest ih => simp [Scan.argument, Argument.relocate, ih]

namespace Fork

open Scan

variable {w : Fork} {N : Nat}

/-! ## Expressions -/

section Expressions

variable {term term' : Scan Term}

theorem local_stepsWithin (hterm : w.Local N 1 (Term.relocate w.move) term term') (n m K : Nat)
    (hm : K ≤ m) (hN : K ≤ N) :
    w.Local K 0 (Step.relocate w.move) (stepsWithin term n) (stepsWithin term' m) := by
  induction n generalizing m K with
  | zero => exact .throw _ _
  | succ n ih =>
    refine Local.of_succ ?_ m K hm hN
    intro m K hm hN
    refine local_expressionContinues.bind fun more => .ite ?_ (.pure rfl)
    refine Local.weaken (local_operator.take fun operator => ?_) (Nat.zero_le 1)
    refine local_offset.bindMap fun stop => local_skipToContent.bind ?_
    intro _
    refine ((hterm.mono (by omega)).weaken (Nat.zero_le 1)).bindMap fun operand => ?_
    exact (ih m (K - 1) (by omega) (by omega)).bindMap fun others => .pure rfl

theorem local_expressionOf (hterm : w.Local N 1 (Term.relocate w.move) term term') :
    w.Local N 1 (Expression.relocate w.move) (expressionOf term) (expressionOf term') := by
  refine hterm.takeMap fun first => ?_
  refine (Local.bounded fun n m K hm hN =>
    local_stepsWithin (hterm.mono (Nat.sub_le N 1)) n m K hm hN).bindMap fun steps => ?_
  exact local_offset.bindMap fun stop => .pure rfl

theorem local_argumentElement (hterm : w.Local N 1 (Term.relocate w.move) term term') :
    w.Local N 1 (Prod.map w.move (Expression.relocate w.move)) (argumentElement term)
      (argumentElement term') := by
  refine local_offset.bindMap fun start => local_skipToContent.bind ?_
  intro _
  exact (local_expressionOf hterm).takeMap fun value => .pure rfl

theorem local_argumentsOf
    (hterm : ∀ left right, (w.inner Byte.closeParen left right).Local N 1
      (Term.relocate w.move) term term') :
    w.Local N 1 (Argument.relocate w.move) (argumentsOf term) (argumentsOf term') := by
  refine (local_arguments (g := Prod.map w.move (Expression.relocate w.move)) fun left right _ =>
    local_argumentElement (hterm left right)).takeMap ?_
  intro elements
  exact .pure (Argument.relocate_map w.move elements).symm

end Expressions

theorem local_termWithin (n m K : Nat) (hm : K ≤ m) :
    w.Local K 1 (Term.relocate w.move) (termWithin n) (termWithin m) := by
  induction n generalizing w m K with
  | zero => exact .throw _ _
  | succ n ih =>
    refine Local.of_succ (N := K) ?_ m K hm (Nat.le_refl K)
    intro m K hm _
    refine local_termHead.take fun head => local_offset.bindMap fun stop => ?_
    cases head with
    | word text | field target member => exact .pure rfl
    | call callee | methodCall target member =>
      refine ((local_argumentsOf fun left right => ih m (K - 1) (by omega)).weaken
        (Nat.zero_le 1)).bindMap fun arguments => ?_
      exact local_offset.bindMap fun close => .pure rfl

theorem local_term : w.Local N 1 (Term.relocate w.move) term term :=
  .bounded fun n m K hm _ => local_termWithin n m K hm

theorem local_expression : w.Local N 1 (Expression.relocate w.move) expression expression :=
  local_expressionOf local_term

theorem local_callArguments : w.Local N 1 (Argument.relocate w.move) callArguments callArguments :=
  local_argumentsOf fun _ _ => local_term

theorem local_initializer :
    w.Local N 0 (Expression.relocate w.move) initializer initializer :=
  local_skipToContent.bind fun _ => (local_expect _).bind fun _ => local_skipToContent.bind fun _ =>
    local_expression.weaken (Nat.zero_le 1)

/-! ## Statements and blocks -/

section Blocks

variable {statement statement' : Scan Statement}

theorem closed_linesWithin (hstop : w.stop = Byte.closeBrace)
    (hstatement : w.Local N 1 (Statement.relocate w.move) statement statement') (n m K : Nat)
    (hm : K ≤ m) (hN : K ≤ N) :
    w.Closed K (Line.relocate w.move) (linesWithin statement n) (linesWithin statement' m) := by
  induction n generalizing m K with
  | zero => exact .throw _ _
  | succ n ih =>
    refine Closed.of_succ ?_ m K hm hN
    intro m K hm hN
    refine local_skipToContent.closed fun _ => ?_
    rw [← hstop]
    refine .ending rfl ?_
    refine Closed.seq local_offset fun start => ?_
    refine Closed.seq (hstatement.mono hN) fun first => ?_
    exact (ih m (K - 1) (by omega) (by omega)).map fun others => rfl

/-- The brace that closes a block is the last byte that is looked at for it. -/
theorem closed_blockOf (hstop : w.stop = Byte.closeBrace)
    (hstatement : w.Local N 1 (Statement.relocate w.move) statement statement') :
    w.Closed N (Block.relocate w.move) (blockOf statement) (blockOf statement') := by
  have hlines : w.Closed N (Line.relocate w.move) (bounded (linesWithin statement))
      (bounded (linesWithin statement')) :=
    .bounded (closed_linesWithin hstop hstatement)
  exact hlines.mapOffset fun _ _ => rfl

theorem local_blockOf
    (hstatement : ∀ left right, (w.inner Byte.closeBrace left right).Local N 1
      (Statement.relocate w.move) statement statement') :
    w.Local N 1 (Block.relocate w.move) (blockOf statement) (blockOf statement') :=
  Closed.isLocal fun left right => closed_blockOf rfl (hstatement left right)

end Blocks

theorem local_retOf : w.Local N 0 (Statement.relocate w.move) retOf retOf := by
  refine local_expressionContinues.bind fun more => .ite ?_ ?_
  · refine local_offset.bindMap fun start => ?_
    exact (local_expression.weaken (Nat.zero_le 1)).bindMap fun value => .pure rfl
  · exact local_offset.bindMap fun start => .pure rfl

/-- What follows a block is looked at for an `else`. The brace that closes the block around it ends the
blanks and the word that are read for that. -/
theorem local_else {α β : Type} {g : α → β} {k : Scan α} {k' : Scan β} {a : α} {b : β}
    (hstop : w.stop = Byte.closeBrace) (hb : b = g a) (hk : w.Local N 0 g k k') :
    w.Local N 0 g
      (do
        let after ← get
        skipSpace true
        if (← word) = "else" then k
        else
          set after
          return a)
      (do
        let after ← get
        skipSpace true
        if (← word) = "else" then k'
        else
          set after
          return b) := by
  subst hb
  constructor
  · intro c x c₁ h
    obtain ⟨_, _, hget, h⟩ := bind_ok h
    cases hget
    obtain ⟨_, c₂, hspace, h⟩ := bind_ok h
    obtain ⟨text, c₃, hword, h⟩ := bind_ok h
    split at h
    · obtain ⟨blanks, hblanks, _⟩ := (advances_skipSpace true).takes _ _ _ hspace
      obtain ⟨run, hrun, _⟩ := advances_word.takes _ _ _ hword
      obtain ⟨taken, htaken, _⟩ := hk.takes _ _ _ h
      exact ⟨blanks ++ run ++ taken, by rw [hblanks, hrun, htaken]; simp, Nat.zero_le _⟩
    · cases h
      exact ⟨[], rfl, Nat.zero_le _⟩
  · intro c c' x c₁ hbefore hlt h hahead
    obtain ⟨_, _, hget, h⟩ := bind_ok h
    cases hget
    obtain ⟨_, c₂, hspace, h⟩ := bind_ok h
    cases hspace
    obtain ⟨text, c₃, hword, h⟩ := bind_ok h
    have hbefore₂ : w.Before (c.skip fun b => Byte.isSpace b && (true || b != Byte.lineFeed))
        (c'.skip fun b => Byte.isSpace b && (true || b != Byte.lineFeed)) :=
      (hbefore.skip (hbefore.ahead_skip (by rw [hstop]; rfl))).2
    have hahead₃ : w.Ahead c₃ := by
      cases hword
      exact hbefore₂.ahead_skip (by rw [hstop]; rfl)
    -- The same word is read on both sides, as the closing brace ends it if nothing before does.
    obtain ⟨c₃', hword', hbefore₃⟩ := local_word.follows hbefore₂ (Nat.lt_succ_self _) hword hahead₃
    change ∃ c₁', (word >>= fun text => if text = "else" then k' else set c' >>= fun _ => pure (g a))
      _ = _ ∧ _
    rw [bind_of_ok hword', id]
    split at h
    · rename_i helse
      rw [if_pos helse]
      refine hk.follows hbefore₃ ?_ h hahead
      -- What is left to read is no more than before the blanks and the word.
      obtain ⟨blanks, hblanks, _⟩ := (advances_skipSpace true).takes c' _ _ rfl
      obtain ⟨run, hrun, _⟩ := advances_word.takes _ _ _ hword'
      rw [hblanks, hrun, List.length_append, List.length_append] at hlt
      omega
    · rename_i helse
      cases h
      rw [if_neg helse]
      exact ⟨c', rfl, hbefore⟩

theorem local_condOf {statement statement' : Scan Statement} (hstop : w.stop = Byte.closeBrace)
    (hstatement : ∀ left right, (w.inner Byte.closeBrace left right).Local N 1
      (Statement.relocate w.move) statement statement') :
    w.Local N 0 (Statement.relocate w.move) (condOf statement) (condOf statement') := by
  have hblock := (local_blockOf hstatement).weaken (Nat.zero_le 1)
  refine local_offset.bindMap fun stop => local_skipToContent.bind ?_
  intro _
  refine (local_expression.weaken (Nat.zero_le 1)).bindMap fun condition => ?_
  refine local_skipToContent.bind fun _ => (local_expect _).bind ?_
  intro _
  refine hblock.bindMap fun thenBlock => local_else hstop rfl ?_
  refine local_skipToContent.bind fun _ => (local_expect _).bind ?_
  intro _
  exact hblock.bindMap fun elseBlock => .pure rfl

theorem local_statementWithin (hstop : w.stop = Byte.closeBrace) (n m K : Nat) (hm : K ≤ m) :
    w.Local K 1 (Statement.relocate w.move) (statementWithin n) (statementWithin m) := by
  induction n generalizing w m K with
  | zero => exact .throw _ _
  | succ n ih =>
    refine Local.of_succ (N := K) ?_ m K hm (Nat.le_refl K)
    intro m K hm _
    refine local_skipToContent.bind fun _ => local_statementHead.take ?_
    intro head
    cases head with
    | reserved word =>
      cases word with
      | ret => exact local_retOf
      | cond => exact local_condOf hstop fun left right => ih rfl m (K - 1) (by omega)
    | call callee | methodCall target member =>
      refine local_offset.bindMap fun stop => ?_
      refine (local_callArguments.weaken (Nat.zero_le 1)).bindMap fun arguments => ?_
      exact local_offset.bindMap fun close => .pure rfl
    | assignField target member =>
      exact local_offset.bindMap fun stop => local_initializer.bindMap fun value => .pure rfl
    | declare name =>
      refine local_skipToContent.bind fun _ => (local_nonemptyWord.weaken (Nat.zero_le 1)).bind ?_
      intro typeName
      exact local_offset.bindMap fun stop => local_initializer.bindMap fun value => .pure rfl
    | assign name =>
      refine local_offset.bindMap fun stop => local_skipToContent.bind ?_
      intro _
      exact (local_expression.weaken (Nat.zero_le 1)).bindMap fun value => .pure rfl

theorem local_statement (hstop : w.stop = Byte.closeBrace) :
    w.Local N 1 (Statement.relocate w.move) statement statement :=
  .bounded fun n m K hm _ => local_statementWithin hstop n m K hm

/-- Nothing beyond the brace that closes a body is looked at for its tree. -/
theorem closed_block (hstop : w.stop = Byte.closeBrace) :
    w.Closed N (Block.relocate w.move) block block :=
  closed_blockOf hstop (local_statement hstop)

theorem local_block : w.Local N 1 (Block.relocate w.move) block block :=
  local_blockOf fun _ _ => local_statement rfl

end Fork

end Straightline
