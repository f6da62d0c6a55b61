import Straightline.Proofs.Reading.Position
import Straightline.Proofs.Trees.Reading

/-!
# What was read lies where it was read

A tree keeps the offsets at which it may be refused later. The readers are shown to keep none from
outside the bytes they took: `spans_block` bounds every offset of a body by the offset at which
reading began and the one at which it ended.
-/

set_option autoImplicit false

namespace Straightline

/-! ## The offsets of a tree -/

mutual

/-- The offsets that a term keeps. -/
def Term.offsets : Term → List Nat
  | .word _ stop => [stop]
  | .field _ _ stop => [stop]
  | .call _ stop arguments close => stop :: close :: Argument.offsets arguments
  | .methodCall _ _ stop arguments close => stop :: close :: Argument.offsets arguments

def Expression.offsets : Expression → List Nat
  | .mk first steps stop => stop :: (first.offsets ++ Step.offsets steps)

/-- The offsets of the steps of an expression. -/
def Step.offsets : List Step → List Nat
  | [] => []
  | .mk _ stop operand :: rest => stop :: (operand.offsets ++ Step.offsets rest)

/-- The offsets of an argument list. -/
def Argument.offsets : List Argument → List Nat
  | [] => []
  | .mk _ start value :: rest => start :: (value.offsets ++ Argument.offsets rest)

end

mutual

def Statement.offsets : Statement → List Nat
  | .ret none start => [start]
  | .ret (some value) start => start :: value.offsets
  | .cond stop condition thenBlock none => stop :: (condition.offsets ++ thenBlock.offsets)
  | .cond stop condition thenBlock (some elseBlock) =>
    stop :: (condition.offsets ++ thenBlock.offsets ++ elseBlock.offsets)
  | .call _ stop arguments close => stop :: close :: Argument.offsets arguments
  | .methodCall _ _ stop arguments close => stop :: close :: Argument.offsets arguments
  | .assignField _ _ stop value => stop :: value.offsets
  | .declare _ _ stop value => stop :: value.offsets
  | .assign _ stop value => stop :: value.offsets

def Block.offsets : Block → List Nat
  | .mk lines close => close :: Line.offsets lines

/-- The offsets of the statements of a block. -/
def Line.offsets : List Line → List Nat
  | [] => []
  | .mk start statement :: rest => start :: (statement.offsets ++ Line.offsets rest)

end

namespace Scan

variable {α β : Type}

/-! ## Trees within a span -/

/-- Every offset of a list lies between `lo` and `hi`. -/
def Between (lo : Nat) (offsets : List Nat) (hi : Nat) : Prop := ∀ o ∈ offsets, lo ≤ o ∧ o ≤ hi

namespace Between

theorem nil (lo hi : Nat) : Between lo [] hi := by
  intro o ho
  cases ho

theorem cons {lo hi o : Nat} {os : List Nat} (hlo : lo ≤ o) (hhi : o ≤ hi)
    (h : Between lo os hi) : Between lo (o :: os) hi := by
  intro o' ho'
  rcases List.mem_cons.mp ho' with rfl | ho'
  · exact ⟨hlo, hhi⟩
  · exact h o' ho'

theorem append {lo hi : Nat} {os os' : List Nat} (h : Between lo os hi)
    (h' : Between lo os' hi) : Between lo (os ++ os') hi := by
  intro o ho
  rcases List.mem_append.mp ho with ho | ho
  · exact h o ho
  · exact h' o ho

/-- A span may be widened on both sides. -/
theorem widen {lo lo' hi hi' : Nat} {os : List Nat} (h : Between lo os hi) (hlo : lo' ≤ lo)
    (hhi : hi ≤ hi') : Between lo' os hi' :=
  fun o ho => ⟨Nat.le_trans hlo (h o ho).1, Nat.le_trans (h o ho).2 hhi⟩

end Between

/-- A success does not go back, and what `offsets` gives of the value lies in the span read. -/
def Spans (r : Scan α) (offsets : α → List Nat) : Prop :=
  Ensures r fun c a c' => c.offset ≤ c'.offset ∧ Between c.offset (offsets a) c'.offset

theorem Spans.bounded {reader : Nat → Scan α} {offsets : α → List Nat}
    (h : ∀ bound, Spans (reader bound) offsets) : Spans (bounded reader) offsets :=
  fun c a c' hr => h _ c a c' hr

theorem spans_stepsWithin {term : Scan Term} (hterm : Spans term Term.offsets) (bound : Nat) :
    Spans (stepsWithin term bound) Step.offsets := by
  induction bound with
  | zero => exact Ensures.throw _
  | succ bound ih =>
    intro c steps c' h
    obtain ⟨more, c₁, hmore, h⟩ := bind_ok h
    have h₁ := (advances_expressionContinues _ _ _ hmore).le
    split at h
    · obtain ⟨operator, c₂, hoperator, h⟩ := bind_ok h
      obtain ⟨stop, c₃, hstop, h⟩ := bind_ok h
      cases hstop
      obtain ⟨_, c₄, hspace, h⟩ := bind_ok h
      obtain ⟨operand, c₅, hoperand, h⟩ := bind_ok h
      obtain ⟨others, c₆, hothers, h⟩ := bind_ok h
      cases h
      have h₂ := (advances_operator _ _ _ hoperator).le
      have h₄ := (advances_skipToContent _ _ _ hspace).le
      obtain ⟨h₅, hin⟩ := hterm _ _ _ hoperand
      obtain ⟨h₆, hrest⟩ := ih _ _ _ hothers
      exact ⟨by omega, .cons (by omega) (by omega)
        (.append (hin.widen (by omega) (by omega)) (hrest.widen (by omega) (by omega)))⟩
    · cases h
      exact ⟨h₁, .nil _ _⟩

theorem spans_expressionOf {term : Scan Term} (hterm : Spans term Term.offsets) :
    Spans (expressionOf term) Expression.offsets := by
  intro c e c' h
  obtain ⟨first, c₁, hfirst, h⟩ := bind_ok h
  obtain ⟨steps, c₂, hsteps, h⟩ := bind_ok h
  obtain ⟨stop, c₃, hstop, h⟩ := bind_ok h
  cases hstop
  cases h
  obtain ⟨h₁, hin⟩ := hterm _ _ _ hfirst
  obtain ⟨h₂, hrest⟩ := Spans.bounded (spans_stepsWithin hterm) _ _ _ hsteps
  exact ⟨by omega, .cons (by omega) (by omega)
    (.append (hin.widen (by omega) (by omega)) (hrest.widen (by omega) (by omega)))⟩

theorem spans_argumentsWithin {read : Nat → Scan α} {offsets : α → List Nat}
    (hread : ∀ index, Spans (read index) offsets) (index bound : Nat) :
    Spans (argumentsWithin read index bound) fun elements =>
      elements.flatMap fun e => offsets e.2 := by
  induction bound generalizing index with
  | zero => exact Ensures.throw _
  | succ bound ih =>
    intro c elements c' h
    obtain ⟨_, c₁, hspace, h⟩ := bind_ok h
    obtain ⟨closes, c₂, hcloses, h⟩ := bind_ok h
    cases hcloses
    have h₁ := (advances_skipToContent _ _ _ hspace).le
    split at h
    · obtain ⟨_, c₃, hadvance, h⟩ := bind_ok h
      cases h
      exact ⟨Nat.le_trans h₁ (advances_advance _ _ _ hadvance).le, .nil _ _⟩
    · obtain ⟨_, c₃, hseparator, h⟩ := bind_ok h
      obtain ⟨name, c₄, hlabel, h⟩ := bind_ok h
      obtain ⟨value, c₅, hvalue, h⟩ := bind_ok h
      obtain ⟨others, c₆, hothers, h⟩ := bind_ok h
      cases h
      have h₃ := (advances_separator _ _ _ _ hseparator).le
      have h₄ := (advances_label _ _ _ hlabel).le
      obtain ⟨h₅, hin⟩ := hread _ _ _ _ hvalue
      obtain ⟨h₆, hrest⟩ := ih _ _ _ _ hothers
      exact ⟨by omega,
        .append (hin.widen (by omega) (by omega)) (hrest.widen (by omega) (by omega))⟩

theorem spans_argumentElement {term : Scan Term} (hterm : Spans term Term.offsets) :
    Spans (argumentElement term) fun a => a.1 :: a.2.offsets := by
  intro c a c' h
  obtain ⟨start, c₁, hstart, h⟩ := bind_ok h
  cases hstart
  obtain ⟨_, c₂, hspace, h⟩ := bind_ok h
  obtain ⟨value, c₃, hvalue, h⟩ := bind_ok h
  cases h
  have h₂ := (advances_skipToContent _ _ _ hspace).le
  obtain ⟨h₃, hin⟩ := spans_expressionOf hterm _ _ _ hvalue
  exact ⟨by omega, .cons (by omega) (by omega) (hin.widen (by omega) (by omega))⟩

theorem offsets_arguments (elements : List (String × Nat × Expression)) :
    Argument.offsets (elements.map argument) = elements.flatMap fun e => e.2.1 :: e.2.2.offsets := by
  induction elements with
  | nil => rfl
  | cons e rest ih => simp [argument, Argument.offsets, ih]

theorem spans_argumentsOf {term : Scan Term} (hterm : Spans term Term.offsets) :
    Spans (argumentsOf term) Argument.offsets := by
  intro c arguments c' h
  obtain ⟨elements, c₁, helements, h⟩ := bind_ok h
  cases h
  obtain ⟨hle, hin⟩ :=
    Spans.bounded (spans_argumentsWithin (fun _ => spans_argumentElement hterm) 0) _ _ _ helements
  dsimp only at hin
  rw [← offsets_arguments] at hin
  exact ⟨hle, hin⟩

theorem spans_termWithin (depth : Nat) : Spans (termWithin depth) Term.offsets := by
  induction depth with
  | zero => exact Ensures.throw _
  | succ depth ih =>
    intro c t c' h
    obtain ⟨head, c₁, hhead, h⟩ := bind_ok h
    obtain ⟨stop, c₂, hstop, h⟩ := bind_ok h
    cases hstop
    have h₁ := (advances_termHead _ _ _ hhead).le
    cases head with
    | word text | field target member =>
      cases h
      exact ⟨h₁, .cons h₁ (Nat.le_refl _) (.nil _ _)⟩
    | call callee | methodCall target member =>
      obtain ⟨arguments, c₃, harguments, h⟩ := bind_ok h
      obtain ⟨close, c₄, hclose, h⟩ := bind_ok h
      cases hclose
      cases h
      obtain ⟨h₃, hin⟩ := spans_argumentsOf ih _ _ _ harguments
      exact ⟨by omega, .cons h₁ (by omega) (.cons (by omega) (by omega)
        (hin.widen (by omega) (by omega)))⟩

theorem spans_expression : Spans expression Expression.offsets :=
  spans_expressionOf (.bounded spans_termWithin)

/-- The offset that an expression keeps for its end is where reading it ended. -/
theorem stop_expression : Ensures expression fun _ e c' => e.stop = c'.offset := by
  intro c e c' h
  obtain ⟨first, c₁, _, h⟩ := bind_ok h
  obtain ⟨steps, c₂, _, h⟩ := bind_ok h
  obtain ⟨stop, c₃, hstop, h⟩ := bind_ok h
  cases hstop
  cases h
  rfl

theorem spans_callArguments : Spans callArguments Argument.offsets :=
  spans_argumentsOf (.bounded spans_termWithin)

/-! ## Statements and blocks -/

theorem spans_linesWithin {statement : Scan Statement}
    (hstatement : Spans statement Statement.offsets) (bound : Nat) :
    Spans (linesWithin statement bound) Line.offsets := by
  induction bound with
  | zero => exact Ensures.throw _
  | succ bound ih =>
    intro c lines c' h
    obtain ⟨_, c₁, hspace, h⟩ := bind_ok h
    obtain ⟨closes, c₂, hcloses, h⟩ := bind_ok h
    cases hcloses
    have h₁ := (advances_skipToContent _ _ _ hspace).le
    split at h
    · obtain ⟨_, c₃, hadvance, h⟩ := bind_ok h
      cases h
      exact ⟨Nat.le_trans h₁ (advances_advance _ _ _ hadvance).le, .nil _ _⟩
    · obtain ⟨start, c₃, hstart, h⟩ := bind_ok h
      cases hstart
      obtain ⟨first, c₄, hfirst, h⟩ := bind_ok h
      obtain ⟨others, c₅, hothers, h⟩ := bind_ok h
      cases h
      obtain ⟨h₄, hin⟩ := hstatement _ _ _ hfirst
      obtain ⟨h₅, hrest⟩ := ih _ _ _ hothers
      exact ⟨by omega, .cons (by omega) (by omega)
        (.append (hin.widen (by omega) (by omega)) (hrest.widen (by omega) (by omega)))⟩

/-- Besides, the offset after a block is the one at which reading it ended. -/
theorem spans_blockOf {statement : Scan Statement}
    (hstatement : Spans statement Statement.offsets) :
    Spans (blockOf statement) Block.offsets ∧
      Ensures (blockOf statement) fun _ block c' => block.close = c'.offset := by
  constructor
  · intro c block c' h
    obtain ⟨lines, c₁, hlines, h⟩ := bind_ok h
    obtain ⟨close, c₂, hclose, h⟩ := bind_ok h
    cases hclose
    cases h
    obtain ⟨h₁, hin⟩ := Spans.bounded (spans_linesWithin hstatement) _ _ _ hlines
    exact ⟨h₁, .cons h₁ (Nat.le_refl _) hin⟩
  · intro c block c' h
    obtain ⟨lines, c₁, hlines, h⟩ := bind_ok h
    obtain ⟨close, c₂, hclose, h⟩ := bind_ok h
    cases hclose
    cases h
    rfl

theorem spans_condOf {statement : Scan Statement}
    (hstatement : Spans statement Statement.offsets) :
    Spans (condOf statement) Statement.offsets := by
  intro c s c' h
  obtain ⟨stop, c₁, hstop, h⟩ := bind_ok h
  cases hstop
  obtain ⟨_, c₂, hspace, h⟩ := bind_ok h
  obtain ⟨condition, c₃, hcondition, h⟩ := bind_ok h
  obtain ⟨_, c₄, hspace', h⟩ := bind_ok h
  obtain ⟨_, c₅, hopen, h⟩ := bind_ok h
  obtain ⟨thenBlock, c₆, hthen, h⟩ := bind_ok h
  obtain ⟨after, c₇, hafter, h⟩ := bind_ok h
  cases hafter
  obtain ⟨_, c₈, hspace'', h⟩ := bind_ok h
  obtain ⟨text, c₉, hword, h⟩ := bind_ok h
  have h₂ := (advances_skipToContent _ _ _ hspace).le
  obtain ⟨h₃, hin⟩ := spans_expression _ _ _ hcondition
  have h₄ := (advances_skipToContent _ _ _ hspace').le
  have h₅ := (advances_expect _ _ _ _ hopen).le
  obtain ⟨h₆, hthenIn⟩ := (spans_blockOf hstatement).1 _ _ _ hthen
  have h₈ := (advances_skipSpace _ _ _ _ hspace'').le
  have h₉ := (advances_word _ _ _ hword).le
  split at h
  · obtain ⟨_, c₁₀, hspace₃, h⟩ := bind_ok h
    obtain ⟨_, c₁₁, hopen', h⟩ := bind_ok h
    obtain ⟨elseBlock, c₁₂, helse, h⟩ := bind_ok h
    cases h
    have h₁₀ := (advances_skipToContent _ _ _ hspace₃).le
    have h₁₁ := (advances_expect _ _ _ _ hopen').le
    obtain ⟨h₁₂, helseIn⟩ := (spans_blockOf hstatement).1 _ _ _ helse
    exact ⟨by omega, .cons (by omega) (by omega) (.append (.append
      (hin.widen (by omega) (by omega)) (hthenIn.widen (by omega) (by omega)))
      (helseIn.widen (by omega) (by omega)))⟩
  · obtain ⟨_, c₁₀, hset, h⟩ := bind_ok h
    cases hset
    cases h
    exact ⟨by omega, .cons (by omega) (by omega) (.append
      (hin.widen (by omega) (by omega)) (hthenIn.widen (by omega) (by omega)))⟩

theorem spans_initializer : Spans initializer Expression.offsets := by
  intro c e c' h
  obtain ⟨_, c₁, hspace, h⟩ := bind_ok h
  obtain ⟨_, c₂, hequals, h⟩ := bind_ok h
  obtain ⟨_, c₃, hspace', h⟩ := bind_ok h
  have h₁ := (advances_skipToContent _ _ _ hspace).le
  have h₂ := (advances_expect _ _ _ _ hequals).le
  have h₃ := (advances_skipToContent _ _ _ hspace').le
  obtain ⟨h₄, hin⟩ := spans_expression _ _ _ h
  exact ⟨by omega, hin.widen (by omega) (by omega)⟩

theorem spans_retOf : Spans retOf Statement.offsets := by
  intro c s c' h
  obtain ⟨more, c₁, hmore, h⟩ := bind_ok h
  have h₁ := (advances_expressionContinues _ _ _ hmore).le
  split at h
  · obtain ⟨start, c₂, hstart, h⟩ := bind_ok h
    cases hstart
    obtain ⟨value, c₃, hvalue, h⟩ := bind_ok h
    cases h
    obtain ⟨h₃, hin⟩ := spans_expression _ _ _ hvalue
    exact ⟨by omega, .cons (by omega) (by omega) (hin.widen (by omega) (by omega))⟩
  · obtain ⟨start, c₂, hstart, h⟩ := bind_ok h
    cases hstart
    cases h
    exact ⟨h₁, .cons h₁ (Nat.le_refl _) (.nil _ _)⟩

theorem spans_statementWithin (depth : Nat) :
    Spans (statementWithin depth) Statement.offsets := by
  induction depth with
  | zero => exact Ensures.throw _
  | succ depth ih =>
    intro c s c' h
    obtain ⟨_, c₁, hspace, h⟩ := bind_ok h
    obtain ⟨head, c₂, hhead, h⟩ := bind_ok h
    -- Every offset of the statement is one at which one of its readers began or ended, and they only advance.
    have h₁ := (advances_skipToContent _ _ _ hspace).le
    have h₂ := (advances_statementHead _ _ _ hhead).le
    cases head with
    | reserved word =>
      cases word with
      | ret =>
        obtain ⟨h₃, hin⟩ := spans_retOf _ _ _ h
        exact ⟨by omega, hin.widen (by omega) (by omega)⟩
      | cond =>
        obtain ⟨h₃, hin⟩ := spans_condOf ih _ _ _ h
        exact ⟨by omega, hin.widen (by omega) (by omega)⟩
    | call callee | methodCall target member =>
      obtain ⟨stop, c₃, hstop, h⟩ := bind_ok h
      cases hstop
      obtain ⟨arguments, c₄, harguments, h⟩ := bind_ok h
      obtain ⟨close, c₅, hclose, h⟩ := bind_ok h
      cases hclose
      cases h
      obtain ⟨h₄, hin⟩ := spans_callArguments _ _ _ harguments
      exact ⟨by omega, .cons (by omega) (by omega) (.cons (by omega) (by omega)
        (hin.widen (by omega) (by omega)))⟩
    | assignField target member =>
      obtain ⟨stop, c₃, hstop, h⟩ := bind_ok h
      cases hstop
      obtain ⟨value, c₄, hvalue, h⟩ := bind_ok h
      cases h
      obtain ⟨h₄, hin⟩ := spans_initializer _ _ _ hvalue
      exact ⟨by omega, .cons (by omega) (by omega) (hin.widen (by omega) (by omega))⟩
    | declare name =>
      obtain ⟨_, c₃, hspace', h⟩ := bind_ok h
      obtain ⟨typeName, c₄, hword, h⟩ := bind_ok h
      obtain ⟨stop, c₅, hstop, h⟩ := bind_ok h
      cases hstop
      obtain ⟨value, c₆, hvalue, h⟩ := bind_ok h
      cases h
      have h₃ := (advances_skipToContent _ _ _ hspace').le
      have h₄ := (advances_nonemptyWord _ _ _ hword).le
      obtain ⟨h₆, hin⟩ := spans_initializer _ _ _ hvalue
      exact ⟨by omega, .cons (by omega) (by omega) (hin.widen (by omega) (by omega))⟩
    | assign name =>
      obtain ⟨stop, c₃, hstop, h⟩ := bind_ok h
      cases hstop
      obtain ⟨_, c₄, hspace', h⟩ := bind_ok h
      obtain ⟨value, c₅, hvalue, h⟩ := bind_ok h
      cases h
      have h₄ := (advances_skipToContent _ _ _ hspace').le
      obtain ⟨h₅, hin⟩ := spans_expression _ _ _ hvalue
      exact ⟨by omega, .cons (by omega) (by omega) (hin.widen (by omega) (by omega))⟩

/-- Every offset that the tree of a body keeps lies within the body. -/
theorem spans_block : Spans block Block.offsets :=
  (spans_blockOf (.bounded spans_statementWithin)).1

/-- The offset that the tree of a body gives for its end is where reading it ended. -/
theorem close_block : Ensures block fun _ b c' => b.close = c'.offset :=
  (spans_blockOf (.bounded spans_statementWithin)).2

end Scan

end Straightline
