import Mathlib.Logic.Function.Iterate
import Straightline.Proofs.Reading.Locality

/-!
# Skipping without a bound

The readers that skip carry a bound on their nesting and on their lists. What they stand for is a recursion
without one: an expression goes back to the elements of a list for every call in it, a list to itself for
every further element, a block to statements and a statement to blocks. `Walk.next` is that recursion,
unrolled once at each of the three places where it comes back to itself.

It comes back only after it has taken a byte, whatever the cursor did in between. So on fewer than `n` bytes
nothing is left of what stands at the bottom of `n` unrollings (`Walk.unrolled`), and the readers with their
bounds are what the recursion without them defines (`Walk.next_skippers`).
-/

set_option autoImplicit false

namespace Straightline

namespace Scan

variable {α β : Type}

/-! ## One unrolling -/

/-- Skips a term, the arguments of which are skipped by `arguments` if it is a call. -/
def termBy (arguments : Scan Unit) : Scan Unit := do
  match ← termHead with
  | .word _ | .field _ _ => return ()
  | .call _ | .methodCall _ _ => arguments

/-- Skips an operator and a term with the steps after it, if the line goes on. -/
def stepsBy (term others : Scan Unit) : Scan Unit := do
  if ← expressionContinues then
    discard operator
    skipToContent
    term
    others
  else return ()

/-- Skips the parenthesis that closes a list, or else element number `index` and those after it. -/
def elementsBy (expression others : Scan Unit) (index : Nat) : Scan Unit := do
  skipToContent
  if ← lookingAt Byte.closeParen then advance
  else
    separator index
    discard label
    skipToContent
    expression
    others

/-- Skips the brace that closes a block, or else a statement and those after it. -/
def linesBy (statement others : Scan Unit) : Scan Unit := do
  skipToContent
  if ← lookingAt Byte.closeBrace then advance
  else
    statement
    others

def initializerBy (expression : Scan Unit) : Scan Unit := do
  skipToContent
  expect Byte.equals
  skipToContent
  expression

/-- Skips what follows `if`. -/
def condBy (expression block : Scan Unit) : Scan Unit := do
  skipToContent
  expression
  skipToContent
  expect Byte.openBrace
  block
  let after ← get
  skipSpace true
  if (← word) = "else" then
    skipToContent
    expect Byte.openBrace
    block
  else set after

def statementBy (expression arguments block : Scan Unit) : Scan Unit := do
  skipToContent
  match ← statementHead with
  | .reserved .ret => if ← expressionContinues then expression else return ()
  | .reserved .cond => condBy expression block
  | .call _ | .methodCall _ _ => arguments
  | .assignField _ _ => initializerBy expression
  | .declare _ =>
    skipToContent
    discard nonemptyWord
    initializerBy expression
  | .assign _ =>
    skipToContent
    expression

/-- Skips the elements of a list from number `index` on, at most `bound` of them. -/
def skipElementsWithin (expression : Scan Unit) (index bound : Nat) : Scan Unit :=
  discard (argumentsWithin (fun _ => do
    skipToContent
    expression) index bound)

/-- Skips the elements of a list from number `index` on and the parenthesis that closes it. -/
def skipElements (index : Nat) : Scan Unit := bounded (skipElementsWithin skipExpression index)

/-- Skips the steps that follow a term. -/
def skipSteps : Scan Unit := bounded (skipStepsWithin skipTerm)

/-- The readers to which skipping comes back. -/
@[ext]
structure Walk where
  elements : Nat → Scan Unit
  steps : Scan Unit
  lines : Scan Unit

namespace Walk

variable (w : Walk)

def value : Scan Unit := termBy (w.elements 0)

def expression : Scan Unit := do
  w.value
  w.steps

def statement : Scan Unit := statementBy w.expression (w.elements 0) w.lines

/-- The recursion, unrolled once. -/
def next : Walk where
  elements := fun index => elementsBy w.expression (w.elements (index + 1)) index
  steps := stepsBy w.value w.steps
  lines := linesBy w.statement w.lines

/-- The readers that skip. -/
def skippers : Walk where
  elements := skipElements
  steps := skipSteps
  lines := skipBlock

end Walk

/-! ## Readers that are the same on few bytes -/

/-- The readers do the same wherever fewer than `n` bytes are left. -/
def Same (n : Nat) (r r' : Scan α) : Prop := ∀ c : Cursor, c.rest.length < n → r c = r' c

namespace Same

variable {m n : Nat} {r r' s s' : Scan α} {k k' : α → Scan β}

theorem refl (n : Nat) (r : Scan α) : Same n r r := fun _ _ => rfl

theorem zero (r r' : Scan α) : Same 0 r r' := fun _ hlt => absurd hlt (Nat.not_lt_zero _)

theorem mono (h : Same n r r') (hle : m ≤ n) : Same m r r' :=
  fun c hlt => h c (Nat.lt_of_lt_of_le hlt hle)

/-- A sequence. What its first part takes is left less for the rest. -/
theorem seq (hr : Same n r r') (htakes : Takes m r') (hk : ∀ a, Same (n - m) (k a) (k' a)) :
    Same n (r >>= k) (r' >>= k') := by
  intro c hlt
  have hrc := hr c hlt
  cases h : r' c with
  | ok a c₁ =>
    obtain ⟨taken, htaken, hleast⟩ := htakes c a c₁ h
    have hlength := congrArg List.length htaken
    rw [List.length_append] at hlength
    rw [bind_of_ok (hrc.trans h), bind_of_ok h]
    exact hk a c₁ (by omega)
  | error e c₁ => rw [bind_of_error (hrc.trans h), bind_of_error h]

theorem bind (hr : Same n r r') (hadvances : Advances r') (hk : ∀ a, Same n (k a) (k' a)) :
    Same n (r >>= k) (r' >>= k') :=
  hr.seq hadvances.takes hk

/-- What follows a reader that takes a byte. -/
theorem after (htakes : Takes 1 r) (hk : ∀ a, Same n (k a) (k' a)) :
    Same (n + 1) (r >>= k) (r >>= k') :=
  (refl (n + 1) r).seq htakes hk

/-- What follows a reader that may take none. -/
theorem tail (hadvances : Advances r) (hk : ∀ a, Same n (k a) (k' a)) :
    Same n (r >>= k) (r >>= k') :=
  (refl n r).bind hadvances hk

theorem ite {p : Prop} [Decidable p] (h : Same n r r') (h' : Same n s s') :
    Same n (if p then r else s) (if p then r' else s') := by
  split
  · exact h
  · exact h'

/-- Bounds do not matter that exceed the number of bytes left, where the recursion comes back to fewer
bytes and what it calls besides is the same on fewer than `n`. -/
theorem of_bounds {ι : Type} (reader reader' : ι → Nat → Scan α)
    (hsucc : ∀ {m b b' : Nat}, m < n → (∀ i, Same m (reader i b) (reader' i b')) →
      ∀ i, Same (m + 1) (reader i (b + 1)) (reader' i (b' + 1)))
    {b b' : Nat} (hm : m ≤ n) (hb : m ≤ b) (hb' : m ≤ b') (i : ι) :
    Same m (reader i b) (reader' i b') := by
  induction m generalizing b b' i with
  | zero => exact .zero _ _
  | succ m ih =>
    obtain ⟨b, rfl⟩ := Nat.exists_eq_add_of_le' hb
    obtain ⟨b', rfl⟩ := Nat.exists_eq_add_of_le' hb'
    exact hsucc hm (ih (Nat.le_of_succ_le hm) (Nat.le_add_left m b) (Nat.le_add_left m b')) i

theorem bounded {reader reader' : Nat → Scan α}
    (h : ∀ m b b', m ≤ n → m ≤ b → m ≤ b' → Same m (reader b) (reader' b')) :
    Same n (bounded reader) (bounded reader') := by
  intro c hlt
  exact h (c.rest.length + 1) _ _ hlt (Nat.le_refl _) (Nat.le_refl _) c (Nat.lt_succ_self _)

/-- A reader of which bounds do not matter is its own unrolling. -/
theorem unroll {reader : Nat → Scan α} {r : Scan α}
    (hbounds : ∀ m b b', m ≤ b → m ≤ b' → Same m (reader b) (reader b'))
    (hsucc : ∀ b, Same b (reader b) (Scan.bounded reader) → Same (b + 1) (reader (b + 1)) r) :
    Scan.bounded reader = r := by
  funext c
  -- The reader chooses its bound by the bytes left at `c`; where it comes back to itself fewer are left, so that
  -- bound is as good as the one it would choose there.
  refine hsucc c.rest.length ?_ c (Nat.lt_succ_self _)
  intro c₁ hlt
  exact hbounds (c₁.rest.length + 1) _ _ hlt (Nat.le_refl _) c₁ (Nat.lt_succ_self _)

end Same

/-! ## What an unrolling takes -/

section Takes

variable {least : Nat} {e s o a b : Scan Unit}

/-- What follows a reader takes as much as it does alone. -/
theorem Takes.after {r : Scan α} {k : α → Scan β} (hr : Advances r) (hk : ∀ a, Takes least (k a)) :
    Takes least (r >>= k) :=
  (hr.takes.bind hk).weaken (Nat.le_add_left _ _)

theorem Takes.before {r : Scan α} {k : α → Scan β} (hr : Takes least r) (hk : ∀ a, Advances (k a)) :
    Takes least (r >>= k) :=
  hr.bind fun a => (hk a).takes

/-- Where a delimiter stands it is taken. -/
theorem takes_delimited {stop : UInt8} {r : Scan Unit} (hr : Takes 1 r) :
    Takes 1 (lookingAt stop >>= fun here => if here then advance else r) := by
  intro c x c' h
  obtain ⟨here, c₁, hhere, h⟩ := bind_ok h
  cases hhere
  split at h
  · rename_i hpeek
    cases h
    obtain ⟨rest, offset⟩ := c
    cases rest with
    | nil => cases hpeek
    | cons first rest => exact ⟨[first], rfl, Nat.le_refl _⟩
  · exact hr _ _ _ h

theorem takes_termHead : Takes 1 termHead := by
  refine Fork.takes_nonemptyWord.before fun text => advances_suffix.bind fun after => ?_
  cases after <;> exact .pure _

theorem takes_statementHead : Takes 1 statementHead := by
  refine Fork.takes_nonemptyWord.before fun name => ?_
  cases ReservedWord.ofText? name with
  | some word => exact .pure _
  | none =>
    refine advances_suffix.bind fun after => ?_
    cases after with
    | none => exact advances_nameHead name
    | call | member | memberCall => exact .pure _

theorem takes_termBy (ha : Advances a) : Takes 1 (termBy a) := by
  refine takes_termHead.before fun head => ?_
  cases head with
  | word | field => exact .pure _
  | call | methodCall => exact ha

theorem takes_elementsBy (he : Takes 1 e) (ho : Advances o) (index : Nat) :
    Takes 1 (elementsBy e o index) :=
  .after advances_skipToContent fun _ => takes_delimited <|
    .after (advances_separator index) fun _ => .after advances_label.discard fun _ =>
      .after advances_skipToContent fun _ => he.before fun _ => ho

theorem takes_linesBy (hs : Takes 1 s) (ho : Advances o) : Takes 1 (linesBy s o) :=
  .after advances_skipToContent fun _ => takes_delimited (hs.before fun _ => ho)

/-- A reader with a bound takes what it takes with every bound. -/
theorem Takes.bounded {reader : Nat → Scan α} (h : ∀ bound, Takes least (reader bound)) :
    Takes least (bounded reader) :=
  fun c a c' hr => h _ c a c' hr

theorem takes_skipTermWithin (depth : Nat) : Takes 1 (skipTermWithin depth) := by
  cases depth with
  | zero => exact Ensures.throw _
  | succ depth => exact takes_termBy (advances_skipArgumentsOf (advances_skipTermWithin depth))

theorem takes_skipTerm : Takes 1 skipTerm := .bounded takes_skipTermWithin

theorem takes_skipExpressionOf {term : Scan Unit} (htakes : Takes 1 term) (hterm : Advances term) :
    Takes 1 (skipExpressionOf term) :=
  htakes.before fun _ => .bounded (advances_skipStepsWithin hterm)

theorem takes_skipExpression : Takes 1 skipExpression :=
  takes_skipExpressionOf takes_skipTerm advances_skipTerm

theorem advances_skipArguments : Advances skipArguments := advances_skipArgumentsOf advances_skipTerm

theorem takes_skipStatementWithin (depth : Nat) : Takes 1 (skipStatementWithin depth) := by
  cases depth with
  | zero => exact Ensures.throw _
  | succ depth =>
    refine .after advances_skipToContent fun _ => takes_statementHead.before fun head => ?_
    cases head with
    | reserved word =>
      cases word with
      | ret =>
        exact advances_expressionContinues.bind fun _ => .ite advances_skipExpression (.pure _)
      | cond => exact advances_skipCondOf (advances_skipStatementWithin depth)
    | call | methodCall => exact advances_skipArguments
    | assignField => exact advances_skipInitializer
    | declare =>
      exact advances_skipToContent.bind fun _ => advances_nonemptyWord.discard.bind fun _ =>
        advances_skipInitializer
    | assign => exact advances_skipToContent.bind fun _ => advances_skipExpression

theorem takes_skipStatement : Takes 1 skipStatement := .bounded takes_skipStatementWithin

theorem takes_skipBlock : Takes 1 skipBlock := by
  refine .bounded fun bound => ?_
  cases bound with
  | zero => exact Ensures.throw _
  | succ bound =>
    exact takes_linesBy takes_skipStatement
      (advances_skipLinesWithin advances_skipStatement bound)

end Takes

/-! ## Unrollings of readers that are the same -/

section Same

variable {n : Nat} {e e' t t' s s' a a' b b' o o' : Scan Unit}

theorem same_termBy (ha : Same n a a') : Same (n + 1) (termBy a) (termBy a') := by
  refine .after takes_termHead fun head => ?_
  cases head with
  | word | field => exact .refl _ _
  | call | methodCall => exact ha

theorem same_stepsBy (ht : Same n t t') (htakes : Advances t') (ho : Same n o o') :
    Same (n + 1) (stepsBy t o) (stepsBy t' o') := by
  refine .tail advances_expressionContinues fun _ => .ite ?_ (.refl _ _)
  refine .after (discard_eq operator ▸ Fork.takes_operator.before fun _ => .pure _) fun _ => ?_
  exact .tail advances_skipToContent fun _ => ht.bind htakes fun _ => ho

theorem same_elementsBy (he : Same (n + 1) e e') (htakes : Takes 1 e') (ho : Same n o o') (index : Nat) :
    Same (n + 1) (elementsBy e o index) (elementsBy e' o' index) := by
  refine .tail advances_skipToContent fun _ => .tail (advances_lookingAt _) fun _ => .ite (.refl _ _) ?_
  refine .tail (advances_separator index) fun _ => .tail advances_label.discard fun _ => ?_
  exact .tail advances_skipToContent fun _ => he.seq htakes fun _ => ho

theorem same_linesBy (hs : Same (n + 1) s s') (htakes : Takes 1 s') (ho : Same n o o') :
    Same (n + 1) (linesBy s o) (linesBy s' o') := by
  refine .tail advances_skipToContent fun _ => .tail (advances_lookingAt _) fun _ => .ite (.refl _ _) ?_
  exact hs.seq htakes fun _ => ho

theorem same_initializerBy (he : Same n e e') : Same n (initializerBy e) (initializerBy e') :=
  .tail advances_skipToContent fun _ => .tail (advances_expect _) fun _ =>
    .tail advances_skipToContent fun _ => he

theorem advances_get : Advances get := by
  intro c _ c' h
  cases h
  exact .refl _

/-- The cursor may be put back after the first block, but nothing is skipped from there. -/
theorem same_condBy (he : Same n e e') (heAdvances : Advances e') (hb : Same n b b')
    (hbAdvances : Advances b') : Same n (condBy e b) (condBy e' b') := by
  refine .tail advances_skipToContent fun _ => he.bind heAdvances fun _ => ?_
  refine .tail advances_skipToContent fun _ => .tail (advances_expect _) fun _ => ?_
  refine hb.bind hbAdvances fun _ => .tail advances_get fun _ => ?_
  refine .tail (advances_skipSpace true) fun _ => .tail advances_word fun _ => .ite ?_ (.refl _ _)
  exact .tail advances_skipToContent fun _ => .tail (advances_expect _) fun _ => hb

theorem same_statementBy (he : Same n e e') (heAdvances : Advances e') (ha : Same n a a')
    (hb : Same n b b') (hbAdvances : Advances b') :
    Same (n + 1) (statementBy e a b) (statementBy e' a' b') := by
  refine .tail advances_skipToContent fun _ => .after takes_statementHead fun head => ?_
  cases head with
  | reserved word =>
    cases word with
    | ret => exact .tail advances_expressionContinues fun _ => .ite he (.refl _ _)
    | cond => exact same_condBy he heAdvances hb hbAdvances
  | call | methodCall => exact ha
  | assignField => exact same_initializerBy he
  | declare =>
    exact .tail advances_skipToContent fun _ => .tail advances_nonemptyWord.discard fun _ =>
      same_initializerBy he
  | assign => exact .tail advances_skipToContent fun _ => he

end Same

/-! ## Bounds that do not matter -/

section Bounds

variable {m n b b' : Nat} {e e' t t' s s' : Scan Unit}

theorem skipElementsWithin_succ (expression : Scan Unit) (index bound : Nat) :
    skipElementsWithin expression index (bound + 1)
      = elementsBy expression (skipElementsWithin expression (index + 1) bound) index := by
  simp only [skipElementsWithin, elementsBy, argumentsWithin, discard_eq, bind_assoc]
  congr 1
  funext _
  congr 1
  funext closes
  cases closes with
  | true => simp
  | false => simp

theorem advances_skipElementsWithin (he : Advances e) (index bound : Nat) :
    Advances (skipElementsWithin e index bound) :=
  (advances_argumentsWithin (fun _ => advances_skipToContent.bind fun _ => he) bound index).discard

theorem same_skipStepsWithin (ht : Same n t t') (hadvances : Advances t') (hm : m ≤ n) (hb : m ≤ b)
    (hb' : m ≤ b') : Same m (skipStepsWithin t b) (skipStepsWithin t' b') :=
  Same.of_bounds (fun _ : Unit => skipStepsWithin t) (fun _ => skipStepsWithin t')
    (fun hlt ih _ => same_stepsBy (ht.mono (Nat.le_of_lt hlt)) hadvances (ih ())) hm hb hb' ()

theorem same_skipElementsWithin (he : Same n e e') (htakes : Takes 1 e') (hm : m ≤ n) (hb : m ≤ b)
    (hb' : m ≤ b') (index : Nat) :
    Same m (skipElementsWithin e index b) (skipElementsWithin e' index b') := by
  refine Same.of_bounds (fun index b => skipElementsWithin e index b)
    (fun index b => skipElementsWithin e' index b) (fun {m b b'} hlt ih index => ?_) hm hb hb' index
  rw [skipElementsWithin_succ, skipElementsWithin_succ]
  exact same_elementsBy (he.mono hlt) htakes (ih (index + 1)) index

theorem same_skipLinesWithin (hs : Same n s s') (htakes : Takes 1 s') (hm : m ≤ n) (hb : m ≤ b)
    (hb' : m ≤ b') : Same m (skipLinesWithin s b) (skipLinesWithin s' b') :=
  Same.of_bounds (fun _ : Unit => skipLinesWithin s) (fun _ => skipLinesWithin s')
    (fun hlt ih _ => same_linesBy (hs.mono hlt) htakes (ih ())) hm hb hb' ()

theorem same_skipExpressionOf (ht : Same n t t') (hadvances : Advances t') :
    Same n (skipExpressionOf t) (skipExpressionOf t') :=
  ht.bind hadvances fun _ => .bounded fun _ _ _ => same_skipStepsWithin ht hadvances

theorem same_skipArgumentsOf (ht : Same n t t') (htakes : Takes 1 t') (hadvances : Advances t') :
    Same n (skipArgumentsOf t) (skipArgumentsOf t') :=
  .bounded fun _ _ _ hm hb hb' =>
    same_skipElementsWithin (same_skipExpressionOf ht hadvances)
      (takes_skipExpressionOf htakes hadvances) hm hb hb' 0

theorem same_skipTermWithin (hb : n ≤ b) (hb' : n ≤ b') : Same n (skipTermWithin b) (skipTermWithin b') :=
  Same.of_bounds (fun _ : Unit => skipTermWithin) (fun _ => skipTermWithin)
    (fun _ ih _ => same_termBy
      (same_skipArgumentsOf (ih ()) (takes_skipTermWithin _) (advances_skipTermWithin _)))
    (Nat.le_refl n) hb hb' ()

theorem same_skipBlockOf (hs : Same n s s') (htakes : Takes 1 s') :
    Same n (skipBlockOf s) (skipBlockOf s') :=
  .bounded fun _ _ _ => same_skipLinesWithin hs htakes

theorem same_skipStatementWithin (hb : n ≤ b) (hb' : n ≤ b') :
    Same n (skipStatementWithin b) (skipStatementWithin b') :=
  Same.of_bounds (fun _ : Unit => skipStatementWithin) (fun _ => skipStatementWithin)
    (fun _ ih _ => same_statementBy (.refl _ skipExpression) advances_skipExpression
      (.refl _ skipArguments) (same_skipBlockOf (ih ()) (takes_skipStatementWithin _))
      (advances_skipBlockOf (advances_skipStatementWithin _)))
    (Nat.le_refl n) hb hb' ()

end Bounds

/-! ## The recursion without bounds -/

theorem skipTerm_eq : skipTerm = termBy skipArguments :=
  Same.unroll (fun _ _ _ => same_skipTermWithin) fun _ h => same_termBy <|
    same_skipArgumentsOf h takes_skipTerm advances_skipTerm

theorem skipSteps_eq : skipSteps = stepsBy skipTerm skipSteps :=
  Same.unroll (fun _ _ _ => same_skipStepsWithin (.refl _ _) advances_skipTerm (Nat.le_refl _)) fun _ h =>
    same_stepsBy (.refl _ _) advances_skipTerm h

theorem skipElements_eq (index : Nat) :
    skipElements index = elementsBy skipExpression (skipElements (index + 1)) index := by
  have hbounds : ∀ m b b' index, m ≤ b → m ≤ b' →
      Same m (skipElementsWithin skipExpression index b) (skipElementsWithin skipExpression index b') :=
    fun m b b' index hb hb' =>
      same_skipElementsWithin (.refl _ _) takes_skipExpression (Nat.le_refl _) hb hb' index
  refine Same.unroll (fun m b b' => hbounds m b b' index) fun b _ => ?_
  rw [skipElementsWithin_succ]
  refine same_elementsBy (.refl _ _) takes_skipExpression ?_ index
  exact fun c hlt => hbounds (c.rest.length + 1) _ _ _ hlt (Nat.le_refl _) c (Nat.lt_succ_self _)

theorem skipStatement_eq : skipStatement = statementBy skipExpression skipArguments skipBlock :=
  Same.unroll (fun _ _ _ => same_skipStatementWithin) fun _ h =>
    same_statementBy (.refl _ _) advances_skipExpression (.refl _ _)
      (same_skipBlockOf h takes_skipStatement) advances_skipBlock

theorem skipBlock_eq : skipBlock = linesBy skipStatement skipBlock :=
  Same.unroll (fun _ _ _ => same_skipLinesWithin (.refl _ _) takes_skipStatement (Nat.le_refl _)) fun _ h =>
    same_linesBy (.refl _ _) takes_skipStatement h

namespace Walk

variable {w : Walk} {n : Nat}

theorem value_skippers : skippers.value = skipTerm := skipTerm_eq.symm

theorem expression_skippers : skippers.expression = skipExpression := by
  change (skippers.value >>= fun _ => skipSteps) = skipExpression
  rw [value_skippers]
  rfl

theorem statement_skippers : skippers.statement = skipStatement := by
  change statementBy skippers.expression skipArguments skipBlock = skipStatement
  rw [expression_skippers, ← skipStatement_eq]

/-- Unrolling the readers that skip changes nothing. -/
theorem next_skippers : skippers.next = skippers := by
  have helements : skippers.next.elements = skippers.elements := by
    funext index
    change elementsBy skippers.expression _ _ = skipElements index
    rw [expression_skippers, skipElements_eq]
    rfl
  have hsteps : skippers.next.steps = skippers.steps := by
    change stepsBy skippers.value skipSteps = skipSteps
    rw [value_skippers, ← skipSteps_eq]
  have hlines : skippers.next.lines = skippers.lines := by
    change linesBy skippers.statement skipBlock = skipBlock
    rw [statement_skippers, ← skipBlock_eq]
  exact Walk.ext helements hsteps hlines

/-- The readers do what the skipping ones do wherever fewer than `n` bytes are left. -/
structure Skips (n : Nat) (w : Walk) : Prop where
  elements : ∀ index, Same n (w.elements index) (skipElements index)
  steps : Same n w.steps skipSteps
  lines : Same n w.lines skipBlock

/-- A call is recognized by a byte. -/
theorem Skips.value (h : Skips n w) : Same (n + 1) w.value skipTerm := by
  rw [skipTerm_eq]
  exact same_termBy (h.elements 0)

theorem Skips.expression (h : Skips n w) : Same (n + 1) w.expression skipExpression :=
  h.value.seq takes_skipTerm fun _ => h.steps

theorem Skips.statement (h : Skips n w) : Same (n + 1) w.statement skipStatement := by
  rw [skipStatement_eq]
  exact same_statementBy (h.expression.mono (Nat.le_succ n)) advances_skipExpression (h.elements 0)
    h.lines advances_skipBlock

/-- One unrolling does what the skipping readers do on one byte more. -/
theorem Skips.next (h : Skips n w) : Skips (n + 1) w.next where
  elements := fun index => by
    rw [skipElements_eq]
    exact same_elementsBy h.expression takes_skipExpression (h.elements (index + 1)) index
  steps := by
    rw [skipSteps_eq]
    exact same_stepsBy (h.value.mono (Nat.le_succ n)) advances_skipTerm h.steps
  lines := by
    rw [skipBlock_eq]
    exact same_linesBy h.statement takes_skipStatement h.lines

/-- Below `n` unrollings there may be anything: on fewer than `n` bytes it is not come to. -/
theorem skips_unrolled (w : Walk) (n : Nat) : Skips n (next^[n] w) := by
  induction n with
  | zero => exact ⟨fun _ => .zero _ _, .zero _ _, .zero _ _⟩
  | succ n ih =>
    rw [Function.iterate_succ_apply']
    exact ih.next

/-- What is said of how each of the readers ends, wherever it begins. -/
structure Meets (onElements onSteps onLines : Cursor → EStateM.Result Fault Cursor Unit → Prop)
    (w : Walk) : Prop where
  elements : ∀ index c, onElements c (w.elements index c)
  steps : ∀ c, onSteps c (w.steps c)
  lines : ∀ c, onLines c (w.lines c)

/-- The readers that fail at once. -/
def stopped : Walk where
  elements := fun _ => throw .unexpectedEnd
  steps := throw .unexpectedEnd
  lines := throw .unexpectedEnd

/-- What one unrolling inherits holds of the readers that skip, if it holds where they are cut off. -/
theorem meets_skippers {onElements onSteps onLines : Cursor → EStateM.Result Fault Cursor Unit → Prop}
    (hstopped : Meets onElements onSteps onLines stopped)
    (hnext : ∀ w, Meets onElements onSteps onLines w → Meets onElements onSteps onLines w.next) :
    Meets onElements onSteps onLines skippers := by
  have hunrolled : ∀ n, Meets onElements onSteps onLines (next^[n] stopped) := by
    intro n
    induction n with
    | zero => exact hstopped
    | succ n ih =>
      rw [Function.iterate_succ_apply']
      exact hnext _ ih
  -- At `c` the readers that skip do what enough unrollings of the readers that fail do.
  have hskips := fun c : Cursor => skips_unrolled stopped (c.rest.length + 1)
  refine ⟨fun index c => ?_, fun c => ?_, fun c => ?_⟩
  · rw [show skippers.elements index c = _ from
      ((hskips c).elements index c (Nat.lt_succ_self _)).symm]
    exact (hunrolled _).elements index c
  · rw [show skippers.steps c = _ from ((hskips c).steps c (Nat.lt_succ_self _)).symm]
    exact (hunrolled _).steps c
  · rw [show skippers.lines c = _ from ((hskips c).lines c (Nat.lt_succ_self _)).symm]
    exact (hunrolled _).lines c

end Walk

end Scan

end Straightline
