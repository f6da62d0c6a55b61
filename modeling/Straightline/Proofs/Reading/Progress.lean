import Mathlib.Algebra.GroupWithZero.Nat
import Straightline.Proofs.Reading.Lockstep
import Straightline.Proofs.Reading.Unrolling

/-!
# Reading makes progress

Wherever a reader stops, with a value or with a fault, it is at a place that it reached from where it began,
so never beyond the last byte (`Scan.Stays`); the two readers that put the cursor back put it there too. For
the recursion of the readers that skip this is said of one unrolling and holds of any number of them.

Trees are read by the same recursion. Every term, operator and statement of a tree has a byte of its own
(`Scan.Pays`), so what goes through the tree takes no more steps than there are bytes in the text.
-/

set_option autoImplicit false

namespace Straightline

/-! ## The size of a tree -/

mutual

/-- How many terms and operators there are in a term. -/
def Term.size : Term → Nat
  | .word _ _ => 1
  | .field _ _ _ => 1
  | .call _ _ arguments _ => 1 + Argument.sizes arguments
  | .methodCall _ _ _ arguments _ => 1 + Argument.sizes arguments

def Expression.size : Expression → Nat
  | .mk first steps _ => first.size + Step.sizes steps

def Step.sizes : List Step → Nat
  | [] => 0
  | .mk _ _ operand :: rest => 1 + operand.size + Step.sizes rest

def Argument.sizes : List Argument → Nat
  | [] => 0
  | .mk _ _ value :: rest => value.size + Argument.sizes rest

end

mutual

/-- How many statements, terms and operators there are in a statement. -/
def Statement.size : Statement → Nat
  | .ret none _ => 1
  | .ret (some value) _ => 1 + value.size
  | .cond _ condition thenBlock none => 1 + condition.size + thenBlock.size
  | .cond _ condition thenBlock (some elseBlock) =>
    1 + condition.size + thenBlock.size + elseBlock.size
  | .call _ _ arguments _ => 1 + Argument.sizes arguments
  | .methodCall _ _ _ arguments _ => 1 + Argument.sizes arguments
  | .assignField _ _ _ value => 1 + value.size
  | .declare _ _ _ value => 1 + value.size
  | .assign _ _ value => 1 + value.size

def Block.size : Block → Nat
  | .mk lines _ => Line.sizes lines

def Line.sizes : List Line → Nat
  | [] => 0
  | .mk _ statement :: rest => statement.size + Line.sizes rest

end

namespace Scan

variable {α β : Type}

/-! ## Wherever it stops -/

/-- However the reader ends, it does so at a place reached from where it began. -/
def Stays (r : Scan α) : Prop := Keeps Cursor.Reaches r

namespace Stays

variable {r r' : Scan α} {k : α → Scan β}

theorem advances (h : Stays r) : Advances r := fun _ _ _ hr => h.ok hr

theorem pure (a : α) : Stays (pure a : Scan α) := Keeps.pure .refl a

theorem throw (fault : Fault) : Stays (throw fault : Scan α) := Keeps.throw .refl fault

theorem bind (hr : Stays r) (hk : ∀ a, Stays (k a)) : Stays (r >>= k) := Keeps.bind .trans hr hk

theorem discard (hr : Stays r) : Stays (discard r) := by
  rw [discard_eq]
  exact hr.bind fun _ => pure ()

theorem ite {p : Prop} [Decidable p] (h : Stays r) (h' : Stays r') : Stays (if p then r else r') := by
  split
  · exact h
  · exact h'

end Stays

theorem stays_check (outcome : Except Fault α) : Stays (check outcome) := by
  cases outcome with
  | ok a => exact .pure a
  | error fault => exact .throw fault

theorem stays_peek : Stays peek := fun c => .refl c

theorem stays_lookingAt (b : UInt8) : Stays (lookingAt b) := fun c => .refl c

theorem stays_advance : Stays advance := Cursor.reaches_advance

theorem stays_skipSpace (lines : Bool) : Stays (skipSpace lines) := fun c => c.reaches_skip _

theorem stays_word : Stays word := fun c => c.reaches_skip _

theorem stays_skipToContent : Stays skipToContent := by
  refine (stays_skipSpace true).bind fun _ c => ?_
  unfold assertMore
  split <;> exact .refl c

theorem stays_nonemptyWord : Stays nonemptyWord := stays_word.bind fun _ => .ite (.throw _) (.pure _)

theorem stays_expect (expected : UInt8) : Stays (expect expected) := by
  refine stays_peek.bind fun next => ?_
  cases next with
  | none => exact .throw _
  | some b => exact .ite stays_advance (.throw _)

theorem stays_expressionContinues : Stays expressionContinues := by
  have hmore : Stays moreOnLine := by
    refine (stays_skipSpace false).bind fun _ => stays_peek.bind fun next => ?_
    cases next <;> exact .pure _
  refine hmore.bind fun more => .ite (stays_peek.bind fun next => ?_) (.pure _)
  cases next <;> exact .pure _

theorem stays_operator : Stays operator := by
  refine stays_peek.bind fun next => ?_
  cases next with
  | none => exact .throw _
  | some b =>
    exact .ite (stays_advance.bind fun _ => .pure _) (.ite (stays_advance.bind fun _ => .pure _) (.throw _))

theorem stays_suffix : Stays suffix := by
  refine (stays_lookingAt _).bind fun _ => .ite (stays_advance.bind fun _ => .pure _) ?_
  refine (stays_lookingAt _).bind fun _ => .ite (stays_advance.bind fun _ => ?_) (.pure _)
  refine stays_nonemptyWord.bind fun _ => (stays_lookingAt _).bind fun _ => ?_
  exact .ite (stays_advance.bind fun _ => .pure _) (.pure _)

theorem stays_termHead : Stays termHead := by
  refine stays_nonemptyWord.bind fun text => stays_suffix.bind fun after => ?_
  cases after <;> exact .pure _

theorem stays_nameHead (name : String) : Stays (nameHead name) := by
  refine (stays_skipSpace true).bind fun _ => stays_peek.bind fun next => ?_
  cases next with
  | none => exact .throw _
  | some b =>
    exact .ite (stays_advance.bind fun _ => .pure _) (.ite (stays_advance.bind fun _ => .pure _) (.throw _))

theorem stays_statementHead : Stays statementHead := by
  refine stays_nonemptyWord.bind fun name => ?_
  cases ReservedWord.ofText? name with
  | some word => exact .pure _
  | none =>
    refine stays_suffix.bind fun after => ?_
    cases after with
    | none => exact stays_nameHead name
    | call | member | memberCall => exact .pure _

theorem stays_separator (index : Nat) : Stays (separator index) := by
  cases index with
  | zero => exact .pure _
  | succ index => exact (stays_expect _).bind fun _ => stays_skipToContent

/-- The cursor is put back to where the label began. -/
theorem stays_label : Stays label := by
  intro c
  cases h : nonemptyWord c with
  | error e c₁ =>
    change c.Reaches (endState ((nonemptyWord >>= _) c))
    rw [bind_of_error h]
    exact stays_nonemptyWord.error h
  | ok name c₁ =>
    rw [label_of_word h]
    dsimp only
    split
    · exact (stays_nonemptyWord.ok h).trans ((Cursor.reaches_skip _ _).trans (Cursor.reaches_advance _))
    · exact .refl c

section Unrolling

variable {e s a b o : Scan Unit}

theorem stays_termBy (ha : Stays a) : Stays (termBy a) := by
  refine stays_termHead.bind fun head => ?_
  cases head with
  | word | field => exact .pure _
  | call | methodCall => exact ha

theorem stays_stepsBy (hs : Stays s) (ho : Stays o) : Stays (stepsBy s o) :=
  stays_expressionContinues.bind fun _ => .ite
    (stays_operator.discard.bind fun _ => stays_skipToContent.bind fun _ => hs.bind fun _ => ho) (.pure _)

theorem stays_elementsBy (he : Stays e) (ho : Stays o) (index : Nat) : Stays (elementsBy e o index) :=
  stays_skipToContent.bind fun _ => (stays_lookingAt _).bind fun _ => .ite stays_advance <|
    (stays_separator index).bind fun _ => stays_label.discard.bind fun _ =>
      stays_skipToContent.bind fun _ => he.bind fun _ => ho

theorem stays_linesBy (hs : Stays s) (ho : Stays o) : Stays (linesBy s o) :=
  stays_skipToContent.bind fun _ => (stays_lookingAt _).bind fun _ => .ite stays_advance <|
    hs.bind fun _ => ho

theorem stays_initializerBy (he : Stays e) : Stays (initializerBy e) :=
  stays_skipToContent.bind fun _ => (stays_expect _).bind fun _ => stays_skipToContent.bind fun _ => he

/-- Without `else` the cursor is put back to where the first block ended. -/
theorem stays_condBy (he : Stays e) (hb : Stays b) : Stays (condBy e b) := by
  refine stays_skipToContent.bind fun _ => he.bind fun _ => stays_skipToContent.bind fun _ => ?_
  refine (stays_expect _).bind fun _ => hb.bind fun _ after => ?_
  have helse : Stays (skipToContent >>= fun _ => expect Byte.openBrace >>= fun _ => b) :=
    stays_skipToContent.bind fun _ => (stays_expect _).bind fun _ => hb
  have hword : after.Reaches ((after.skip fun b => Byte.isSpace b && (true || b != Byte.lineFeed)).skip
      fun b => !Byte.isSpecial b) := (Cursor.reaches_skip _ _).trans (Cursor.reaches_skip _ _)
  change after.Reaches (endState ((if _ = "else" then _ else set after : Scan Unit) _))
  split
  · exact hword.trans (helse _)
  · exact .refl after

theorem stays_statementBy (he : Stays e) (ha : Stays a) (hb : Stays b) : Stays (statementBy e a b) := by
  refine stays_skipToContent.bind fun _ => stays_statementHead.bind fun head => ?_
  cases head with
  | reserved word =>
    cases word with
    | ret => exact stays_expressionContinues.bind fun _ => .ite he (.pure _)
    | cond => exact stays_condBy he hb
  | call | methodCall => exact ha
  | assignField => exact stays_initializerBy he
  | declare =>
    exact stays_skipToContent.bind fun _ => stays_nonemptyWord.discard.bind fun _ => stays_initializerBy he
  | assign => exact stays_skipToContent.bind fun _ => he

end Unrolling

namespace Walk

variable {w : Walk}

/-- The readers end at places that they reached. -/
def Stays (w : Walk) : Prop :=
  w.Meets (fun c r => c.Reaches (endState r)) (fun c r => c.Reaches (endState r))
    fun c r => c.Reaches (endState r)

theorem Stays.value (h : w.Stays) : Scan.Stays w.value := stays_termBy (h.elements 0)

theorem Stays.expression (h : w.Stays) : Scan.Stays w.expression := h.value.bind fun _ => h.steps

theorem Stays.statement (h : w.Stays) : Scan.Stays w.statement :=
  stays_statementBy h.expression (h.elements 0) h.lines

theorem stays_skippers : skippers.Stays :=
  meets_skippers ⟨fun _ c => .refl c, .refl, .refl⟩ fun w h =>
    have hw : w.Stays := h
    ⟨fun index => stays_elementsBy hw.expression (hw.elements (index + 1)) index,
      stays_stepsBy hw.value hw.steps, stays_linesBy hw.statement hw.lines⟩

end Walk

/-! ## Bytes for everything that is read -/

/-- A success takes at least as many bytes as `size` gives of its value. -/
def Pays (size : α → Nat) (r : Scan α) : Prop :=
  Ensures r fun c a c' => c.offset + size a ≤ c'.offset

theorem Takes.pays {least : Nat} {r : Scan α} (htakes : Takes least r) (hr : Advances r) :
    Pays (fun _ => least) r := by
  intro c a c' h
  obtain ⟨taken, hrest, hoffset⟩ := hr c a c' h
  obtain ⟨taken', hrest', hleast⟩ := htakes c a c' h
  have hsame : taken = taken' := List.append_cancel_right (hrest.symm.trans hrest')
  rw [hoffset, hsame]
  exact Nat.add_le_add_left hleast _

namespace Pays

variable {r r' : Scan α} {k : α → Scan β} {f : α → Nat} {g : β → Nat}

theorem pure {b : β} (h : g b = 0) : Pays g (pure b) := by
  intro c _ c' hr
  cases hr
  rw [h]
  exact Nat.le_refl _

theorem throw (fault : Fault) : Pays f (throw fault) := Ensures.throw fault

/-- The rest has to pay for what the first part has not paid for. -/
theorem bind (hr : Pays f r) (hk : ∀ a, Pays (fun b => g b - f a) (k a)) : Pays g (r >>= k) := by
  intro c b c' h
  obtain ⟨a, c₁, hra, hkb⟩ := bind_ok h
  have h₁ := hr c a c₁ hra
  have h₂ := hk a c₁ b c' hkb
  dsimp only at h₂
  omega

/-- After a reader that pays for nothing. -/
theorem step (hr : Advances r) (hk : ∀ a, Pays g (k a)) : Pays g (r >>= k) :=
  (Takes.pays hr.takes hr).bind hk

/-- After a reader that takes a byte. -/
theorem one (htakes : Takes 1 r) (hr : Advances r) (hk : ∀ a, Pays (fun b => g b - 1) (k a)) :
    Pays g (r >>= k) :=
  (htakes.pays hr).bind hk

theorem ite {p : Prop} [Decidable p] (h : Pays f r) (h' : Pays f r') :
    Pays f (if p then r else r') := by
  split
  · exact h
  · exact h'

theorem bounded {reader : Nat → Scan α} (h : ∀ bound, Pays f (reader bound)) : Pays f (bounded reader) :=
  fun c a c' hr => h _ c a c' hr

end Pays

theorem pays_stepsWithin {term : Scan Term} (hterm : Pays Term.size term) (bound : Nat) :
    Pays Step.sizes (stepsWithin term bound) := by
  induction bound with
  | zero => exact .throw _
  | succ bound ih =>
    refine .step advances_expressionContinues fun _ => .ite ?_ (.pure rfl)
    refine .one Fork.takes_operator advances_operator fun operator => .step advances_offset fun stop => ?_
    refine .step advances_skipToContent fun _ => (hterm.bind fun operand => ih.bind fun others => ?_)
    exact .pure (by simp only [Step.sizes]; omega)

theorem pays_expressionOf {term : Scan Term} (hterm : Pays Term.size term) :
    Pays Expression.size (expressionOf term) := by
  refine hterm.bind fun first => (Pays.bounded (pays_stepsWithin hterm)).bind fun steps => ?_
  exact .step advances_offset fun stop => .pure (by simp only [Expression.size]; omega)

/-- Besides what its elements have paid for, an argument list has its parenthesis. -/
theorem pays_argumentsWithin {read : Nat → Scan α} {size : α → Nat}
    (hread : ∀ index, Pays size (read index)) (bound index : Nat) :
    Pays (fun elements => (elements.map fun e => size e.2).sum) (argumentsWithin read index bound) := by
  induction bound generalizing index with
  | zero => exact .throw _
  | succ bound ih =>
    refine .step advances_skipToContent fun _ => .step (advances_lookingAt _) fun _ => .ite ?_ ?_
    · exact .step advances_advance fun _ => .pure rfl
    · refine .step (advances_separator index) fun _ => .step advances_label fun name => ?_
      refine (hread index).bind fun value => (ih (index + 1)).bind fun others => .pure ?_
      simp only [List.map_cons, List.sum_cons]
      omega

theorem pays_argumentElement {term : Scan Term} (hterm : Pays Term.size term) :
    Pays (fun a => a.2.size) (argumentElement term) :=
  .step advances_offset fun _ => .step advances_skipToContent fun _ =>
    (pays_expressionOf hterm).bind fun _ => .pure (Nat.sub_self _)

theorem sizes_arguments (elements : List (String × Nat × Expression)) :
    Argument.sizes (elements.map argument) = (elements.map fun e => e.2.2.size).sum := by
  induction elements with
  | nil => rfl
  | cons e rest ih => simp [argument, Argument.sizes, ih]

theorem pays_argumentsOf {term : Scan Term} (hterm : Pays Term.size term) :
    Pays Argument.sizes (argumentsOf term) := by
  rw [argumentsOf_eq]
  refine (Pays.bounded fun bound =>
    pays_argumentsWithin (fun _ => pays_argumentElement hterm) bound 0).bind fun elements => .pure ?_
  rw [sizes_arguments, Nat.sub_self]

theorem pays_termWithin (depth : Nat) : Pays Term.size (termWithin depth) := by
  induction depth with
  | zero => exact .throw _
  | succ depth ih =>
    refine .one takes_termHead advances_termHead fun head => .step advances_offset fun stop => ?_
    cases head with
    | word text | field target member => exact .pure rfl
    | call callee | methodCall target member =>
      refine (pays_argumentsOf ih).bind fun arguments => .step advances_offset fun close => .pure ?_
      simp only [Term.size]
      omega

theorem pays_term : Pays Term.size term := .bounded pays_termWithin

theorem pays_expression : Pays Expression.size expression := pays_expressionOf pays_term

theorem pays_callArguments : Pays Argument.sizes callArguments := pays_argumentsOf pays_term

theorem pays_initializer : Pays Expression.size initializer :=
  .step advances_skipToContent fun _ => .step (advances_expect _) fun _ =>
    .step advances_skipToContent fun _ => pays_expression

theorem pays_linesWithin {statement : Scan Statement} (hstatement : Pays Statement.size statement)
    (bound : Nat) : Pays Line.sizes (linesWithin statement bound) := by
  induction bound with
  | zero => exact .throw _
  | succ bound ih =>
    refine .step advances_skipToContent fun _ => .step (advances_lookingAt _) fun _ => .ite ?_ ?_
    · exact .step advances_advance fun _ => .pure rfl
    · refine .step advances_offset fun start => (hstatement.bind fun first => ih.bind fun others => ?_)
      exact .pure (by simp only [Line.sizes]; omega)

theorem pays_blockOf {statement : Scan Statement} (hstatement : Pays Statement.size statement) :
    Pays Block.size (blockOf statement) :=
  (Pays.bounded (pays_linesWithin hstatement)).bind fun _ => .step advances_offset fun _ =>
    .pure (Nat.sub_self _)

theorem pays_retOf : Pays (fun s => Statement.size s - 1) retOf := by
  refine .step advances_expressionContinues fun _ => .ite ?_ ?_
  · refine .step advances_offset fun start => (pays_expression.bind fun value => .pure ?_)
    simp only [Statement.size]
    omega
  · exact .step advances_offset fun start => .pure rfl

/-- The word of the statement has paid for one. -/
theorem pays_condOf {statement : Scan Statement} (hstatement : Pays Statement.size statement) :
    Pays (fun s => Statement.size s - 1) (condOf statement) := by
  refine .step advances_offset fun stop => .step advances_skipToContent fun _ => ?_
  refine pays_expression.bind fun condition => .step advances_skipToContent fun _ => ?_
  refine .step (advances_expect _) fun _ => (pays_blockOf hstatement).bind fun thenBlock => ?_
  intro c s c' h
  obtain ⟨after, c₁, hafter, h⟩ := bind_ok h
  cases hafter
  obtain ⟨_, c₂, hspace, h⟩ := bind_ok h
  obtain ⟨text, c₃, hword, h⟩ := bind_ok h
  have hle := ((advances_skipSpace _ _ _ _ hspace).trans (advances_word _ _ _ hword)).le
  -- The blanks and the word count only with `else`: without it the cursor is back behind the first block.
  split at h
  · have helse : Pays (fun s => Statement.size s - 1 - condition.size - thenBlock.size) (do
        skipToContent
        expect Byte.openBrace
        let elseBlock ← blockOf statement
        return .cond stop condition thenBlock (some elseBlock)) := by
      refine .step advances_skipToContent fun _ => .step (advances_expect _) fun _ => ?_
      refine (pays_blockOf hstatement).bind fun elseBlock => .pure ?_
      simp only [Statement.size]
      omega
    exact Nat.le_trans (Nat.add_le_add_right hle _) (helse c₃ s c' h)
  · obtain ⟨_, c₄, hset, h⟩ := bind_ok h
    cases hset
    cases h
    simp only [Statement.size]
    omega

theorem pays_statementWithin (depth : Nat) : Pays Statement.size (statementWithin depth) := by
  induction depth with
  | zero => exact .throw _
  | succ depth ih =>
    refine .step advances_skipToContent fun _ => .one takes_statementHead advances_statementHead ?_
    intro head
    cases head with
    | reserved word =>
      cases word with
      | ret => exact pays_retOf
      | cond => exact pays_condOf ih
    | call callee | methodCall target member =>
      refine .step advances_offset fun stop => (pays_callArguments.bind fun arguments => ?_)
      refine .step advances_offset fun close => .pure ?_
      simp only [Statement.size]
      omega
    | assignField target member =>
      refine .step advances_offset fun stop => (pays_initializer.bind fun value => .pure ?_)
      simp only [Statement.size]
      omega
    | declare name =>
      refine .step advances_skipToContent fun _ => .step advances_nonemptyWord fun typeName => ?_
      refine .step advances_offset fun stop => (pays_initializer.bind fun value => .pure ?_)
      simp only [Statement.size]
      omega
    | assign name =>
      refine .step advances_offset fun stop => .step advances_skipToContent fun _ => ?_
      refine pays_expression.bind fun value => .pure ?_
      simp only [Statement.size]
      omega

theorem pays_statement : Pays Statement.size statement := .bounded pays_statementWithin

theorem pays_block : Pays Block.size block := pays_blockOf pays_statement

end Scan

end Straightline
