import Straightline.Proofs.Control
import Straightline.Project.Constant
import Straightline.Syntax.Header
import Straightline.Proofs.Trees.Reading
import Straightline.Syntax.Skipping

/-!
# Where a reader stops

A reader that succeeds takes a run of bytes off the front of what is left and moves the offset by as
many (`Scan.Advances`). So a cursor reached from the start of a source is the place `Cursor.seek` of
its own offset: an offset that was kept is enough to come back to the same bytes.

Two readers put the cursor back, `Scan.label` and the one after the first block of an `if`, and both
to a place that they had reached themselves.
-/

set_option autoImplicit false

namespace Straightline

namespace Cursor

/-- `c'` is left after taking some bytes from `c`. -/
def Reaches (c c' : Cursor) : Prop :=
  ∃ taken, c.rest = taken ++ c'.rest ∧ c'.offset = c.offset + taken.length

namespace Reaches

variable {c c' c'' : Cursor}

theorem refl (c : Cursor) : c.Reaches c := ⟨[], rfl, rfl⟩

theorem trans (h : c.Reaches c') (h' : c'.Reaches c'') : c.Reaches c'' := by
  obtain ⟨taken, hrest, hoffset⟩ := h
  obtain ⟨taken', hrest', hoffset'⟩ := h'
  refine ⟨taken ++ taken', ?_, ?_⟩
  · rw [hrest, hrest', List.append_assoc]
  · rw [hoffset', hoffset, List.length_append, Nat.add_assoc]

theorem le (h : c.Reaches c') : c.offset ≤ c'.offset := by
  obtain ⟨taken, _, hoffset⟩ := h
  omega

theorem length_le (h : c.Reaches c') : c'.rest.length ≤ c.rest.length := by
  obtain ⟨taken, hrest, _⟩ := h
  rw [hrest, List.length_append]
  exact Nat.le_add_left _ _

/-- A place reached from the start of a source is found again by its offset. -/
theorem eq_seek {bytes : List UInt8} (h : (Cursor.start bytes).Reaches c) :
    c = .seek bytes c.offset := by
  obtain ⟨rest, offset⟩ := c
  obtain ⟨taken, hrest, hoffset⟩ := h
  simp only [Cursor.start, Nat.zero_add] at hrest hoffset
  subst hrest hoffset
  simp [Cursor.seek]

end Reaches

theorem reaches_advance (c : Cursor) : c.Reaches c.advance := by
  obtain ⟨rest, offset⟩ := c
  cases rest with
  | nil => exact .refl _
  | cons b rest => exact ⟨[b], rfl, rfl⟩

theorem reaches_skip (c : Cursor) (keep : UInt8 → Bool) : c.Reaches (c.skip keep) :=
  ⟨c.run keep, List.takeWhile_append_dropWhile.symm, rfl⟩

theorem skip_skip {keep keep' : UInt8 → Bool} (h : ∀ b, keep b = true → keep' b = true) (c : Cursor) :
    (c.skip keep).skip keep' = c.skip keep' := by
  obtain ⟨rest, offset⟩ := c
  induction rest generalizing offset with
  | nil => rfl
  | cons b rest ih =>
    cases hkeep : keep b with
    | false => simp [skip, run, hkeep]
    | true =>
      have hrest := ih (offset + 1)
      simp only [skip, run, mk.injEq] at hrest
      simp only [skip, run, List.dropWhile_cons, List.takeWhile_cons, hkeep, h b hkeep, if_true,
        List.length_cons, mk.injEq]
      exact ⟨hrest.1, by omega⟩

/-- The byte after a run ends it. -/
theorem peek_skip {keep : UInt8 → Bool} {c : Cursor} {b : UInt8} (h : (c.skip keep).peek = some b) :
    keep b = false := by
  have hhead := List.head?_dropWhile_not keep c.rest
  rw [show (c.rest.dropWhile keep).head? = some b from h] at hhead
  simpa using hhead

/-- Where the next byte is not kept there is nothing to skip. -/
theorem skip_of_peek {keep : UInt8 → Bool} {c : Cursor} {b : UInt8} (h : c.peek = some b)
    (hkeep : keep b = false) : c.skip keep = c := by
  obtain ⟨rest, offset⟩ := c
  cases rest with
  | nil => cases h
  | cons first rest =>
    cases h
    simp [skip, run, hkeep]

end Cursor

namespace Scan

variable {α β : Type}

/-- The bound that a reader is run with. -/
theorem bounded_apply (reader : Nat → Scan α) (c : Cursor) :
    bounded reader c = reader (c.rest.length + 1) c := rfl

/-- A success leaves the cursor at a place reached from where it was. -/
def Advances (r : Scan α) : Prop := Ensures r fun c _ c' => c.Reaches c'

namespace Advances

variable {r : Scan α} {k : α → Scan β}

theorem pure (a : α) : Advances (pure a : Scan α) := by
  intro c _ c' h
  cases h
  exact .refl _

theorem throw (fault : Fault) : Advances (throw fault : Scan α) := Ensures.throw fault

theorem bind (hr : Advances r) (hk : ∀ a, Advances (k a)) : Advances (r >>= k) := by
  intro c b c' h
  obtain ⟨a, c₁, hra, hkb⟩ := bind_ok h
  exact (hr c a c₁ hra).trans (hk a c₁ b c' hkb)

theorem discard (hr : Advances r) : Advances (discard r) := by
  rw [discard_eq]
  exact hr.bind fun _ => pure ()

theorem ite {p : Prop} [Decidable p] {r r' : Scan α} (h : Advances r) (h' : Advances r') :
    Advances (if p then r else r') := by
  split
  · exact h
  · exact h'

theorem bounded {reader : Nat → Scan α} (h : ∀ bound, Advances (reader bound)) :
    Advances (bounded reader) :=
  fun c a c' hr => h _ c a c' hr

end Advances

/-! ## Bytes and words -/

theorem advances_offset : Advances offset := by
  intro c _ c' h
  cases h
  exact .refl _

theorem advances_peek : Advances peek := by
  intro c _ c' h
  cases h
  exact .refl _

theorem advances_lookingAt (b : UInt8) : Advances (lookingAt b) := by
  intro c _ c' h
  cases h
  exact .refl _

theorem advances_advance : Advances advance := by
  intro c _ c' h
  cases h
  exact c.reaches_advance

theorem advances_skipSpace (lines : Bool) : Advances (skipSpace lines) := by
  intro c _ c' h
  cases h
  exact c.reaches_skip _

theorem advances_word : Advances word := by
  intro c _ c' h
  cases h
  exact c.reaches_skip _

theorem advances_assertMore : Advances assertMore := by
  intro c _ c' h
  unfold assertMore at h
  split at h <;> cases h
  exact .refl _

theorem advances_require (holds : Bool) (fault : Fault) : Advances (require holds fault) :=
  .ite (.pure _) (.throw _)

theorem advances_check (outcome : Except Fault α) : Advances (check outcome) := by
  cases outcome with
  | ok value => exact .pure _
  | error fault => exact .throw _

theorem advances_skipToContent : Advances skipToContent :=
  (advances_skipSpace true).bind fun _ => advances_assertMore

theorem advances_nonemptyWord : Advances nonemptyWord :=
  advances_word.bind fun _ => .ite (.throw _) (.pure _)

theorem advances_expect (expected : UInt8) : Advances (expect expected) := by
  refine advances_peek.bind ?_
  intro next
  cases next with
  | none => exact .throw _
  | some b => exact .ite advances_advance (.throw _)

theorem advances_arrow : Advances arrow := (advances_expect _).bind fun _ => advances_expect _

theorem advances_moreOnLine : Advances moreOnLine := by
  refine (advances_skipSpace false).bind fun _ => advances_peek.bind ?_
  intro next
  cases next with
  | none => exact .pure _
  | some b => exact .pure _

/-! ## Heads -/

theorem advances_expressionContinues : Advances expressionContinues := by
  refine advances_moreOnLine.bind fun more => .ite (advances_peek.bind fun next => ?_) (.pure _)
  cases next with
  | none => exact .pure _
  | some b => exact .pure _

theorem advances_operator : Advances operator := by
  refine advances_peek.bind ?_
  intro next
  cases next with
  | none => exact .throw _
  | some b =>
    exact .ite (advances_advance.bind fun _ => .pure _)
      (.ite (advances_advance.bind fun _ => .pure _) (.throw _))

theorem advances_suffix : Advances suffix := by
  refine (advances_lookingAt _).bind fun _ => .ite (advances_advance.bind fun _ => .pure _) ?_
  refine (advances_lookingAt _).bind fun _ => .ite (advances_advance.bind fun _ => ?_) (.pure _)
  refine advances_nonemptyWord.bind fun _ => (advances_lookingAt _).bind ?_
  intro _
  exact .ite (advances_advance.bind fun _ => .pure _) (.pure _)

theorem advances_termHead : Advances termHead := by
  refine advances_nonemptyWord.bind fun _ => advances_suffix.bind ?_
  intro after
  cases after <;> exact .pure _

theorem advances_nameHead (name : String) : Advances (nameHead name) := by
  refine (advances_skipSpace true).bind fun _ => advances_peek.bind ?_
  intro next
  cases next with
  | none => exact .throw _
  | some b =>
    exact .ite (advances_advance.bind fun _ => .pure _)
      (.ite (advances_advance.bind fun _ => .pure _) (.throw _))

theorem advances_statementHead : Advances statementHead := by
  refine advances_nonemptyWord.bind ?_
  intro name
  cases ReservedWord.ofText? name with
  | some word => exact .pure _
  | none =>
    refine advances_suffix.bind ?_
    intro after
    cases after with
    | none => exact advances_nameHead name
    | call | member | memberCall => exact .pure _

/-! ## Argument lists -/

theorem advances_separator (index : Nat) : Advances (separator index) := by
  cases index with
  | zero => exact .pure _
  | succ index => exact (advances_expect _).bind fun _ => advances_skipToContent

/-- What `label` does after the first word of an element. -/
theorem label_of_word {c c₁ : Cursor} {name : String} (h : nonemptyWord c = .ok name c₁) :
    label c =
      let blanks := c₁.skip fun b => Byte.isSpace b && (true || b != Byte.lineFeed)
      if blanks.peek == some Byte.colon then .ok name blanks.advance else .ok name c := by
  change (nonemptyWord >>= _) c = _
  rw [bind_of_ok h]
  change (if _ then _ else _ : Scan String) _ = _
  dsimp only
  split <;> rfl

/-- Without a colon the cursor is put back to where the label began. -/
theorem advances_label : Advances label := by
  intro c name c' h
  obtain ⟨before, c₁, hget, h⟩ := bind_ok h
  cases hget
  obtain ⟨word, c₂, hword, h⟩ := bind_ok h
  obtain ⟨_, c₃, hspace, h⟩ := bind_ok h
  obtain ⟨colon, c₄, hcolon, h⟩ := bind_ok h
  split at h
  · have hto := (advances_nonemptyWord _ _ _ hword).trans
      ((advances_skipSpace true _ _ _ hspace).trans (advances_lookingAt _ _ _ _ hcolon))
    exact hto.trans ((advances_advance.bind fun _ => .pure _) _ _ _ h)
  · obtain ⟨_, c₅, hset, h⟩ := bind_ok h
    cases hset
    cases h
    exact .refl _

theorem advances_argumentsWithin {read : Nat → Scan α} (hread : ∀ index, Advances (read index))
    (bound index : Nat) : Advances (argumentsWithin read index bound) := by
  induction bound generalizing index with
  | zero => exact .throw _
  | succ bound ih =>
    refine advances_skipToContent.bind fun _ => (advances_lookingAt _).bind ?_
    intro _
    refine .ite (advances_advance.bind fun _ => .pure _) ?_
    refine (advances_separator index).bind fun _ => advances_label.bind ?_
    intro _
    exact (hread index).bind fun _ => (ih (index + 1)).bind fun _ => .pure _

theorem advances_arguments {read : Nat → Scan α} (hread : ∀ index, Advances (read index)) :
    Advances (arguments read) :=
  .bounded fun bound => advances_argumentsWithin hread bound 0

theorem advances_positional {expected : List Ty} {read : Ty → Scan α}
    (hread : ∀ ty, Advances (read ty)) : Advances (positional expected read) := by
  refine (advances_arguments fun index => ?_).bind fun _ => .ite (.throw _) (.pure _)
  split
  · exact .throw _
  · exact advances_skipToContent.bind fun _ => hread _

/-! ## Arguments -/

/-- Reads what an argument is besides its label. -/
def argumentElement (term : Scan Term) : Scan (Nat × Expression) := do
  let start ← offset
  skipToContent
  let value ← expressionOf term
  return (start, value)

/-- The argument that was read as this element of a list. -/
def argument (element : String × Nat × Expression) : Argument := .mk element.1 element.2.1 element.2.2

theorem argumentsOf_eq (term : Scan Term) :
    argumentsOf term = (do
      let elements ← arguments fun _ => argumentElement term
      return elements.map argument) := rfl

/-! ## Skipping -/

theorem advances_skipStepsWithin {term : Scan Unit} (hterm : Advances term) (bound : Nat) :
    Advances (skipStepsWithin term bound) := by
  induction bound with
  | zero => exact .throw _
  | succ bound ih =>
    refine advances_expressionContinues.bind fun _ => .ite ?_ (.pure _)
    exact advances_operator.discard.bind fun _ => advances_skipToContent.bind fun _ =>
      hterm.bind fun _ => ih

theorem advances_skipExpressionOf {term : Scan Unit} (hterm : Advances term) :
    Advances (skipExpressionOf term) :=
  hterm.bind fun _ => .bounded (advances_skipStepsWithin hterm)

theorem advances_skipArgumentsOf {term : Scan Unit} (hterm : Advances term) :
    Advances (skipArgumentsOf term) :=
  (advances_arguments fun _ =>
    advances_skipToContent.bind fun _ => advances_skipExpressionOf hterm).discard

theorem advances_skipTermWithin (depth : Nat) : Advances (skipTermWithin depth) := by
  induction depth with
  | zero => exact .throw _
  | succ depth ih =>
    refine advances_termHead.bind ?_
    intro head
    cases head with
    | word | field => exact .pure _
    | call | methodCall => exact advances_skipArgumentsOf ih

theorem advances_skipTerm : Advances skipTerm := .bounded advances_skipTermWithin

theorem advances_skipExpression : Advances skipExpression :=
  advances_skipExpressionOf advances_skipTerm

theorem advances_skipInitializer : Advances skipInitializer :=
  advances_skipToContent.bind fun _ => (advances_expect _).bind fun _ =>
    advances_skipToContent.bind fun _ => advances_skipExpression

theorem advances_skipLinesWithin {statement : Scan Unit} (hstatement : Advances statement)
    (bound : Nat) : Advances (skipLinesWithin statement bound) := by
  induction bound with
  | zero => exact .throw _
  | succ bound ih =>
    refine advances_skipToContent.bind fun _ => (advances_lookingAt _).bind ?_
    intro _
    exact .ite advances_advance (hstatement.bind fun _ => ih)

theorem advances_skipBlockOf {statement : Scan Unit} (hstatement : Advances statement) :
    Advances (skipBlockOf statement) :=
  .bounded (advances_skipLinesWithin hstatement)

/-- Without `else` the cursor is put back to where the first block ended. -/
theorem advances_skipCondOf {statement : Scan Unit} (hstatement : Advances statement) :
    Advances (skipCondOf statement) := by
  refine advances_skipToContent.bind fun _ => advances_skipExpression.bind ?_
  intro _
  refine advances_skipToContent.bind fun _ => (advances_expect _).bind ?_
  intro _
  refine (advances_skipBlockOf hstatement).bind ?_
  intro _ c _ c' h
  obtain ⟨after, c₁, hget, h⟩ := bind_ok h
  cases hget
  obtain ⟨_, c₂, hspace, h⟩ := bind_ok h
  obtain ⟨text, c₃, hword, h⟩ := bind_ok h
  split at h
  · have hto := (advances_skipSpace true _ _ _ hspace).trans (advances_word _ _ _ hword)
    exact hto.trans ((advances_skipToContent.bind fun _ => (advances_expect _).bind fun _ =>
      advances_skipBlockOf hstatement) _ _ _ h)
  · cases h
    exact .refl _

theorem advances_skipStatementWithin (depth : Nat) : Advances (skipStatementWithin depth) := by
  induction depth with
  | zero => exact .throw _
  | succ depth ih =>
    refine advances_skipToContent.bind fun _ => advances_statementHead.bind ?_
    intro head
    cases head with
    | reserved word =>
      cases word with
      | ret =>
        exact advances_expressionContinues.bind fun _ => .ite advances_skipExpression (.pure _)
      | cond => exact advances_skipCondOf ih
    | call | methodCall => exact advances_skipArgumentsOf advances_skipTerm
    | assignField => exact advances_skipInitializer
    | declare =>
      exact advances_skipToContent.bind fun _ => advances_nonemptyWord.discard.bind fun _ =>
        advances_skipInitializer
    | assign => exact advances_skipToContent.bind fun _ => advances_skipExpression

theorem advances_skipStatement : Advances skipStatement := .bounded advances_skipStatementWithin

theorem advances_skipBlock : Advances skipBlock := advances_skipBlockOf advances_skipStatement

theorem advances_openBody : Advances openBody :=
  advances_skipToContent.bind fun _ => (advances_expect _).bind fun _ =>
    advances_skipToContent.bind fun _ => advances_expect _

/-! ## Headers of declarations -/

theorem advances_type (types : SymbolTable Ty) : Advances (type types) :=
  advances_nonemptyWord.bind fun _ => advances_check _

theorem advances_typedNames (types : SymbolTable Ty) : Advances (typedNames types) :=
  advances_arguments fun _ => advances_skipToContent.bind fun _ => advances_type types

theorem advances_signature (types : SymbolTable Ty) : Advances (signature types) := by
  refine (advances_typedNames types).bind fun _ => (advances_check _).bind ?_
  intro _
  refine advances_skipToContent.bind fun _ => advances_arrow.bind ?_
  intro _
  exact advances_skipToContent.bind fun _ => (advances_type types).bind fun _ => .pure _

theorem advances_typeDefinition (name : String) (kind : AggregateKind)
    (types : SymbolTable Ty) : Advances (typeDefinition name kind types) := by
  refine advances_skipToContent.bind fun _ => (advances_expect _).bind ?_
  intro _
  refine advances_skipToContent.bind fun _ => ((advances_lookingAt _).bind fun _ =>
    .ite (.pure _) (advances_word.bind fun _ => advances_require _ _)).bind ?_
  intro _
  refine advances_skipToContent.bind fun _ => (advances_expect _).bind ?_
  intro _
  exact (advances_typedNames types).bind fun _ => (advances_check _).bind fun _ => .pure _

theorem advances_methodHeader (types : SymbolTable Ty) (ownerName : String) :
    Advances (methodHeader types ownerName) := by
  refine advances_nonemptyWord.bind fun _ => advances_skipToContent.bind ?_
  intro _
  refine (advances_expect _).bind fun _ => advances_skipToContent.bind ?_
  intro _
  refine (advances_expect _).bind fun _ => advances_skipToContent.bind ?_
  intro _
  refine advances_nonemptyWord.bind fun _ => advances_skipToContent.bind ?_
  intro _
  refine (advances_expect _).bind fun _ => advances_skipToContent.bind ?_
  intro _
  refine advances_nonemptyWord.bind fun _ => (advances_require _ _).bind ?_
  intro _
  refine advances_skipToContent.bind fun _ => (advances_expect _).bind ?_
  intro _
  refine advances_skipToContent.bind fun _ => advances_arrow.bind ?_
  intro _
  refine (advances_check _).bind fun _ => (advances_require _ _).bind ?_
  intro _
  refine advances_skipToContent.bind fun _ => (advances_lookingAt _).bind fun _ => .ite ?_ ?_
  · exact advances_advance.bind fun _ => (advances_signature types).bind fun _ => .pure _
  · exact (advances_type types).bind fun _ => .pure _

theorem advances_declaration (types : SymbolTable Ty) : Advances (declaration types) := by
  refine advances_skipToContent.bind fun _ => advances_nonemptyWord.bind ?_
  intro name
  refine (advances_lookingAt _).bind fun _ => .ite ?_ ?_
  · exact advances_advance.bind fun _ => advances_methodHeader types name
  refine (advances_skipSpace true).bind fun _ => (advances_lookingAt _).bind ?_
  intro _
  refine (advances_require _ _).bind fun _ => advances_advance.bind ?_
  intro _
  refine advances_skipToContent.bind fun _ => (advances_lookingAt _).bind fun _ => .ite ?_ ?_
  · exact advances_advance.bind fun _ => (advances_signature types).bind fun _ => .pure _
  · refine advances_nonemptyWord.bind ?_
    intro typeName
    cases AggregateKind.ofKeyword? typeName with
    | some kind => exact .pure _
    | none => exact (advances_check _).bind fun _ => (advances_check _).bind fun _ => .pure _

/-! ## Contents of globals -/

theorem advances_constantWithin (types : SymbolTable Ty) (depth : Nat) (nested : Bool)
    (expected : Ty) : Advances (constantWithin types depth nested expected) := by
  induction depth generalizing nested expected with
  | zero => exact .throw _
  | succ depth ih =>
    refine advances_termHead.bind ?_
    intro head
    cases head with
    | word text =>
      dsimp only
      split
      · exact .pure _
      · exact .ite (.throw _) (.throw _)
    | call callee =>
      dsimp only
      split
      · exact .throw _
      · refine (advances_require _ _).bind fun _ => (advances_require _ _).bind ?_
        intro _
        exact (advances_positional fun ty => ih true ty).bind fun _ => .pure _
    | field | methodCall => exact .throw _

theorem advances_contents (types : SymbolTable Ty) (expected : Ty) :
    Advances (contents types expected) := by
  refine advances_skipToContent.bind fun _ => (advances_expect _).bind ?_
  intro _
  refine advances_skipToContent.bind ?_
  intro _
  refine (Advances.bounded fun depth => advances_constantWithin types depth false expected).bind
    ?_
  intro _
  refine advances_expressionContinues.bind fun _ => .ite ?_ (.pure _)
  exact advances_operator.bind fun _ => .throw _

end Scan

end Straightline
