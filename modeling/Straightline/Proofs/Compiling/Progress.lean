import Straightline.Proofs.Compiling.Terms
import Straightline.Proofs.Reading.Progress

/-!
# Compiling a body ends

Like the readers that skip, compiling stops at a place that it reached from where it began
(`BodyContext.stays_compileBlock`), and it comes back to itself at four places: for the terms of the arguments
of a call, for a further argument, for a further operator and for a further statement. Each of them comes
after a byte was taken, so on fewer than `n` bytes nothing is left of what stands at the bottom of `n`
unrollings (`Compile.unrolled`).
-/

set_option autoImplicit false

namespace Straightline

namespace Compile

variable {α β ι : Type}

/-! ## Wherever it stops -/

/-- However the pass ends, it does so at a place reached from where it began. -/
def Stays (p : Compile α) : Prop := Keeps (fun s s' : BodyState => s.cursor.Reaches s'.cursor) p

namespace Stays

variable {p p' : Compile α} {k : α → Compile β}

theorem pure (a : α) : Stays (pure a : Compile α) := Keeps.pure (fun s => .refl s.cursor) a

theorem throw (fault : Fault) : Stays (throw fault : Compile α) := Keeps.throw (fun s => .refl s.cursor) fault

theorem bind (hp : Stays p) (hk : ∀ a, Stays (k a)) : Stays (p >>= k) := Keeps.bind .trans hp hk

theorem discard (hp : Stays p) : Stays (discard p) := by
  rw [discard_eq]
  exact hp.bind fun _ => pure ()

theorem ite {q : Prop} [Decidable q] (h : Stays p) (h' : Stays p') : Stays (if q then p else p') := by
  split
  · exact h
  · exact h'

theorem scan {r : Scan α} (h : Scan.Stays r) : Stays (Compile.scan r) := by
  intro s
  have hs := h s.cursor
  unfold Compile.scan
  cases hr : r s.cursor with
  | ok a c =>
    rw [hr] at hs
    exact hs
  | error fault c =>
    rw [hr] at hs
    exact hs

/-- What looks at no bytes stays where it is. -/
theorem check (outcome : Except Fault α) : Stays (Compile.scan (Scan.check outcome)) :=
  scan (Scan.stays_check outcome)

theorem require (holds : Bool) (fault : Fault) : Stays (Compile.scan (Scan.require holds fault)) :=
  scan (.ite (.pure _) (.throw _))

theorem emit (step : Nat → Emit α) : Stays (Compile.emit step) := by
  intro s
  unfold Compile.emit
  cases step s.cursor.offset s.toEmission <;> exact .refl s.cursor

/-- A bound is found without moving. -/
theorem bounded {pass : Nat → Compile α} (h : ∀ bound, Stays (pass bound)) : Stays (Scan.bounded pass) :=
  fun s => h _ s

end Stays

/-- A success leaves fewer bytes. -/
def Shortens (p : Compile α) : Prop :=
  Ensures p fun s _ s' => s'.cursor.rest.length < s.cursor.rest.length

namespace Shortens

variable {p : Compile α} {k : α → Compile β}

theorem scan {r : Scan α} (h : Scan.Takes 1 r) : Shortens (Compile.scan r) := by
  intro s a s' hs
  unfold Compile.scan at hs
  cases hr : r s.cursor with
  | ok b c =>
    rw [hr] at hs
    cases hs
    exact h.shorter hr
  | error fault c =>
    rw [hr] at hs
    cases hs

theorem before (hp : Shortens p) (hk : ∀ a, Stays (k a)) : Shortens (p >>= k) := by
  intro s b s' h
  obtain ⟨a, s₁, hpa, hkb⟩ := bind_ok h
  exact Nat.lt_of_le_of_lt (Cursor.Reaches.length_le ((hk a).ok hkb)) (hp s a s₁ hpa)

theorem behind (hp : Stays p) (hk : ∀ a, Shortens (k a)) : Shortens (p >>= k) := by
  intro s b s' h
  obtain ⟨a, s₁, hpa, hkb⟩ := bind_ok h
  exact Nat.lt_of_lt_of_le (hk a s₁ b s' hkb) (Cursor.Reaches.length_le (hp.ok hpa))

theorem bounded {pass : Nat → Compile α} (h : ∀ bound, Shortens (pass bound)) : Shortens (Scan.bounded pass) :=
  fun s a s' hs => h _ s a s' hs

end Shortens

/-- A pass that begins with a word or the like. -/
theorem moves {r : Scan α} {k : α → Compile β} (hstays : Scan.Stays r) (htakes : Scan.Takes 1 r)
    (hk : ∀ a, Stays (k a)) : Stays (scan r >>= k) ∧ Shortens (scan r >>= k) :=
  ⟨(Stays.scan hstays).bind hk, .before (.scan htakes) hk⟩

/-! ## Passes that are the same on few bytes -/

/-- The passes do the same wherever fewer than `n` bytes are left. -/
def Same (n : Nat) (p p' : Compile α) : Prop := ∀ s : BodyState, s.cursor.rest.length < n → p s = p' s

namespace Same

variable {m n : Nat} {p p' q q' : Compile α} {k k' : α → Compile β}

theorem refl (n : Nat) (p : Compile α) : Same n p p := fun _ _ => rfl

theorem zero (p p' : Compile α) : Same 0 p p' := fun _ hlt => absurd hlt (Nat.not_lt_zero _)

theorem mono (h : Same n p p') (hle : m ≤ n) : Same m p p' :=
  fun s hlt => h s (Nat.lt_of_lt_of_le hlt hle)

theorem bind (hp : Same n p p') (hstays : Stays p') (hk : ∀ a, Same n (k a) (k' a)) :
    Same n (p >>= k) (p' >>= k') := by
  intro s hlt
  have hps := hp s hlt
  cases h : p' s with
  | ok a s₁ =>
    rw [bind_of_ok (hps.trans h), bind_of_ok h]
    exact hk a s₁ (Nat.lt_of_le_of_lt (Cursor.Reaches.length_le (hstays.ok h)) hlt)
  | error fault s₁ => rw [bind_of_error (hps.trans h), bind_of_error h]

theorem head (hp : Same n p p') : Same n (p >>= k) (p' >>= k) :=
  fun s hlt => bind_of_eq (hp s hlt)

theorem tail (hstays : Stays p) (hk : ∀ a, Same n (k a) (k' a)) : Same n (p >>= k) (p >>= k') :=
  (refl n p).bind hstays hk

/-- What follows a pass that leaves fewer bytes. -/
theorem after (hp : Shortens p) (hk : ∀ a, Same n (k a) (k' a)) : Same (n + 1) (p >>= k) (p >>= k') := by
  intro s hlt
  cases h : p s with
  | ok a s₁ =>
    rw [bind_of_ok h, bind_of_ok h]
    exact hk a s₁ (Nat.lt_of_lt_of_le (hp _ _ _ h) (Nat.le_of_lt_succ hlt))
  | error fault s₁ => rw [bind_of_error h, bind_of_error h]

theorem ite {q : Prop} [Decidable q] (h : Same n p p') {r r' : Compile α} (h' : Same n r r') :
    Same n (if q then p else r) (if q then p' else r') := by
  split
  · exact h
  · exact h'

/-- Both choose the same bound. -/
theorem bounded {pass pass' : Nat → Compile α} (h : ∀ bound, Same n (pass bound) (pass' bound)) :
    Same n (Scan.bounded pass) (Scan.bounded pass') :=
  fun s hlt => h _ s hlt

end Same

/-! ## Unrollings -/

/-- A recursion comes back to itself with fewer bytes. Then neither its bound matters nor what is put below, as
long as there are more turns than bytes. -/
theorem unrolled {turn : (ι → Compile α) → ι → Compile α} (loop : ι → Nat → Compile α)
    (hloop : ∀ i bound, loop i (bound + 1) = turn (fun i => loop i bound) i)
    (hturn : ∀ {n bound : Nat} {again : ι → Compile α}, (∀ i, Same n (again i) (loop i bound)) →
      ∀ i, Same (n + 1) (turn again i) (turn (fun i => loop i bound) i))
    (last : ι → Compile α) {n : Nat} {s : BodyState} (hlt : s.cursor.rest.length < n) (i : ι) :
    (turn^[n] last) i s = Scan.bounded (loop i) s := by
  have hsame : ∀ {m n bound : Nat}, m ≤ n → m ≤ bound → ∀ i, Same m ((turn^[n] last) i) (loop i bound) := by
    intro m
    induction m with
    | zero => exact fun _ _ i => .zero _ _
    | succ m ih =>
      intro n bound hn hbound i
      obtain ⟨n, rfl⟩ := Nat.exists_eq_add_of_le' hn
      obtain ⟨bound, rfl⟩ := Nat.exists_eq_add_of_le' hbound
      rw [← Nat.add_assoc, Function.iterate_succ_apply', ← Nat.add_assoc, hloop]
      exact hturn (ih (Nat.le_add_left m n) (Nat.le_add_left m bound)) i
  exact hsame hlt (Nat.le_refl _) i s (Nat.lt_succ_self _)

end Compile

namespace BodyContext

open Compile (Same Shortens Stays)

variable {ctx : BodyContext} {scope : Scope IR.Value}

/-! ## Terms and expressions -/

theorem stays_compileCall {list : List Ty → Compile (List IR.Value)} (hlist : ∀ types, Stays (list types))
    (callee : String) (expected : Option Ty) : Stays (ctx.compileCall callee expected list) := by
  unfold compileCall
  cases ctx.declarations.functions.find? callee with
  | none => exact .throw _
  | some record => exact (Stays.check _).bind fun _ => (hlist _).bind fun _ => .emit _

theorem stays_compileMethodCall {list : List Ty → Compile (List IR.Value)}
    (hlist : ∀ types, Stays (list types)) (target member : String) (expected : Option Ty) :
    Stays (ctx.compileMethodCall scope target member expected list) := by
  refine (Stays.check _).bind fun found => (Stays.require _ _).bind fun _ => ?_
  cases ctx.declarations.methods.find? (Declarations.methodKey found.1 member) with
  | none => exact .throw _
  | some record =>
    exact (Stays.check _).bind fun _ => (Stays.emit _).bind fun _ => (hlist _).bind fun _ => .emit _

theorem stays_compileElement {pass : Ty → Compile IR.Value} (hpass : ∀ ty, Stays (pass ty)) (types : List Ty)
    (index : Nat) : Stays (compileElement types pass index) := by
  unfold compileElement
  cases types[index]? with
  | none => exact .throw _
  | some ty => exact (Stays.scan Scan.stays_skipToContent).bind fun _ => hpass ty

theorem stays_argumentsWithin {read : Nat → Compile IR.Value} (hread : ∀ index, Stays (read index))
    (index bound : Nat) : Stays (Scan.argumentsWithin read index bound) := by
  induction bound generalizing index with
  | zero => exact .scan (.throw _)
  | succ bound ih =>
    rw [compile_argumentsWithin]
    refine (Stays.scan Scan.stays_skipToContent).bind fun _ => ?_
    refine (Stays.scan (Scan.stays_lookingAt _)).bind fun _ => .ite ?_ ?_
    · exact (Stays.scan Scan.stays_advance).bind fun _ => .pure _
    · refine (Stays.scan (Scan.stays_separator index)).bind fun _ => ?_
      refine (Stays.scan Scan.stays_label).bind fun _ => (hread index).bind fun _ => ?_
      exact (ih (index + 1)).bind fun _ => .pure _

theorem stays_positional {pass : Ty → Compile IR.Value} (hpass : ∀ ty, Stays (pass ty)) (types : List Ty) :
    Stays (Scan.positional types pass) := by
  rw [compile_positional]
  refine Stays.bind (.bounded ?_) fun _ => .emit _
  exact stays_argumentsWithin (stays_compileElement hpass types) 0

theorem stays_compileStepsWithin {term : Compile IR.Value} (hterm : Stays term) (expected : Ty) (bound : Nat)
    (value : IR.Value) : Stays (compileStepsWithin expected term bound value) := by
  induction bound generalizing value with
  | zero => exact .throw _
  | succ bound ih =>
    refine (Stays.scan Scan.stays_expressionContinues).bind fun _ => .ite ?_ (.pure _)
    refine (Stays.scan Scan.stays_operator).bind fun _ => (Stays.require _ _).bind fun _ => ?_
    refine (Stays.scan Scan.stays_skipToContent).bind fun _ => hterm.bind fun _ => ?_
    exact (Stays.emit _).bind fun result => ih result

theorem stays_compileExpressionOf {term : Ty → Compile IR.Value} (hterm : ∀ ty, Stays (term ty)) (expected : Ty) :
    Stays (compileExpressionOf term expected) :=
  (hterm expected).bind fun _ => .bounded fun bound => stays_compileStepsWithin (hterm expected) expected bound _

theorem moves_compileTermOf {nested : Ty → Compile IR.Value} (hnested : ∀ ty, Stays (nested ty))
    (expected : Ty) :
    Stays (ctx.compileTermOf scope nested expected) ∧ Shortens (ctx.compileTermOf scope nested expected) := by
  have hlist := stays_positional (stays_compileExpressionOf hnested)
  refine Compile.moves Scan.stays_termHead Scan.takes_termHead fun head => ?_
  cases head with
  | word | field => exact .emit _
  | call callee =>
    dsimp only
    cases ctx.declarations.types.find? callee with
    | some ty => exact (Stays.check _).bind fun _ => (hlist _).bind fun _ => .emit _
    | none => exact stays_compileCall hlist callee _
  | methodCall target member => exact stays_compileMethodCall hlist target member _

theorem moves_compileTermWithin (depth : Nat) (expected : Ty) :
    Stays (ctx.compileTermWithin scope depth expected) ∧ Shortens (ctx.compileTermWithin scope depth expected) := by
  induction depth generalizing expected with
  | zero => exact ⟨.throw _, Ensures.throw _⟩
  | succ depth ih => exact moves_compileTermOf (fun ty => (ih ty).1) expected

theorem stays_compileTerm (expected : Ty) : Stays (ctx.compileTerm scope expected) :=
  .bounded fun depth => (moves_compileTermWithin depth expected).1

theorem stays_compileExpression (expected : Ty) : Stays (ctx.compileExpression scope expected) :=
  stays_compileExpressionOf stays_compileTerm expected

theorem shortens_compileExpression (expected : Ty) : Shortens (ctx.compileExpression scope expected) :=
  Shortens.before (.bounded fun depth => (moves_compileTermWithin depth expected).2) fun _ =>
    .bounded fun bound => stays_compileStepsWithin (stays_compileTerm expected) expected bound _

/-! ## Statements and blocks -/

theorem stays_offset : Stays (Compile.scan Scan.offset) := fun s => .refl s.cursor

theorem stays_compileArguments (types : List Ty) : Stays (ctx.compileArguments scope types) :=
  stays_positional stays_compileExpression types

theorem stays_compileInitializer (expected : Ty) : Stays (ctx.compileInitializer scope expected) :=
  (Stays.scan Scan.stays_skipToContent).bind fun _ => (Stays.scan (Scan.stays_expect _)).bind fun _ =>
    (Stays.scan Scan.stays_skipToContent).bind fun _ => stays_compileExpression expected

theorem stays_compileAssign (name : String) : Stays (ctx.compileAssign scope name) := by
  refine (Stays.check _).bind fun found => (Stays.scan Scan.stays_skipToContent).bind fun _ => ?_
  refine (stays_compileExpression _).bind fun _ => ?_
  obtain ⟨ty, storage⟩ := found
  cases storage with
  | slot slot => exact (Stays.emit _).bind fun _ => .pure _
  | direct value => exact .ite ((Stays.emit _).bind fun _ => .pure _) (.throw _)

theorem stays_compileReturn : Stays (ctx.compileReturn scope) := by
  have hskip : Scan.Stays Scan.skipExpression :=
    Scan.Walk.expression_skippers.subst (motive := Scan.Stays) Scan.Walk.stays_skippers.expression
  refine (Stays.scan Scan.stays_expressionContinues).bind fun more => .ite ?_ ?_
  · refine .ite ?_ (.emit _)
    refine Stays.bind stays_offset fun _ => (Stays.scan hskip).bind fun _ => ?_
    exact (Stays.emit _).bind fun _ => .emit _
  · exact (Stays.require _ _).bind fun _ => (stays_compileExpression _).bind fun _ => .emit _

theorem moves_compileStatement : Stays (ctx.compileStatement scope) ∧ Shortens (ctx.compileStatement scope) := by
  have htype : ∀ types, Scan.Stays (Scan.type types) := fun types =>
    Scan.stays_nonemptyWord.bind fun _ => Scan.stays_check _
  refine Compile.moves Scan.stays_statementHead Scan.takes_statementHead fun head => ?_
  cases head with
  | reserved word =>
    cases word with
    | ret => exact stays_compileReturn.bind fun _ => .pure _
    | cond => exact .throw _
  | call callee => exact (stays_compileCall stays_compileArguments callee none).discard.bind fun _ => .pure _
  | methodCall target member =>
    exact (stays_compileMethodCall stays_compileArguments target member none).discard.bind fun _ => .pure _
  | assignField target member =>
    refine (Stays.check _).bind fun _ => (Stays.check _).bind fun _ => (Stays.emit _).bind fun _ => ?_
    refine (stays_compileInitializer _).bind fun _ => (Stays.emit _).bind fun _ => ?_
    exact (Stays.emit _).bind fun _ => .pure _
  | declare name =>
    refine (Stays.scan Scan.stays_skipToContent).bind fun _ => (Stays.scan (htype _)).bind fun _ => ?_
    refine (Stays.check _).bind fun _ => (Stays.emit _).bind fun _ => (stays_compileInitializer _).bind fun _ => ?_
    exact (Stays.emit _).bind fun _ => .pure _
  | assign name => exact (stays_compileAssign name).bind fun _ => .pure _

/-- What follows a `return` is skipped. -/
theorem stays_compileLinesWithin (bound : Nat) (scope : Option (Scope IR.Value)) :
    Stays (ctx.compileLinesWithin bound scope) := by
  have hskip : Scan.Stays Scan.skipStatement :=
    Scan.Walk.statement_skippers.subst (motive := Scan.Stays) Scan.Walk.stays_skippers.statement
  induction bound generalizing scope with
  | zero => exact .throw _
  | succ bound ih =>
    refine (Stays.scan Scan.stays_skipToContent).bind fun _ => ?_
    refine (Stays.scan (Scan.stays_lookingAt _)).bind fun _ => .ite ?_ ?_
    · exact (Stays.scan Scan.stays_advance).bind fun _ => .require _ _
    · cases scope with
      | some scope => exact moves_compileStatement.1.bind fun after => ih after
      | none =>
        refine Stays.bind stays_offset fun _ => (Stays.scan hskip).bind fun _ => ?_
        exact (Stays.emit _).bind fun _ => ih none

/-- Compiling a block stops where it got to. -/
theorem stays_compileBlock (scope : Scope IR.Value) : Stays (ctx.compileBlock scope) :=
  .bounded fun bound => stays_compileLinesWithin bound (some scope)

/-! ## Where compiling comes back to itself -/

/-- An operator on this line and its right operand, and then what `others` does. -/
def stepBy (expected : Ty) (term : Compile IR.Value) (others : IR.Value → Compile IR.Value)
    (value : IR.Value) : Compile IR.Value := do
  if ← Compile.scan Scan.expressionContinues then
    let operator ← Compile.scan Scan.operator
    Compile.scan (Scan.require expected.isInteger (.unknownOperation operator.symbol))
    Compile.scan Scan.skipToContent
    let right ← term
    let result ← Compile.build (emitOperator operator value right)
    others result
  else return value

/-- The parenthesis that closes a list, or else the element number `index`, and then what `others` does. -/
def elementBy (types : List Ty) (pass : Ty → Compile IR.Value)
    (others : Nat → Compile (List (String × IR.Value))) (index : Nat) : Compile (List (String × IR.Value)) := do
  Compile.scan Scan.skipToContent
  if ← Compile.scan (Scan.lookingAt Byte.closeParen) then
    Compile.scan Scan.advance
    return []
  else
    Compile.scan (Scan.separator index)
    let name ← Compile.scan Scan.label
    let value ← compileElement types pass index
    let others ← others (index + 1)
    return (name, value) :: others

/-- The brace that closes a block, or else a statement, and then what `others` does. -/
def lineBy (ctx : BodyContext) (others : Option (Scope IR.Value) → Compile Unit)
    (scope : Option (Scope IR.Value)) : Compile Unit := do
  Compile.scan Scan.skipToContent
  if ← Compile.scan (Scan.lookingAt Byte.closeBrace) then
    Compile.scan Scan.advance
    Compile.scan (Scan.require scope.isNone (.missingReturn ctx.function))
  else
    match scope with
    | some scope => others (← ctx.compileStatement scope)
    | none =>
      let start ← Compile.scan Scan.offset
      Compile.scan Scan.skipStatement
      Compile.report (.unreachableStatement ctx.function start)
      others none

variable {n : Nat}

/-- An operator is a byte. -/
theorem same_stepBy {expected : Ty} {term : Compile IR.Value} (hterm : Stays term)
    {others others' : IR.Value → Compile IR.Value} (h : ∀ value, Same n (others value) (others' value))
    (value : IR.Value) : Same (n + 1) (stepBy expected term others value) (stepBy expected term others' value) := by
  refine .tail (.scan Scan.stays_expressionContinues) fun _ => .ite ?_ (.refl _ _)
  refine .after (.scan Fork.takes_operator) fun _ => ?_
  refine .tail (.require _ _) fun _ => .tail (.scan Scan.stays_skipToContent) fun _ => ?_
  exact .tail hterm fun _ => .tail (.emit _) fun result => h result

/-- An argument has a byte. -/
theorem same_elementBy {types : List Ty} {pass : Ty → Compile IR.Value} (hshortens : ∀ ty, Shortens (pass ty))
    {others others' : Nat → Compile (List (String × IR.Value))} (h : ∀ index, Same n (others index) (others' index))
    (index : Nat) : Same (n + 1) (elementBy types pass others index) (elementBy types pass others' index) := by
  have helement : Shortens (compileElement types pass index) := by
    unfold compileElement
    cases types[index]? with
    | none => exact Ensures.throw _
    | some ty => exact .behind (.scan Scan.stays_skipToContent) fun _ => hshortens ty
  refine .tail (.scan Scan.stays_skipToContent) fun _ => .tail (.scan (Scan.stays_lookingAt _)) fun _ => ?_
  refine .ite (.refl _ _) (.tail (.scan (Scan.stays_separator index)) fun _ => ?_)
  refine .tail (.scan Scan.stays_label) fun _ => ?_
  exact .after helement fun _ => .head (h _)

/-- The steps of a sum are the same where its terms are. -/
theorem same_compileStepsWithin {expected : Ty} {term term' : Compile IR.Value} (hstays : Stays term')
    (h : Same n term term') (bound : Nat) (value : IR.Value) :
    Same n (compileStepsWithin expected term bound value) (compileStepsWithin expected term' bound value) := by
  induction bound generalizing value with
  | zero => exact .refl _ _
  | succ bound ih =>
    refine .tail (.scan Scan.stays_expressionContinues) fun _ => .ite ?_ (.refl _ _)
    refine .tail (.scan Scan.stays_operator) fun _ => .tail (.require _ _) fun _ => ?_
    refine .tail (.scan Scan.stays_skipToContent) fun _ => .bind h hstays fun _ => ?_
    exact .tail (.emit _) fun result => ih result

theorem same_compileExpressionOf {term term' : Ty → Compile IR.Value} (hstays : ∀ ty, Stays (term' ty))
    (h : ∀ ty, Same n (term ty) (term' ty)) (expected : Ty) :
    Same n (compileExpressionOf term expected) (compileExpressionOf term' expected) :=
  .bind (h expected) (hstays expected) fun value =>
    .bounded fun bound => same_compileStepsWithin (hstays expected) (h expected) bound value

theorem same_positional {pass pass' : Ty → Compile IR.Value} (hstays : ∀ ty, Stays (pass' ty))
    (h : ∀ ty, Same n (pass ty) (pass' ty)) (types : List Ty) :
    Same n (Scan.positional types pass) (Scan.positional types pass') := by
  have helement : ∀ index, Same n (compileElement types pass index) (compileElement types pass' index) := by
    intro index
    unfold compileElement
    cases types[index]? with
    | none => exact .refl _ _
    | some ty => exact .tail (.scan Scan.stays_skipToContent) fun _ => h ty
  have hlist : ∀ bound index, Same n (Scan.argumentsWithin (compileElement types pass) index bound)
      (Scan.argumentsWithin (compileElement types pass') index bound) := by
    intro bound
    induction bound with
    | zero => exact fun _ => .refl _ _
    | succ bound ih =>
      intro index
      rw [compile_argumentsWithin, compile_argumentsWithin]
      refine .tail (.scan Scan.stays_skipToContent) fun _ => .tail (.scan (Scan.stays_lookingAt _)) fun _ => ?_
      refine .ite (.refl _ _) (.tail (.scan (Scan.stays_separator index)) fun _ => ?_)
      refine .tail (.scan Scan.stays_label) fun _ => ?_
      refine .bind (helement index) (stays_compileElement hstays types index) ?_
      exact fun _ => .head (ih (index + 1))
  rw [compile_positional, compile_positional]
  exact .head (.bounded fun bound => hlist bound 0)

/-- The terms of arguments come behind the head of a call. -/
theorem same_compileTermOf {nested nested' : Ty → Compile IR.Value} (hstays : ∀ ty, Stays (nested' ty))
    (h : ∀ ty, Same n (nested ty) (nested' ty)) (expected : Ty) :
    Same (n + 1) (ctx.compileTermOf scope nested expected) (ctx.compileTermOf scope nested' expected) := by
  have hlist := same_positional (stays_compileExpressionOf hstays) (same_compileExpressionOf hstays h)
  refine .after (.scan Scan.takes_termHead) fun head => ?_
  cases head with
  | word | field => exact .refl _ _
  | call callee =>
    dsimp only
    cases ctx.declarations.types.find? callee with
    | some ty => exact .tail (.check _) fun _ => .head (hlist _)
    | none =>
      dsimp only [compileCall]
      cases ctx.declarations.functions.find? callee with
      | none => exact .refl _ _
      | some record => exact .tail (.check _) fun _ => .head (hlist _)
  | methodCall target member =>
    refine .tail (.check _) fun found => .tail (.require _ _) fun _ => ?_
    cases ctx.declarations.methods.find? (Declarations.methodKey found.1 member) with
    | none => exact .refl _ _
    | some record => exact .tail (.check _) fun _ => .tail (.emit _) fun _ => .head (hlist _)

/-- A statement has a byte, whether it is compiled or skipped. -/
theorem same_lineBy {others others' : Option (Scope IR.Value) → Compile Unit}
    (h : ∀ scope, Same n (others scope) (others' scope)) (scope : Option (Scope IR.Value)) :
    Same (n + 1) (ctx.lineBy others scope) (ctx.lineBy others' scope) := by
  refine .tail (.scan Scan.stays_skipToContent) fun _ => .tail (.scan (Scan.stays_lookingAt _)) fun _ => ?_
  refine .ite (.refl _ _) ?_
  cases scope with
  | some scope => exact .after moves_compileStatement.2 fun after => h after
  | none =>
    refine .tail stays_offset fun _ => .after (.scan Scan.takes_skipStatement) fun _ => ?_
    exact .tail (.emit _) fun _ => h none

/-! ## Turns -/

variable {s : BodyState}

/-- With more calls nested than there are bytes, nothing depends on the terms of the innermost. -/
theorem compileTerm_unrolled (last : Ty → Compile IR.Value) (hlt : s.cursor.rest.length < n) (expected : Ty) :
    ((ctx.compileTermOf scope)^[n] last) expected s = ctx.compileTerm scope expected s :=
  Compile.unrolled (fun expected depth => ctx.compileTermWithin scope depth expected) (fun _ _ => rfl)
    (fun h expected => same_compileTermOf (fun ty => (moves_compileTermWithin _ ty).1) h expected) last hlt expected

/-- With more operators than there are bytes, nothing depends on what comes after them. -/
theorem compileSteps_unrolled (expected : Ty) (last : IR.Value → Compile IR.Value)
    (hlt : s.cursor.rest.length < n) (value : IR.Value) :
    ((stepBy expected (ctx.compileTerm scope expected))^[n] last) value s
      = Scan.bounded (fun bound => compileStepsWithin expected (ctx.compileTerm scope expected) bound value) s :=
  Compile.unrolled (fun value bound => compileStepsWithin expected (ctx.compileTerm scope expected) bound value)
    (fun _ _ => rfl) (fun h value => same_stepBy (stays_compileTerm expected) h value) last hlt value

/-- With more arguments than there are bytes, nothing depends on what comes after them. -/
theorem compileElements_unrolled (types : List Ty) (last : Nat → Compile (List (String × IR.Value)))
    (hlt : s.cursor.rest.length < n) (index : Nat) :
    ((elementBy types (ctx.compileExpression scope))^[n] last) index s
      = Scan.bounded (Scan.argumentsWithin (compileElement types (ctx.compileExpression scope)) index) s :=
  Compile.unrolled
    (fun index bound => Scan.argumentsWithin (compileElement types (ctx.compileExpression scope)) index bound)
    (fun _ _ => rfl) (fun h index => same_elementBy shortens_compileExpression h index) last hlt index

/-- With more statements than there are bytes, nothing depends on what comes after them. -/
theorem compileBlock_unrolled (last : Option (Scope IR.Value) → Compile Unit) (hlt : s.cursor.rest.length < n) :
    (ctx.lineBy^[n] last) (some scope) s = ctx.compileBlock scope s :=
  Compile.unrolled (fun scope bound => ctx.compileLinesWithin bound scope) (fun _ _ => rfl)
    (fun h scope => same_lineBy h scope) last hlt (some scope)

end BodyContext

end Straightline
