import Straightline.Proofs.Compiling.Terms
import Straightline.Proofs.Reading.Lockstep

/-!
# Statements and blocks are compiled as trees are

Compiling a block as it is read comes to what making instructions from its tree does, wherever the tree can
be read (`BodyContext.follows_compileBlock`). What is not compiled, which is the value that a `Void`
function returns and whatever follows a `return`, is skipped; that a tree ends where skipping ends
(`Scan.discard_statement`) brings the two together again behind it.
-/

set_option autoImplicit false

namespace Straightline

namespace Scan

/-- Where the next byte is no blank, nothing is skipped. -/
theorem skipToContent_of_peek {c : Cursor} {b : UInt8} (hpeek : c.peek = some b) (hb : Byte.isSpace b = false) :
    skipToContent c = .ok () c := by
  have hsame : c.skip (fun b => Byte.isSpace b && (true || b != Byte.lineFeed)) = c :=
    Cursor.skip_of_peek hpeek (by simp [hb])
  change assertMore (c.skip _) = _
  rw [hsame, assertMore, if_neg]
  intro hrest
  rw [Cursor.peek, List.isEmpty_iff.mp hrest] at hpeek
  cases hpeek

/-- And no blank is next where all have been skipped. -/
theorem peek_of_skipToContent {c c' : Cursor} (h : skipToContent c = .ok () c') :
    ∃ b, c'.peek = some b ∧ Byte.isSpace b = false := by
  change assertMore (c.skip fun b => Byte.isSpace b && (true || b != Byte.lineFeed)) = _ at h
  unfold assertMore at h
  split at h
  · cases h
  · cases h
    rename_i hrest
    obtain ⟨b, hpeek⟩ := Option.isSome_iff_exists.mp (List.isSome_head?.mpr (mt List.isEmpty_iff.mpr hrest))
    exact ⟨b, hpeek, by simpa using Cursor.peek_skip hpeek⟩

/-- A statement begins with a word, so there is something to read. -/
theorem skipToContent_of_statementHead {head : StatementHead} {c c' : Cursor}
    (h : statementHead c = .ok head c') : skipToContent c = .ok () c := by
  obtain ⟨name, c₁, hname, _⟩ := bind_ok h
  obtain ⟨text, c₂, hword, hname⟩ := bind_ok hname
  cases hword
  obtain ⟨rest, offset⟩ := c
  cases rest with
  | nil => cases hname
  | cons b rest =>
    refine skipToContent_of_peek rfl (Bool.eq_false_iff.mpr fun hb => ?_)
    have hword : (⟨b :: rest, offset⟩ : Cursor).run (fun b => !Byte.isSpecial b) = [] :=
      List.takeWhile_cons_of_neg (by simp [Byte.isSpecial, hb])
    rw [hword] at hname
    cases hname

end Scan

namespace Compile

variable {α β τ : Type}

theorem emit_pure (a : α) : (emit fun _ => pure a) = pure a := rfl

theorem emit_ok {step : Nat → Emit α} {made made' : Emission} {c c' : Cursor} {a : α}
    (h : emit step ⟨made, c⟩ = .ok a ⟨made', c'⟩) : step c.offset made = .ok a made' ∧ c' = c := by
  unfold emit at h
  cases hmade : step c.offset made with
  | ok a' made₁ =>
    simp only [hmade] at h
    cases h
    exact ⟨rfl, rfl⟩
  | error refusal made₁ =>
    simp only [hmade] at h
    cases h

theorem scan_bind (r : Scan α) (k : α → Scan β) (next : β → Compile τ) :
    (scan (r >>= k) >>= next) = scan r >>= fun a => scan (k a) >>= next := by
  funext s
  obtain ⟨made, c⟩ := s
  cases h : r c with
  | ok a c' =>
    have hfirst : scan r ⟨made, c⟩ = .ok a ⟨made, c'⟩ := by simp only [scan, h]
    have hboth : scan (r >>= k) ⟨made, c⟩ = scan (k a) ⟨made, c'⟩ := by simp only [scan, bind_of_ok h]
    rw [bind_of_ok hfirst]
    exact bind_of_eq hboth
  | error fault c' =>
    have hfirst : scan r ⟨made, c⟩ = .error fault ⟨made, c'⟩ := by simp only [scan, h]
    have hboth : scan (r >>= k) ⟨made, c⟩ = .error fault ⟨made, c'⟩ := by simp only [scan, bind_of_error h]
    rw [bind_of_error hfirst, bind_of_error hboth]

/-- Steps that are made at one place can be taken together. -/
theorem emit_bind (step : Nat → Emit α) (next : α → Nat → Emit β) :
    (emit fun n => step n >>= fun a => next a n) = emit step >>= fun a => emit (next a) := by
  funext s
  obtain ⟨made, c⟩ := s
  cases h : step c.offset made with
  | ok a made' =>
    have hfirst : emit step ⟨made, c⟩ = .ok a ⟨made', c⟩ := by simp only [emit, h]
    rw [bind_of_ok hfirst]
    simp only [emit, bind_of_ok h]
  | error refusal made' =>
    have hfirst : emit step ⟨made, c⟩ = .error refusal.fault ⟨made', c⟩ := by simp only [emit, h]
    rw [bind_of_error hfirst]
    simp only [emit, bind_of_error h]

end Compile

namespace BodyContext

open Compile (Follows Placed closing)

variable {ctx : BodyContext} {scope : Scope IR.Value} {c : Cursor}

theorem follows_compileInitializer (expected : Ty) (c : Cursor) :
    Follows c Scan.initializer (ctx.emitExpression scope expected)
      (ctx.compileInitializer scope expected) :=
  .scan fun _ _ _ => .scan fun _ _ _ => .scan fun _ c₃ _ => follows_compileExpression expected c₃

/-! ## Statements -/

/-- What follows `return`, and where it begins. -/
def returned : Scan (Option Expression × Nat) := do
  if ← Scan.expressionContinues then
    let start ← Scan.offset
    let value ← Scan.expression
    return (some value, start)
  else return (none, ← Scan.offset)

theorem retOf_eq : Scan.retOf = returned >>= fun value => pure (.ret value.1 value.2) := by
  simp only [Scan.retOf, returned, bind_assoc]
  congr 1
  funext more
  cases more <;> simp

theorem follows_compileReturn (c : Cursor) :
    Follows c returned (fun value => ctx.emitReturn scope value.1 value.2) (ctx.compileReturn scope) := by
  refine .scan fun more c₁ _ => ?_
  unfold emitReturn
  cases ctx.result.isVoid with
  | true =>
    cases more with
    | false => exact .offset (.pure (Compile.placed_of_never (Emit.refuses_build (IR.Build.ret none))) rfl)
    | true =>
      refine .offset ?_
      change Follows c₁ _ _ (Compile.scan Scan.skipExpression >>= fun _ =>
        Compile.report (.ignoredResult ctx.function c₁.offset) >>= fun _ => Compile.build (IR.Build.ret none))
      rw [← Scan.discard_expression]
      refine .skip fun value c₂ _ => ?_
      refine .shape (fun _ : Unit => (some value, c₁.offset)) (pure ()) (fun _ => do
        Emit.report (.ignoredResult ctx.function c₁.offset)
        Emit.build (IR.Build.ret none)) rfl (fun _ => rfl) ?_
      refine .step (Compile.placed_of_never (Emit.refuses_report _)) fun _ => ?_
      exact .pure (Compile.placed_of_never (Emit.refuses_build _)) rfl
  | false =>
    cases more with
    | false => exact .refuse fun _ _ h => by cases h; rfl
    | true =>
      refine .offset ?_
      refine .shape (fun value => (some value, c₁.offset)) Scan.expression (fun value => do
        let result ← ctx.emitExpression scope ctx.result value
        Emit.build (IR.Build.ret (some result))) rfl (fun _ => rfl) ?_
      exact (follows_compileExpression ctx.result c₁).finish _ fun _ => Emit.refuses_build _

theorem follows_compileAssign (name : String) (c : Cursor) :
    Follows c (do Scan.skipToContent; Scan.expression) (ctx.emitAssign scope name c.offset)
      (ctx.compileAssign scope name) := by
  unfold emitAssign compileAssign
  rw [Compile.scan_check]
  refine .step (Compile.placed_check _) fun found => .scan fun _ c₁ _ => ?_
  obtain ⟨ty, storage⟩ := found
  have hvalue : Follows c₁ Scan.expression (ctx.emitExpression scope ty) (ctx.compileExpression scope ty) :=
    follows_compileExpression ty c₁
  cases storage with
  | slot slot =>
    refine (hvalue.finish (fun result => do
      Emit.build (IR.Build.store result slot)
      return scope) fun result => (Emit.refuses_build _).bind fun _ => .pure _).congr (fun _ => rfl) ?_
    simp only [Compile.emit_bind, Compile.emit_pure]
    rfl
  | direct value =>
    dsimp only
    split
    · refine (hvalue.finish (fun result => do
        let slot ← spill ty (some name) result
        return scope.declare name ty (.slot slot))
        fun result => (refuses_spill _ _ _).bind fun _ => .pure _).congr (fun _ => rfl) ?_
      simp only [Compile.emit_bind, Compile.emit_pure]
    · refine (hvalue.last (fun _ n => Emit.refuse (.invalidMember name) n)
        (fun _ => Compile.placed_refuse _) fun value c₂ h => ?_)
      rw [Scan.stop_expression _ _ _ h]

/-- The tree of an `if` keeps the offset after the word. -/
theorem cond_condOf (statement : Scan Statement) :
    Ensures (Scan.condOf statement) fun c s _ =>
      ∃ condition thenBlock elseBlock, s = .cond c.offset condition thenBlock elseBlock := by
  intro c s c' h
  obtain ⟨stop, c₁, hstop, h⟩ := bind_ok h
  cases hstop
  obtain ⟨_, c₂, _, h⟩ := bind_ok h
  obtain ⟨condition, c₃, _, h⟩ := bind_ok h
  obtain ⟨_, c₄, _, h⟩ := bind_ok h
  obtain ⟨_, c₅, _, h⟩ := bind_ok h
  obtain ⟨thenBlock, c₆, _, h⟩ := bind_ok h
  obtain ⟨after, c₇, _, h⟩ := bind_ok h
  obtain ⟨_, c₈, _, h⟩ := bind_ok h
  obtain ⟨text, c₉, _, h⟩ := bind_ok h
  split at h
  · obtain ⟨_, c₁₀, _, h⟩ := bind_ok h
    obtain ⟨_, c₁₁, _, h⟩ := bind_ok h
    obtain ⟨elseBlock, c₁₂, _, h⟩ := bind_ok h
    cases h
    exact ⟨condition, thenBlock, some elseBlock, rfl⟩
  · obtain ⟨_, c₁₀, _, h⟩ := bind_ok h
    cases h
    exact ⟨condition, thenBlock, none, rfl⟩

/-- A statement is compiled as its tree is, from its first byte on. -/
theorem follows_compileStatement (hc : Scan.skipToContent c = .ok () c) :
    Follows c Scan.statement (ctx.emitStatement scope) (ctx.compileStatement scope) := by
  intro made
  rw [Scan.statement, Scan.bounded_apply, Scan.statementWithin, bind_of_ok hc]
  revert made
  refine Follows.scan fun head c₁ _ => ?_
  cases head with
  | reserved word =>
    cases word with
    | ret =>
      refine .shape (fun value => .ret value.1 value.2) returned _ retOf_eq (fun _ => rfl) ?_
      exact (follows_compileReturn c₁).result fun _ => none
    | cond =>
      refine .refuse fun statement c' h => ?_
      obtain ⟨condition, thenBlock, elseBlock, rfl⟩ := cond_condOf _ _ _ _ h
      rfl
  | call callee =>
    refine .offset ?_
    refine .shape (fun list => .call callee c₁.offset list.1 list.2) (closing Scan.callArguments)
      _ ?_ (fun _ => rfl) ?_
    · simp only [closing, bind_assoc, pure_bind]
    · simp only [emitStatement, discard_eq, bind_assoc, pure_bind]
      exact (follows_compileCall (follows_compileArguments c₁) callee none).result fun _ => some scope
  | methodCall target member =>
    refine .offset ?_
    refine .shape (fun list => .methodCall target member c₁.offset list.1 list.2) (closing Scan.callArguments)
      _ ?_ (fun _ => rfl) ?_
    · simp only [closing, bind_assoc, pure_bind]
    · have hcall : Follows c₁ (closing Scan.callArguments)
          (fun list => ctx.callMethod scope target member c₁.offset none (ctx.emitAll scope list.1 list.2))
          (ctx.compileMethodCall scope target member none (ctx.compileArguments scope)) :=
        follows_compileMethodCall (follows_compileArguments c₁) target member none
      simp only [emitStatement, discard_eq, bind_assoc, pure_bind]
      exact hcall.result fun _ => some scope
  | assignField target member =>
    refine .offset (.map ?_)
    simp only [emitStatement]
    rw [Compile.scan_check]
    refine .step (Compile.placed_check _) fun found => ?_
    rw [Compile.scan_check]
    refine .step (Compile.placed_check _) fun field => ?_
    refine .step (Compile.placed_of_never (refuses_fieldsAddress _ _)) fun base => ?_
    refine ((follows_compileInitializer field.2 c₁).finish _ fun result => ?_).congr (fun _ => rfl) ?_
    · exact (Emit.refuses_build _).bind fun _ => (Emit.refuses_build _).bind fun _ => .pure _
    · simp only [Compile.emit_bind, Compile.emit_pure]
      rfl
  | declare name =>
    refine .scan fun _ c₂ _ => ?_
    refine Follows.congr (.scan fun typeName c₃ _ => ?_) (fun _ => rfl) (Compile.scan_bind _ _ _)
    refine .offset (.map ?_)
    simp only [emitStatement]
    rw [Compile.scan_check]
    refine .step (Compile.placed_check _) fun ty => ?_
    rw [Compile.scan_check]
    refine .step (Compile.placed_check _) fun _ => ?_
    refine .step (Compile.placed_of_never (Emit.refuses_build _)) fun slot => ?_
    refine ((follows_compileInitializer ty c₃).finish _ fun result => ?_).congr (fun _ => rfl) ?_
    · exact (Emit.refuses_build _).bind fun _ => .pure _
    · simp only [Compile.emit_bind, Compile.emit_pure]
      rfl
  | assign name =>
    refine .offset ?_
    refine .shape (fun value => .assign name c₁.offset value) (do
      Scan.skipToContent
      Scan.expression) (fun value => do return some (← ctx.emitAssign scope name c₁.offset value)) ?_
      (fun _ => rfl) ?_
    · simp only [bind_assoc]
    · exact (follows_compileAssign name c₁).result some

/-- A statement that is compiled can be read as a tree. -/
theorem compileStatement_ok {made : Emission} {after : Option (Scope IR.Value)} {s : BodyState}
    (h : ctx.compileStatement scope ⟨made, c⟩ = .ok after s) :
    ∃ statement, Scan.statement c = .ok statement s.cursor ∧
      ctx.emitStatement scope statement made = .ok after s.toEmission := by
  obtain ⟨head, s₁, hscan, _⟩ := bind_ok h
  cases hhead : Scan.statementHead c with
  | error fault c' =>
    simp only [Compile.scan, hhead] at hscan
    cases hscan
  | ok head' c' =>
    exact (follows_compileStatement (Scan.skipToContent_of_statementHead hhead)).ok_iff.mp h

/-! ## Blocks -/

/-- The lines that are left of a block that ends before `close`. -/
def emitRest (ctx : BodyContext) (close : Nat) : Option (Scope IR.Value) → List Line → Emit Unit
  | some scope, lines => ctx.emitLines close scope lines
  | none, lines => lines.forM fun (.mk start _) => Emit.report (.unreachableStatement ctx.function start)

theorem follows_compileLinesWithin (bound : Nat) (scope : Option (Scope IR.Value)) (c : Cursor) :
    Follows c (closing (Scan.linesWithin Scan.statement bound)) (fun lines => ctx.emitRest lines.2 scope lines.1)
      (ctx.compileLinesWithin bound scope) := by
  induction bound generalizing scope c with
  | zero => exact fun _ => .unread
  | succ bound ih =>
    unfold Scan.linesWithin compileLinesWithin
    simp only [closing, bind_assoc]
    refine .scan fun _ c₁ hspace => .scan fun closes c₂ hcloses => ?_
    cases hcloses
    obtain ⟨b, hpeek, hb⟩ := Scan.peek_of_skipToContent hspace
    have hc := Scan.skipToContent_of_peek hpeek hb
    cases c₁.peek == some Byte.closeBrace with
    | true =>
      simp only [if_true, bind_assoc, pure_bind]
      refine .scan fun _ c₃ _ => .offset ?_
      rw [Compile.scan_require]
      refine .pure (Compile.placed_require _ _) ?_
      cases scope <;> rfl
    | false =>
      simp only [Bool.false_eq_true, if_false, bind_assoc, pure_bind]
      refine .offset ?_
      cases scope with
      | some scope =>
        refine .shape (fun lines => (.mk c₁.offset lines.1 :: lines.2.1, lines.2.2))
          (do
            let first ← Scan.statement
            let rest ← closing (Scan.linesWithin Scan.statement bound)
            return (first, rest))
          (fun lines => do
            let after ← ctx.emitStatement scope lines.1
            ctx.emitRest lines.2.2 after lines.2.1) ?_ (fun lines => ?_) ?_
        · simp only [closing, bind_assoc, pure_bind]
        · simp only [emitRest, emitLines]
          congr 1
          funext after
          cases after <;> rfl
        · exact .bind (follows_compileStatement hc) (fun _ after c₂ _ => ih after c₂) fun _ _ => rfl
      | none =>
        change Follows c₁ _ _ (Compile.scan Scan.skipStatement >>= fun _ =>
          Compile.report (.unreachableStatement ctx.function c₁.offset) >>= fun _ =>
            ctx.compileLinesWithin bound none)
        rw [← Scan.discard_statement]
        refine .skip fun first c₂ _ => ?_
        refine .shape (fun lines => (.mk c₁.offset first :: lines.1, lines.2))
          (closing (Scan.linesWithin Scan.statement bound))
          (fun lines => do
            Emit.report (.unreachableStatement ctx.function c₁.offset)
            ctx.emitRest lines.2 none lines.1) ?_ (fun lines => rfl) ?_
        · simp only [closing, bind_assoc, pure_bind]
        · exact .step (Compile.placed_of_never (Emit.refuses_report _)) fun _ => ih none c₂

/-- A block is compiled as its tree is. -/
theorem follows_compileBlock (scope : Scope IR.Value) (c : Cursor) :
    Follows c Scan.block (ctx.emitBlock scope) (ctx.compileBlock scope) := by
  refine .shape (fun lines => .mk lines.1 lines.2) (closing (Scan.bounded (Scan.linesWithin Scan.statement)))
    (fun lines => ctx.emitLines lines.2 scope lines.1) ?_ (fun _ => rfl) ?_
  · simp only [Scan.block, Scan.blockOf, closing, bind_assoc, pure_bind]
  · exact .bounded fun bound => follows_compileLinesWithin bound (some scope) c

end BodyContext

end Straightline
