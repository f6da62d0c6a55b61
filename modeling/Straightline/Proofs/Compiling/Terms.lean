import Straightline.Proofs.Compiling.Following
import Straightline.Proofs.Emission.Refusal

/-!
# Terms and expressions are compiled as trees are

Compiling an expression as it is read comes to what making instructions from its tree does, wherever the
tree can be read (`BodyContext.follows_compileExpression`). The pass looks names up before it reads
arguments, compiles each argument before the next, and counts them as it goes; that the tree is looked
through in the same order is what the two have in common.
-/

set_option autoImplicit false

namespace Straightline

namespace BodyContext

open Compile (Follows Placed closing)

variable {ctx : BodyContext} {scope : Scope IR.Value} {c : Cursor}

/-! ## What is refused where a term ends -/

theorem placed_emitWord (expected : Ty) (text : String) : Placed (ctx.emitWord scope expected text) :=
  fun n => (refuses_emitWord (List.mem_singleton_self n)).imp fun _ h => List.mem_singleton.mp h.2

theorem placed_emitField (expected : Ty) (target member : String) :
    Placed (ctx.emitField scope expected target member) :=
  fun n => (refuses_emitField (List.mem_singleton_self n)).imp fun _ h => List.mem_singleton.mp h.2

/-! ## Argument lists -/

/-- The elements of an argument list from number `index` on, compiled against `types`. How many there are
is not counted. -/
def emitElements (ctx : BodyContext) (scope : Scope IR.Value) (types : List Ty) :
    (index : Nat) → List (String × Nat × Expression) → Emit (List (String × IR.Value))
  | _, [] => pure []
  | index, (label, start, value) :: rest =>
    match types[index]? with
    | none => Emit.refuse (.tooManyArguments types.length) start
    | some ty => do
      let first ← ctx.emitExpression scope ty value
      let others ← emitElements ctx scope types (index + 1) rest
      return (label, first) :: others

/-- The values of the elements, if none is missing at the end of the list. -/
def emitCounted (types : List Ty) (before : Nat) (values : List (String × IR.Value)) (close : Nat) :
    Emit (List IR.Value) :=
  if before + values.length < types.length then
    Emit.refuse (.tooFewArguments types.length (before + values.length)) close
  else return values.map Prod.snd

theorem placed_emitCounted (types : List Ty) (before : Nat) (values : List (String × IR.Value)) :
    Placed (emitCounted types before values) := by
  intro n
  unfold emitCounted
  split
  · exact Compile.placed_refuse _ n
  · exact .pure _

/-- Compiling arguments is compiling elements and counting them. -/
theorem emitArguments_eq (elements : List (String × Nat × Expression)) (close : Nat)
    (before missing : List Ty) :
    ctx.emitArguments scope (before ++ missing).length close missing (elements.map Scan.argument) = (do
      let values ← ctx.emitElements scope (before ++ missing) before.length elements
      emitCounted (before ++ missing) before.length values close) := by
  induction elements generalizing before missing with
  | nil =>
    cases missing with
    | nil => simp [emitArguments, emitElements, emitCounted]
    | cons ty missing => simp [emitArguments, emitElements, emitCounted]
  | cons element rest ih =>
    obtain ⟨label, start, value⟩ := element
    cases missing with
    | nil =>
      simp only [List.map_cons, Scan.argument, emitArguments, emitElements, List.append_nil,
        List.getElem?_eq_none (Nat.le_refl _)]
      rfl
    | cons ty missing =>
      have hfound : (before ++ ty :: missing)[before.length]? = some ty := by simp
      have hrest := ih (before ++ [ty]) missing
      simp only [List.append_assoc, List.singleton_append, List.length_append, List.length_singleton] at hrest
      simp only [List.map_cons, Scan.argument, emitArguments, emitElements, hfound, bind_assoc,
        List.length_append, hrest]
      congr 1
      funext first
      congr 1
      funext others
      simp only [emitCounted, pure_bind, List.length_cons, List.map_cons, List.length_append,
        Nat.add_right_comm before.length others.length 1, ← Nat.add_assoc]
      split
      · rfl
      · simp

variable {term : Scan Term} {pass : Ty → Compile IR.Value}

/-- What the next turn of a list does, in a pass. -/
theorem compile_argumentsWithin {α : Type} (read : Nat → Compile α) (index bound : Nat) :
    Scan.argumentsWithin read index (bound + 1) = (do
      Compile.scan Scan.skipToContent
      if ← Compile.scan (Scan.lookingAt Byte.closeParen) then
        Compile.scan Scan.advance
        return []
      else
        Compile.scan (Scan.separator index)
        let name ← Compile.scan Scan.label
        let value ← read index
        let others ← Scan.argumentsWithin read (index + 1) bound
        return (name, value) :: others) := rfl

/-- What is done with an element of a list whose elements have to be of the types `types`. -/
def compileElement (types : List Ty) (pass : Ty → Compile IR.Value) (index : Nat) : Compile IR.Value :=
  match types[index]? with
  | none => throw (.tooManyArguments types.length)
  | some ty => do
    Compile.scan Scan.skipToContent
    pass ty

theorem compile_positional (types : List Ty) (pass : Ty → Compile IR.Value) :
    Scan.positional types pass = (do
      let values ← Scan.bounded (Scan.argumentsWithin (compileElement types pass) 0)
      Compile.emit (emitCounted types 0 values)) := by
  have hcounted : ∀ values : List (String × IR.Value), Compile.emit (emitCounted types 0 values)
      = if values.length < types.length then
          (throw (.tooFewArguments types.length values.length) : Compile (List IR.Value))
        else return values.map Prod.snd := by
    intro values
    unfold emitCounted
    rw [Nat.zero_add]
    split <;> rfl
  simp only [hcounted]
  rfl

theorem follows_elements
    (hpass : ∀ ty c, Follows c (Scan.expressionOf term) (ctx.emitExpression scope ty) (pass ty))
    (types : List Ty) (bound index : Nat) (c : Cursor) :
    Follows c (Scan.argumentsWithin (fun _ => Scan.argumentElement term) index bound)
      (ctx.emitElements scope types index)
      (Scan.argumentsWithin (compileElement types pass) index bound) := by
  induction bound generalizing index c with
  | zero => exact .throw _ _
  | succ bound ih =>
    rw [compile_argumentsWithin]
    refine .scan fun _ c₁ _ => .scan fun closes c₂ _ => ?_
    cases closes with
    | true => exact .scan fun _ c₃ _ => .unit rfl
    | false =>
      refine .scan fun _ c₃ _ => .scan fun label c₄ _ => ?_
      unfold compileElement
      cases hty : types[index]? with
      | none =>
        -- An element too many is refused where its label ends, whatever is there.
        refine .refuse fun elements c' h => ?_
        obtain ⟨⟨start, value⟩, c₅, helement, h⟩ := bind_ok h
        obtain ⟨others, c₆, _, h⟩ := bind_ok h
        cases h
        obtain ⟨_, c₇, hoffset, helement⟩ := bind_ok helement
        cases hoffset
        obtain ⟨_, c₈, _, helement⟩ := bind_ok helement
        obtain ⟨value', c₉, _, helement⟩ := bind_ok helement
        cases helement
        simp only [emitElements, hty]
      | some ty =>
        have helement : Follows c₄ (Scan.argumentElement term)
            (fun element => ctx.emitExpression scope ty element.2) (do
              Compile.scan Scan.skipToContent
              pass ty) :=
          .offset (.scan fun _ c₅ _ => .map (hpass ty c₅))
        refine .bind helement (fun _ first c₅ _ => (ih (index + 1) c₅).result ((label, first) :: ·)) ?_
        rintro ⟨start, value⟩ rest
        simp only [emitElements, hty]

/-- The arguments of a call are read up to their `)`, against the types `types`. -/
theorem follows_positional
    (hpass : ∀ ty c, Follows c (Scan.expressionOf term) (ctx.emitExpression scope ty) (pass ty))
    (types : List Ty) :
    Follows c (closing (Scan.argumentsOf term)) (fun list => ctx.emitArguments scope types.length list.2 types list.1)
      (Scan.positional types pass) := by
  rw [compile_positional]
  have helements : Follows c (Scan.arguments fun _ => Scan.argumentElement term)
      (ctx.emitElements scope types 0)
      (Scan.bounded (Scan.argumentsWithin (compileElement types pass) 0)) :=
    .bounded fun bound => follows_elements hpass types bound 0 c
  refine .shape (fun list => (list.1.map Scan.argument, list.2))
    (do
      let elements ← Scan.arguments fun _ => Scan.argumentElement term
      let close ← Scan.offset
      return (elements, close))
    (fun list => do
      let values ← ctx.emitElements scope types 0 list.1
      emitCounted types 0 values list.2) ?_ (fun list => emitArguments_eq list.1 list.2 [] types) ?_
  · simp only [closing, Scan.argumentsOf_eq, bind_assoc, pure_bind]
  · refine helements.closing.last _ (placed_emitCounted types 0) fun list c' h => ?_
    obtain ⟨elements, c₁, _, h⟩ := bind_ok h
    obtain ⟨close, c₂, hclose, h⟩ := bind_ok h
    cases hclose
    cases h
    rfl

/-! ## Calls -/

variable {τ : Type} {read : Scan τ} {emitList : List Ty → τ → Emit (List IR.Value)}
  {list : List Ty → Compile (List IR.Value)}

theorem follows_compileCall (hlist : ∀ types, Follows c read (emitList types) (list types)) (callee : String)
    (expected : Option Ty) :
    Follows c read (fun t => ctx.callFunction callee c.offset expected fun types => emitList types t)
      (ctx.compileCall callee expected list) := by
  unfold callFunction compileCall
  cases ctx.declarations.functions.find? callee with
  | none => exact .refuse fun _ _ _ => rfl
  | some record =>
    dsimp only
    rw [Compile.scan_check]
    refine .step (Compile.placed_check _) fun _ => ?_
    exact (hlist _).finish _ fun args => Emit.refuses_build _

theorem follows_compileMethodCall (hlist : ∀ types, Follows c read (emitList types) (list types))
    (target member : String) (expected : Option Ty) :
    Follows c read
      (fun t => ctx.callMethod scope target member c.offset expected fun types => emitList types t)
      (ctx.compileMethodCall scope target member expected list) := by
  unfold callMethod compileMethodCall
  simp only [Compile.scan_check, Compile.scan_require]
  refine .step (Compile.placed_check _) fun found => .step (Compile.placed_require _ _) fun _ => ?_
  cases ctx.declarations.methods.find? (Declarations.methodKey found.1 member) with
  | none => exact .refuse fun _ _ _ => rfl
  | some record =>
    refine .step (Compile.placed_check _) fun _ => ?_
    refine .step (Compile.placed_of_never (refuses_valueOf _)) fun receiver => ?_
    exact (hlist _).finish _ fun args => Emit.refuses_build _

/-! ## Terms and expressions -/

theorem follows_compileStepsWithin {expected : Ty} {pass : Compile IR.Value}
    (hpass : ∀ c, Follows c term (ctx.emitTerm scope expected) pass) (bound : Nat) (value : IR.Value)
    (c : Cursor) :
    Follows c (Scan.stepsWithin term bound) (ctx.emitSteps scope expected value)
      (compileStepsWithin expected pass bound value) := by
  induction bound generalizing value c with
  | zero => exact .throw _ _
  | succ bound ih =>
    unfold Scan.stepsWithin compileStepsWithin
    refine .scan fun more c₁ _ => ?_
    cases more with
    | false => exact .unit (by rw [emitSteps])
    | true =>
      refine .scan fun operator c₂ _ => .offset ?_
      refine .shape (fun p => .mk operator c₂.offset p.1 :: p.2)
        (do
          Scan.skipToContent
          let operand ← term
          let others ← Scan.stepsWithin term bound
          return (operand, others))
        (fun p => do
          Emit.require expected.isInteger (.unknownOperation operator.symbol) c₂.offset
          let right ← ctx.emitTerm scope expected p.1
          let result ← Emit.build (emitOperator operator value right)
          ctx.emitSteps scope expected result p.2) ?_ (fun p => by rw [emitSteps]) ?_
      · simp only [bind_assoc, pure_bind]
      · rw [Compile.scan_require]
        refine .step (Compile.placed_require _ _) fun _ => .scan fun _ c₃ _ => ?_
        refine .bind (hpass c₃) (fun operand right c₄ _ => ?_) fun _ _ => rfl
        exact .step (Compile.placed_of_never (Emit.refuses_build _)) fun result => ih result c₄

theorem follows_compileExpressionOf
    (hpass : ∀ ty c, Follows c term (ctx.emitTerm scope ty) (pass ty)) (expected : Ty) (c : Cursor) :
    Follows c (Scan.expressionOf term) (ctx.emitExpression scope expected)
      (compileExpressionOf pass expected) := by
  refine .shape (fun p => .mk p.1 p.2.1 p.2.2)
    (do
      let first ← term
      let rest ← closing (Scan.bounded (Scan.stepsWithin term))
      return (first, rest))
    (fun p => do
      let value ← ctx.emitTerm scope expected p.1
      ctx.emitSteps scope expected value p.2.1) ?_ (fun p => by rw [emitExpression]) ?_
  · simp only [Scan.expressionOf, closing, bind_assoc, pure_bind]
  · refine .bind (hpass expected c) (fun first value c₁ _ => ?_) fun _ _ => rfl
    exact .closing (.bounded fun bound => follows_compileStepsWithin (hpass expected) bound value c₁)

theorem follows_compileTermWithin (depth : Nat) (expected : Ty) (c : Cursor) :
    Follows c (Scan.termWithin depth) (ctx.emitTerm scope expected)
      (ctx.compileTermWithin scope depth expected) := by
  induction depth generalizing expected c with
  | zero => exact .throw _ _
  | succ depth ih =>
    have hlist : ∀ (c : Cursor) (types : List Ty), Follows c (closing (Scan.argumentsOf (Scan.termWithin depth)))
        (fun list => ctx.emitArguments scope types.length list.2 types list.1)
        (Scan.positional types (compileExpressionOf (ctx.compileTermWithin scope depth))) :=
      fun c types => follows_positional (follows_compileExpressionOf ih) types
    unfold Scan.termWithin compileTermWithin compileTermOf
    refine .scan fun head c₁ _ => .offset ?_
    cases head with
    | word text => exact .pure (placed_emitWord expected text) (by rw [emitTerm])
    | field target member => exact .pure (placed_emitField expected target member) (by rw [emitTerm])
    | call callee =>
      refine .shape (fun list => .call callee c₁.offset list.1 list.2)
        (closing (Scan.argumentsOf (Scan.termWithin depth)))
        (fun list => ctx.emitTerm scope expected (.call callee c₁.offset list.1 list.2)) ?_
        (fun _ => rfl) ?_
      · simp only [closing, bind_assoc, pure_bind]
      · simp only [emitTerm]
        cases ctx.declarations.types.find? callee with
        | some ty =>
          dsimp only
          rw [Compile.scan_check]
          refine .step (Compile.placed_check _) fun _ => ?_
          exact (hlist c₁ ty.fieldTypes).finish _ fun fields => refuses_construct _ _
        | none => exact follows_compileCall (hlist c₁) callee (some expected)
    | methodCall target member =>
      refine .shape (fun list => .methodCall target member c₁.offset list.1 list.2)
        (closing (Scan.argumentsOf (Scan.termWithin depth)))
        (fun list => ctx.emitTerm scope expected (.methodCall target member c₁.offset list.1 list.2)) ?_
        (fun _ => rfl) ?_
      · simp only [closing, bind_assoc, pure_bind]
      · simp only [emitTerm]
        exact follows_compileMethodCall (hlist c₁) target member (some expected)

theorem follows_compileTerm (expected : Ty) (c : Cursor) :
    Follows c Scan.term (ctx.emitTerm scope expected) (ctx.compileTerm scope expected) :=
  .bounded fun depth => follows_compileTermWithin depth expected c

/-- An expression is compiled as its tree is. -/
theorem follows_compileExpression (expected : Ty) (c : Cursor) :
    Follows c Scan.expression (ctx.emitExpression scope expected) (ctx.compileExpression scope expected) :=
  follows_compileExpressionOf follows_compileTerm expected c

/-- The arguments of a call are compiled as their trees are. -/
theorem follows_compileArguments (c : Cursor) (types : List Ty) :
    Follows c (closing Scan.callArguments) (fun list => ctx.emitAll scope list.1 list.2 types)
      (ctx.compileArguments scope types) :=
  follows_positional follows_compileExpression types

end BodyContext

end Straightline
