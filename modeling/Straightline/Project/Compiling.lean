import Straightline.Project.Emission
import Straightline.Syntax.Skipping

/-!
# Compiling bodies

A body is read, checked and turned into instructions in one go, in the order in which it is written.
What is looked up is looked up before the source goes on, so of two faults the one that comes first is
told, be it of grammar or of meaning, and the instructions before it have been made.

Every term is read against the type its place calls for, so the type of a literal and the meaning of a
word never depend on what follows. Nothing after a `return` is compiled: the statements are skipped, and
each is reported.

Nesting is bounded as it is where bodies are skipped.
-/

set_option autoImplicit false

namespace Straightline

/-- The state in which a body is compiled: what was made of it, and the place up to which it was
read. -/
structure BodyState extends Emission where
  cursor : Cursor
deriving DecidableEq, Repr

/-- A pass over a body: a value or a fault, which is told where the cursor was left. -/
abbrev Compile := EStateM Fault BodyState

namespace Compile

variable {α : Type}

/-- Reads on from the cursor. -/
def scan (reader : Scan α) : Compile α := fun s =>
  match reader s.cursor with
  | .ok value cursor => .ok value { s with cursor }
  | .error fault cursor => .error fault { s with cursor }

instance : MonadLift Scan Compile := ⟨scan⟩

/-- Makes instructions. A refusal is told at the cursor, whose offset the step is given. -/
def emit (step : (stop : Nat) → Emit α) : Compile α := fun s =>
  match step s.cursor.offset s.toEmission with
  | .ok value made => .ok value { s with toEmission := made }
  | .error refusal made => .error refusal.fault { s with toEmission := made }

def build (step : IR.Build α) : Compile α := emit fun _ => Emit.build step

def report (event : Event) : Compile Unit := emit fun _ => Emit.report event

end Compile

namespace BodyContext

open Compile

variable (ctx : BodyContext)

/-- Calls a function. `arguments` compiles the arguments against the types it is given. -/
def compileCall (callee : String) (expected : Option Ty)
    (arguments : List Ty → Compile (List IR.Value)) : Compile IR.Value :=
  match ctx.declarations.functions.find? callee with
  | none => throw (.unknownFunction callee)
  | some record => do
    scan (Scan.check (checkResult expected record.signature))
    let args ← arguments record.signature.argumentTypes
    build (IR.Build.call record.function args)

/-- Calls a method of what `target` stands for, which is the first argument: a copy of a struct, the
address of a model. -/
def compileMethodCall (scope : Scope IR.Value) (target member : String) (expected : Option Ty)
    (arguments : List Ty → Compile (List IR.Value)) : Compile IR.Value := do
  let (ty, storage) ← scan (Scan.check (ctx.lookup scope target))
  scan (Scan.require ty.isAggregate (.invalidMember member))
  match ctx.declarations.methods.find? (Declarations.methodKey ty member) with
  | none => throw (.invalidMember member)
  | some record =>
    scan (Scan.check (checkResult expected record.signature))
    let receiver ← emit fun _ => valueOf storage
    let args ← arguments record.signature.argumentTypes
    build (IR.Build.call record.function (receiver :: args))

/-- Compiles the operators on this line with their right operands, folded from the left into `value`,
at most `bound` of them. -/
def compileStepsWithin (expected : Ty) (term : Compile IR.Value) :
    (bound : Nat) → (value : IR.Value) → Compile IR.Value
  | 0, _ => throw .unexpectedEnd
  | bound + 1, value => do
    if ← scan Scan.expressionContinues then
      let operator ← scan Scan.operator
      scan (Scan.require expected.isInteger (.unknownOperation operator.symbol))
      scan Scan.skipToContent
      let right ← term
      let result ← build (emitOperator operator value right)
      compileStepsWithin expected term bound result
    else return value

/-- Compiles an expression whose terms are compiled by `term`. -/
def compileExpressionOf (term : Ty → Compile IR.Value) (expected : Ty) : Compile IR.Value := do
  let value ← term expected
  Scan.bounded fun bound => compileStepsWithin expected (term expected) bound value

/-- Compiles a term in a place that calls for a value of type `expected`; the terms of its arguments are
compiled by `nested`. -/
def compileTermOf (scope : Scope IR.Value) (nested : Ty → Compile IR.Value) (expected : Ty) :
    Compile IR.Value := do
  let arguments := fun types => Scan.positional types (compileExpressionOf nested)
  match ← scan Scan.termHead with
  | .word text => emit (ctx.emitWord scope expected text)
  | .field target member => emit (ctx.emitField scope expected target member)
  | .call callee =>
    match ctx.declarations.types.find? callee with
    | some ty =>
      scan (Scan.check (expected.requireSame ty))
      let fields ← arguments ty.fieldTypes
      emit fun _ => construct ty fields
    | none => ctx.compileCall callee (some expected) arguments
  | .methodCall target member => ctx.compileMethodCall scope target member (some expected) arguments

/-- Compiles a term in which calls are nested less than `depth` deep. -/
def compileTermWithin (scope : Scope IR.Value) : (depth : Nat) → (expected : Ty) → Compile IR.Value
  | 0, _ => throw .unexpectedEnd
  | depth + 1, expected => ctx.compileTermOf scope (compileTermWithin scope depth) expected

def compileTerm (scope : Scope IR.Value) (expected : Ty) : Compile IR.Value :=
  Scan.bounded fun depth => ctx.compileTermWithin scope depth expected

def compileExpression (scope : Scope IR.Value) : (expected : Ty) → Compile IR.Value :=
  compileExpressionOf (ctx.compileTerm scope)

/-- Compiles the arguments of a call against `types`, up to and including the `)`. -/
def compileArguments (scope : Scope IR.Value) (types : List Ty) : Compile (List IR.Value) :=
  Scan.positional types (ctx.compileExpression scope)

/-- Reads an equals sign and compiles the expression after it. -/
def compileInitializer (scope : Scope IR.Value) (expected : Ty) : Compile IR.Value := do
  scan Scan.skipToContent
  scan (Scan.expect Byte.equals)
  scan Scan.skipToContent
  ctx.compileExpression scope expected

/-- Assigns to a name. A parameter gets a slot first, which hides it from then on; the address of a
global model is not assigned to. -/
def compileAssign (scope : Scope IR.Value) (name : String) : Compile (Scope IR.Value) := do
  let (ty, storage) ← scan (Scan.check (ctx.lookup scope name))
  scan Scan.skipToContent
  let result ← ctx.compileExpression scope ty
  match storage with
  | .slot slot =>
    build (IR.Build.store result slot)
    return scope
  | .direct _ =>
    if (scope.lookup name).isSome then
      let slot ← emit fun _ => spill ty (some name) result
      return scope.declare name ty (.slot slot)
    else throw (.invalidMember name)

/-- Returns. In a `Void` function a value is skipped and reported. -/
def compileReturn (scope : Scope IR.Value) : Compile Unit := do
  let more ← scan Scan.expressionContinues
  if ctx.result.isVoid then
    if more then
      let start ← scan Scan.offset
      scan Scan.skipExpression
      report (.ignoredResult ctx.function start)
    build (IR.Build.ret none)
  else
    scan (Scan.require more (.typeMismatch ctx.result.name Primitive.void.name))
    let result ← ctx.compileExpression scope ctx.result
    build (IR.Build.ret (some result))

/-- Compiles a statement. The scope after it, or nothing if it returns. -/
def compileStatement (scope : Scope IR.Value) : Compile (Option (Scope IR.Value)) := do
  match ← scan Scan.statementHead with
  | .reserved .ret =>
    ctx.compileReturn scope
    return none
  | .reserved .cond => throw (.unsupportedStatement ReservedWord.cond.text)
  | .call callee =>
    discard <| ctx.compileCall callee none (ctx.compileArguments scope)
    return some scope
  | .methodCall target member =>
    discard <| ctx.compileMethodCall scope target member none (ctx.compileArguments scope)
    return some scope
  | .assignField target member =>
    let (ty, storage) ← scan (Scan.check (ctx.lookup scope target))
    let (index, fieldTy) ← scan (Scan.check (ty.fieldOf member))
    let base ← emit fun _ => fieldsAddress ty storage
    let result ← ctx.compileInitializer scope fieldTy
    let address ← build (IR.Build.fieldAddr base index)
    build (IR.Build.store result address)
    return some scope
  | .declare name =>
    scan Scan.skipToContent
    let ty ← scan (Scan.type ctx.declarations.types)
    scan (Scan.check (ty.requireStorable name))
    let slot ← build (IR.Build.alloca ty.irType (some name))
    -- The name is not yet bound in its own initializer.
    let result ← ctx.compileInitializer scope ty
    build (IR.Build.store result slot)
    return some (scope.declare name ty (.slot slot))
  | .assign name => return some (← ctx.compileAssign scope name)

/-- Compiles statements up to and including the brace that closes their block, at most `bound` of them.
There is no `scope` any more once a statement has returned, and one of them has to. -/
def compileLinesWithin : (bound : Nat) → (scope : Option (Scope IR.Value)) → Compile Unit
  | 0, _ => throw .unexpectedEnd
  | bound + 1, scope => do
    scan Scan.skipToContent
    if ← scan (Scan.lookingAt Byte.closeBrace) then
      scan Scan.advance
      scan (Scan.require scope.isNone (.missingReturn ctx.function))
    else
      match scope with
      | some scope => compileLinesWithin bound (← ctx.compileStatement scope)
      | none =>
        let start ← scan Scan.offset
        scan Scan.skipStatement
        report (.unreachableStatement ctx.function start)
        compileLinesWithin bound none

/-- Compiles a block whose opening brace has been read. -/
def compileBlock (scope : Scope IR.Value) : Compile Unit :=
  Scan.bounded fun bound => ctx.compileLinesWithin bound (some scope)

end BodyContext

/-- Compiles a body from the parameters of its function on. -/
def Declarations.compileBody (declarations : Declarations) (body : PendingBody) : Compile Unit := do
  Compile.build (IR.Build.openEntry body.function)
  let parameters ← Compile.emit fun _ =>
    BodyContext.bindParameters body.function 0 .root body.parameters
  let ctx : BodyContext := ⟨declarations, body.name, body.result⟩
  ctx.compileBlock parameters.push

end Straightline
