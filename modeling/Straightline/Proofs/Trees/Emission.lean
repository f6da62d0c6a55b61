import Straightline.Project.Emission
import Straightline.Proofs.Trees.Reading

/-!
# From trees to instructions

What is made of a body that was read as a tree before anything was made of it. Every term is met with
the type that its place calls for, so the type of a literal and the meaning of a word never depend on
what follows. A refusal is told at the offset that the tree keeps for it, which is where a reader would
have stood that made instructions as it went.

Nothing after a `return` is made into instructions: each statement there is reported.
-/

set_option autoImplicit false

namespace Straightline

namespace BodyContext

open Emit

/-- Calls a function. `arguments` compiles the arguments against the types it is given. -/
def callFunction (ctx : BodyContext) (callee : String) (stop : Nat) (expected : Option Ty)
    (arguments : List Ty → Emit (List IR.Value)) : Emit IR.Value := do
  match ctx.declarations.functions.find? callee with
  | none => refuse (.unknownFunction callee) stop
  | some record =>
    check stop (checkResult expected record.signature)
    let args ← arguments record.signature.argumentTypes
    build (IR.Build.call record.function args)

/-- Calls a method of what `target` stands for, which is the first argument: a copy of a struct, the
address of a model. -/
def callMethod (ctx : BodyContext) (scope : Scope IR.Value) (target member : String) (stop : Nat)
    (expected : Option Ty) (arguments : List Ty → Emit (List IR.Value)) : Emit IR.Value := do
  let (ty, storage) ← check stop (ctx.lookup scope target)
  require ty.isAggregate (.invalidMember member) stop
  match ctx.declarations.methods.find? (Declarations.methodKey ty member) with
  | none => refuse (.invalidMember member) stop
  | some record =>
    check stop (checkResult expected record.signature)
    let receiver ← valueOf storage
    let args ← arguments record.signature.argumentTypes
    build (IR.Build.call record.function (receiver :: args))

mutual

/-- A term in a place that calls for a value of type `expected`. -/
def emitTerm (ctx : BodyContext) (scope : Scope IR.Value) (expected : Ty) : Term → Emit IR.Value
  | .word text stop => ctx.emitWord scope expected text stop
  | .field target member stop => ctx.emitField scope expected target member stop
  | .call callee stop arguments close =>
    match ctx.declarations.types.find? callee with
    | some ty => do
      check stop (expected.requireSame ty)
      let types := ty.fieldTypes
      construct ty (← ctx.emitArguments scope types.length close types arguments)
    | none =>
      ctx.callFunction callee stop (some expected) fun types =>
        ctx.emitArguments scope types.length close types arguments
  | .methodCall target member stop arguments close =>
    ctx.callMethod scope target member stop (some expected) fun types =>
      ctx.emitArguments scope types.length close types arguments

/-- The steps of an expression, folded from the left into `value`. -/
def emitSteps (ctx : BodyContext) (scope : Scope IR.Value) (expected : Ty) (value : IR.Value) :
    List Step → Emit IR.Value
  | [] => pure value
  | .mk operator stop operand :: rest => do
    require expected.isInteger (.unknownOperation operator.symbol) stop
    let right ← ctx.emitTerm scope expected operand
    let result ← build (emitOperator operator value right)
    ctx.emitSteps scope expected result rest

def emitExpression (ctx : BodyContext) (scope : Scope IR.Value) (expected : Ty) :
    Expression → Emit IR.Value
  | .mk first steps _ => do
    let value ← ctx.emitTerm scope expected first
    ctx.emitSteps scope expected value steps

/-- The arguments for the parameters of the types left over, out of `total`, in a list that ends
before `close`. -/
def emitArguments (ctx : BodyContext) (scope : Scope IR.Value) (total close : Nat) :
    List Ty → List Argument → Emit (List IR.Value)
  | [], [] => pure []
  | missing@(_ :: _), [] => refuse (.tooFewArguments total (total - missing.length)) close
  | [], .mk _ start _ :: _ => refuse (.tooManyArguments total) start
  | ty :: types, .mk _ _ value :: rest => do
    let first ← ctx.emitExpression scope ty value
    let others ← ctx.emitArguments scope total close types rest
    return first :: others

end

/-- Compiles all arguments of a call. -/
def emitAll (ctx : BodyContext) (scope : Scope IR.Value) (arguments : List Argument) (close : Nat)
    (types : List Ty) : Emit (List IR.Value) :=
  ctx.emitArguments scope types.length close types arguments

/-- Assigns to a name. A parameter gets a slot first, which hides it from then on; the address of a
global model is not assigned to. -/
def emitAssign (ctx : BodyContext) (scope : Scope IR.Value) (name : String) (stop : Nat)
    (value : Expression) : Emit (Scope IR.Value) := do
  let (ty, storage) ← check stop (ctx.lookup scope name)
  let result ← ctx.emitExpression scope ty value
  match storage with
  | .slot slot =>
    build (IR.Build.store result slot)
    return scope
  | .direct _ =>
    if (scope.lookup name).isSome then
      let slot ← spill ty (some name) result
      return scope.declare name ty (.slot slot)
    else refuse (.invalidMember name) value.stop

/-- Returns. In a `Void` function the value is not compiled, only reported. -/
def emitReturn (ctx : BodyContext) (scope : Scope IR.Value) (value : Option Expression)
    (start : Nat) : Emit Unit :=
  match ctx.result.isVoid, value with
  | true, none => build (IR.Build.ret none)
  | true, some _ => do
    report (.ignoredResult ctx.function start)
    build (IR.Build.ret none)
  | false, none => refuse (.typeMismatch ctx.result.name Primitive.void.name) start
  | false, some value => do
    let result ← ctx.emitExpression scope ctx.result value
    build (IR.Build.ret (some result))

/-- Compiles a statement. The scope after it, or nothing if it returns. -/
def emitStatement (ctx : BodyContext) (scope : Scope IR.Value) :
    Statement → Emit (Option (Scope IR.Value))
  | .ret value start => do
    ctx.emitReturn scope value start
    return none
  | .cond stop .. => refuse (.unsupportedStatement ReservedWord.cond.text) stop
  | .call callee stop arguments close => do
    discard <| ctx.callFunction callee stop none (ctx.emitAll scope arguments close)
    return some scope
  | .methodCall target member stop arguments close => do
    discard <| ctx.callMethod scope target member stop none (ctx.emitAll scope arguments close)
    return some scope
  | .assignField target member stop value => do
    let (ty, storage) ← check stop (ctx.lookup scope target)
    let (index, fieldTy) ← check stop (ty.fieldOf member)
    let base ← fieldsAddress ty storage
    let result ← ctx.emitExpression scope fieldTy value
    let address ← build (IR.Build.fieldAddr base index)
    build (IR.Build.store result address)
    return some scope
  | .declare name typeName stop value => do
    let ty ← check stop (Ty.resolve ctx.declarations.types typeName)
    check stop (ty.requireStorable name)
    let slot ← build (IR.Build.alloca ty.irType (some name))
    -- The name is not yet bound in its own initializer.
    let result ← ctx.emitExpression scope ty value
    build (IR.Build.store result slot)
    return some (scope.declare name ty (.slot slot))
  | .assign name stop value => do
    return some (← ctx.emitAssign scope name stop value)

/-- Compiles the statements of a block that ends before `close`. One of them has to return; those
after it are dropped. -/
def emitLines (ctx : BodyContext) (close : Nat) : Scope IR.Value → List Line → Emit Unit
  | _, [] => refuse (.missingReturn ctx.function) close
  | scope, .mk _ statement :: rest => do
    match ← ctx.emitStatement scope statement with
    | some scope => ctx.emitLines close scope rest
    | none =>
      rest.forM fun (.mk start _) => report (.unreachableStatement ctx.function start)

def emitBlock (ctx : BodyContext) (scope : Scope IR.Value) : Block → Emit Unit
  | .mk lines close => ctx.emitLines close scope lines

/-- Reads the block that begins at offset `start` as a tree and makes its instructions. -/
def emitBlockAt (ctx : BodyContext) (scope : Scope IR.Value) (source : List UInt8) (start : Nat) :
    Emit Unit :=
  match Scan.block (.seek source start) with
  | .ok block _ => ctx.emitBlock scope block
  | .error fault cursor => Emit.refuse fault cursor.offset

/-- What is left of a body when its function is open. -/
def emitOpened (declarations : Declarations) (source : List UInt8) (body : PendingBody) :
    Emit Unit := do
  let parameters ← bindParameters body.function 0 .root body.parameters
  emitBlockAt ⟨declarations, body.name, body.result⟩ parameters.push source body.resume

/-- Makes the instructions of a body that was put off. -/
def emitPending (declarations : Declarations) (source : List UInt8) (body : PendingBody) :
    Emit Unit := do
  Emit.report (.bodyStarted body.name body.resume)
  Emit.build (IR.Build.openEntry body.function)
  emitOpened declarations source body

/-- The state in which the body of `body` is compiled, once its function is open. -/
def opened (body : PendingBody) (s : Emission) : Emission where
  builder := (IR.Build.openEntry body.function s.builder).2
  log := s.log ++ [.bodyStarted body.name body.resume]

theorem emitPending_eq (declarations : Declarations) (source : List UInt8) (body : PendingBody)
    (s : Emission) :
    emitPending declarations source body s
      = emitOpened declarations source body (opened body s) := rfl

end BodyContext

end Straightline
