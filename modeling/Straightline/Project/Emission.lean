import Straightline.IR.Builder
import Straightline.Project.Declarations
import Straightline.Project.Event
import Straightline.Project.Refusal
import Straightline.Syntax.Head
import Straightline.Ty.Literal

/-!
# Making instructions

What the parts of a body come to, once they have been read. A name is a binding in scope or else a
global. What it costs to use one depends on its storage: a slot is loaded, a direct value is used as it
is. Parameters are direct, and the first assignment to one moves the name to a slot of its own.

What is refused here is refused at an offset that is told, since nothing is read.
-/

set_option autoImplicit false

namespace Straightline

/-- The instructions and the events that have been made so far. -/
structure Emission where
  builder : IR.Builder
  log : List Event := []
deriving DecidableEq, Repr

abbrev Emit := EStateM Refusal Emission

namespace Emit

/-- Carries out a building step. -/
def build {α : Type} (step : IR.Build α) : Emit α := fun s =>
  let (value, builder) := step s.builder
  .ok value { s with builder }

def report (event : Event) : Emit Unit := fun s => .ok () { s with log := s.log ++ [event] }

def refuse {α : Type} (fault : Fault) (offset : Nat) : Emit α := throw ⟨fault, offset⟩

/-- Refuses unless `holds`. -/
def require (holds : Bool) (fault : Fault) (offset : Nat) : Emit Unit :=
  if holds then pure () else refuse fault offset

/-- A check whose failure is told at `offset`. -/
def check {α : Type} (offset : Nat) (outcome : Except Fault α) : Emit α :=
  match outcome with
  | .ok value => pure value
  | .error fault => refuse fault offset

end Emit

/-- Refuses a value of type `found` where `expected` is called for. -/
def Ty.requireSame (expected found : Ty) : Except Fault Unit :=
  if expected = found then .ok () else .error (.typeMismatch expected.name found.name)

/-- The position and type of a field; `ty` may be of any kind. -/
def Ty.fieldOf (ty : Ty) (member : String) : Except Fault (Nat × Ty) :=
  match ty.field? member with
  | some field => .ok field
  | none => .error (.invalidMember member)

/-- The function whose body is compiled, and what it can refer to besides its scope. -/
structure BodyContext where
  declarations : Declarations
  function : String
  result : Ty
deriving Repr

namespace BodyContext

open Emit

/-- What `name` stands for: a binding in scope, or else a global. -/
def lookup? (ctx : BodyContext) (scope : Scope IR.Value) (name : String) :
    Option (Ty × Storage IR.Value) :=
  match scope.lookup name with
  | some binding => some (binding.ty, binding.storage)
  | none =>
    match ctx.declarations.globals.find? name with
    | some record => some (record.ty, record.storage)
    | none => none

def lookup (ctx : BodyContext) (scope : Scope IR.Value) (name : String) :
    Except Fault (Ty × Storage IR.Value) :=
  match ctx.lookup? scope name with
  | some found => .ok found
  | none => .error (.unknownVariable name)

/-- The value of a binding. -/
def valueOf : Storage IR.Value → Emit IR.Value
  | .slot address => build (IR.Build.load address)
  | .direct value => pure value

/-- Puts `value` into a new slot of the frame. -/
def spill (ty : Ty) (name : Option String) (value : IR.Value) : Emit IR.Value := do
  let slot ← build (IR.Build.alloca ty.irType name)
  build (IR.Build.store value slot)
  return slot

/-- The address of the fields of a binding of type `ty`. A struct that is not in storage is put
there. -/
def fieldsAddress (ty : Ty) (storage : Storage IR.Value) : Emit IR.Value :=
  match ty.passing, storage with
  | .byAddress, .slot slot => build (IR.Build.load slot)
  | .byAddress, .direct address => pure address
  | .byValue, .slot slot => pure slot
  | .byValue, .direct value => spill ty none value

/-- A value of the declared type `ty` with the given fields. A model is put into storage that
outlives the function, and its address is the value. -/
def construct (ty : Ty) (fields : List IR.Value) : Emit IR.Value := do
  let value ← build (IR.Build.struct ty.layoutType fields)
  match ty.passing with
  | .byValue => return value
  | .byAddress =>
    let address ← build (IR.Build.heapAlloc ty.layoutType)
    build (IR.Build.store value address)
    return address

/-- Checks what a call gives, if anything particular is expected of it. -/
def checkResult (expected : Option Ty) (signature : Signature) : Except Fault Unit :=
  match expected with
  | some ty => ty.requireSame signature.result
  | none => .ok ()

/-- A word in a place that calls for a value of type `expected`. -/
def emitWord (ctx : BodyContext) (scope : Scope IR.Value) (expected : Ty) (text : String)
    (stop : Nat) : Emit IR.Value :=
  match expected.literal? text with
  | some value => pure (.ofInt expected.irType value)
  | none =>
    match ctx.lookup? scope text with
    | some (ty, storage) => do
      check stop (expected.requireSame ty)
      valueOf storage
    | none =>
      if looksLikeLiteral text then
        refuse (.typeMismatch expected.name ("literal " ++ quoted text)) stop
      else refuse (.unknownVariable text) stop

/-- The value of a field in a place that calls for type `expected`. -/
def emitField (ctx : BodyContext) (scope : Scope IR.Value) (expected : Ty)
    (target member : String) (stop : Nat) : Emit IR.Value := do
  let (ty, storage) ← check stop (ctx.lookup scope target)
  let (index, fieldTy) ← check stop (ty.fieldOf member)
  check stop (expected.requireSame fieldTy)
  let base ← fieldsAddress ty storage
  let address ← build (IR.Build.fieldAddr base index)
  build (IR.Build.load address)

def emitOperator : Operator → IR.Value → IR.Value → IR.Build IR.Value
  | .add => IR.Build.add
  | .sub => IR.Build.sub

/-- Where a parameter lives: a struct in a slot, so that its fields have addresses, anything else
where it comes in. -/
def parameterStorage (name : String) (ty : Ty) (value : IR.Value) : Emit (Storage IR.Value) :=
  if ty.isAggregate && ty.passing == .byValue then do
    return .slot (← spill ty (some name) value)
  else return .direct value

/-- Binds the parameters from number `index` on. -/
def bindParameters (function : IR.FunctionId) :
    (index : Nat) → Scope IR.Value → List (String × Ty) → Emit (Scope IR.Value)
  | _, scope, [] => pure scope
  | index, scope, (name, ty) :: rest => do
    let value ← Emit.build (IR.Build.param function index)
    let storage ← parameterStorage name ty value
    bindParameters function (index + 1) (scope.declare name ty storage) rest

end BodyContext

end Straightline
