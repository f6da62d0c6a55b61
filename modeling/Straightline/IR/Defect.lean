import Straightline.IR.Module
import Straightline.Message

/-!
# What can be wrong with a module

Some defects are noticed while a module is built, because an operation is asked for that cannot be
carried out; the others when the finished module is checked. Either way a defect is told with the
function it lies in, where there is one.
-/

set_option autoImplicit false

namespace Straightline.IR

inductive Problem where
  | outsideFunction
  | beforeEntry
  | unknownFunction (id : FunctionId)
  | unknownCallee (id : FunctionId)
  | loadThrough (ty : IRType)
  | noField (index : Nat) (ty : IRType)
  | notConstant (global : String)
  | constantMisfit (ty : IRType)
  | unknownStruct (name : String)
  | fieldCount (struct : String) (expected : Nat)
  | inGlobal (name : String) (problem : Problem)
  /-- A value of another type than its place, which `what` names, calls for. -/
  | unexpectedType (what : String) (expected found : IRType)
  | arithmeticOn (ty : IRType)
  | argumentCount (callee : String) (expected found : Nat)
  | aggregateOf (ty : IRType)
  | noBody
  | emptyBlock (label : String)
  | noTerminator (label : String)
  | afterReturn (label : String)
deriving DecidableEq, Repr

namespace Problem

def message : Problem → String
  | outsideFunction => "instruction emitted outside of a function"
  | beforeEntry => "instruction emitted before the entry block"
  | unknownFunction id => s!"unknown function #{id}"
  | unknownCallee id => s!"call to unknown function #{id}"
  | loadThrough ty => "load through non-pointer " ++ quoted ty.text
  | noField index ty => s!"no field {index} behind " ++ quoted ty.text
  | notConstant name => "global " ++ quoted name ++ " needs a constant initializer"
  | constantMisfit ty => "constant does not fit " ++ quoted ty.text
  | unknownStruct name => "unknown structure " ++ quoted name
  | fieldCount struct expected => quoted struct ++ s!" takes {expected} fields"
  | inGlobal name problem => "global " ++ quoted name ++ ": " ++ problem.message
  | unexpectedType what expected found =>
    what ++ ": expected " ++ quoted expected.text ++ ", found " ++ quoted found.text
  | arithmeticOn ty => "arithmetic on " ++ quoted ty.text
  | argumentCount callee expected found =>
    quoted callee ++ s!" takes {expected} arguments, {found} given"
  | aggregateOf ty => "aggregate of non-structure " ++ quoted ty.text
  | noBody => "declared but never given a body"
  | emptyBlock label => "block " ++ quoted label ++ " is empty"
  | noTerminator label => "block " ++ quoted label ++ " has no terminator"
  | afterReturn label => "instructions after return in " ++ quoted label

end Problem

/-- A problem and the name of the function it lies in. -/
structure Defect where
  function : Option String
  problem : Problem
deriving DecidableEq, Repr

namespace Defect

def message (d : Defect) : String :=
  match d.function with
  | some name => "in " ++ quoted name ++ ": " ++ d.problem.message
  | none => d.problem.message

end Defect

end Straightline.IR
