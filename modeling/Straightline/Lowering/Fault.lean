import Straightline.IR.Type
import Straightline.Message

/-!
# What cannot be lowered

The parts of a module that have no counterpart in WebAssembly, or that refer to something that is
not there, and the two limits of the target: 32-bit addresses, and one export name for the memory.

Sizes and offsets are 32-bit words, and their arithmetic is checked. A sum or a product that is no
word is not reported as the others are: the program is stopped there.
-/

set_option autoImplicit false

namespace Straightline.Lowering

/-- The name under which memory is exported. -/
def memoryExport : String := "memory"

/-- The operations on words that may leave them. -/
inductive WordOp where
  | add
  | mul
deriving DecidableEq, Repr

def WordOp.verb : WordOp → String
  | .add => "add"
  | .mul => "multiply"

inductive Fault where
  | valuesOf (ty : IRType)
  | undeclaredStruct (name : String)
  | fieldThrough (ty : IRType)
  | noField (index : Nat) (struct : String)
  | constantOf (ty : IRType)
  | unplacedConstant
  | noGlobal (index : Nat)
  | useOf (inst : Nat)
  | resultOf (inst : Nat)
  | storageOf (inst : Nat)
  | storeOf (ty : IRType)
  | loadOf (ty : IRType)
  | aggregateOf (ty : IRType)
  | noBody (function : String)
  | reservedName
  | stackTooLarge
  | overflow (op : WordOp)
deriving DecidableEq, Repr

namespace Fault

private def cannotLower (what : String) : String := "cannot lower " ++ what

def message : Fault → String
  | valuesOf ty => cannotLower ("values of type " ++ quoted ty.text)
  | undeclaredStruct name => cannotLower ("undeclared structure " ++ quoted ("%" ++ name))
  | fieldThrough ty => cannotLower ("field access through " ++ quoted ty.text)
  | noField index struct => cannotLower (s!"field {index} of " ++ quoted ("%" ++ struct))
  | constantOf ty => cannotLower ("constant of type " ++ quoted ty.text)
  | unplacedConstant => cannotLower "an unplaced constant"
  | noGlobal index => cannotLower s!"global #{index}"
  | useOf inst => cannotLower s!"use of instruction {inst}"
  | resultOf inst => cannotLower s!"result of instruction {inst}"
  | storageOf inst => cannotLower s!"storage of instruction {inst}"
  | storeOf ty => cannotLower ("store of " ++ quoted ty.text)
  | loadOf ty => cannotLower ("load of " ++ quoted ty.text)
  | aggregateOf ty => cannotLower ("aggregate of " ++ quoted ty.text)
  | noBody function => cannotLower (quoted function ++ " without a body")
  | reservedName =>
    "function name " ++ quoted memoryExport ++ " is reserved for the memory export"
  | stackTooLarge => "stack does not fit in 32-bit memory"
  | overflow op => s!"attempt to {op.verb} with overflow"

/-- Whether the program is stopped there, and reports no error. -/
def isStop : Fault → Bool
  | overflow _ => true
  | _ => false

end Fault

end Straightline.Lowering
