import Straightline.Lowering.Layout
import Straightline.Wasm.Instr

/-!
# Frames and locals

What a function needs to run. Its frame holds a slot for each instruction that owns stack storage:
every `alloca`, and every load, call or aggregate whose result is a structure, since a structure in
hand is the address of a copy. Its locals are the parameters, the address of the frame if there is
one, and the result of every instruction that has one.
-/

set_option autoImplicit false

namespace Straightline.Lowering

/-- What the size of a frame is a multiple of. -/
def frameAlign : UInt32 := 16

/-- The type of local that holds a value of type `ty`. -/
def valType : IRType → Wasm.ValType
  | .int bits => if bits = 64 then .i64 else .i32
  | _ => .i32

/-- The type of what an instruction keeps in the frame, if it keeps anything. -/
def storedType? (inst : IR.Inst) : Option IRType :=
  match inst.op with
  | .alloca ty _ => some ty
  | .load _ | .call .. | .aggregate _ => if inst.ty.isStruct then some inst.ty else none
  | _ => none

/-- The slots of a frame by instruction, and how much of it they take. -/
structure Slots where
  offsets : List (Nat × UInt32) := []
  used : UInt32 := 0
deriving DecidableEq, Repr

namespace Slots

/-- Adds the slot of an instruction, if it needs one. -/
def add (layouts : Layouts) (slots : Slots) (inst : IR.Inst) : Except Fault Slots :=
  match storedType? inst with
  | none => .ok slots
  | some ty => do
    let e ← layouts.extent ty
    let offset ← alignTo slots.used e.align
    return ⟨slots.offsets ++ [(inst.id, offset)], ← addWords offset e.size⟩

end Slots

/-- How a function keeps its values. -/
structure Frame where
  slots : List (Nat × UInt32)
  size : UInt32
  /-- The local that holds the address of the frame, if `size` is not zero. -/
  base : Nat
  /-- The locals that hold the results of instructions. -/
  results : List (Nat × Nat)
  /-- The types of the locals after the parameters. -/
  locals : List Wasm.ValType
deriving DecidableEq, Repr

namespace Frame

/-- The instructions of a function that have a result, in order. -/
def valued (f : IR.Function) : List IR.Inst := f.insts.filter fun inst => !inst.ty.isVoid

def ofFunction (layouts : Layouts) (f : IR.Function) : Except Fault Frame := do
  let slots ← f.insts.foldlM (Slots.add layouts) {}
  let size ← alignTo slots.used frameAlign
  let base := f.params.length
  let baseLocals := if size = 0 then [] else [Wasm.ValType.i32]
  let first := base + baseLocals.length
  return {
    slots := slots.offsets
    size
    base
    results := (valued f).mapIdx fun index inst => (inst.id, first + index)
    locals := baseLocals ++ (valued f).map fun inst => valType inst.ty }

/-- The local of an instruction's result. -/
def result? (frame : Frame) (id : Nat) : Option Nat := frame.results.lookup id

def slot? (frame : Frame) (id : Nat) : Option UInt32 := frame.slots.lookup id

end Frame

end Straightline.Lowering
