import Straightline.Proofs.Lowering.Sizes
import Straightline.Proofs.Meaning.Machine

/-!
# What a call takes

How much of the shadow stack and of the heap a call needs, by what the meaning of the module says is
executed. Frames are given back and models are not: of one call after another the larger counts on the
stack, and the sum on the heap.
-/

set_option autoImplicit false

namespace Straightline.IR

/-- How far the shadow stack reaches down, and how far the heap grows. -/
structure Usage where
  stack : Nat := 0
  heap : Nat := 0
deriving DecidableEq, Repr

/-- What two things take, the one after the other. -/
def Usage.andThen (u u' : Usage) : Usage := ⟨max u.stack u'.stack, u.heap + u'.heap⟩

/-- What calls take. -/
abbrev Demand := FunctionId → List Datum → Memory → Usage

namespace Module

section Running

variable (m : Module) (entry : Entry) (demand : Demand) (args : List Datum)

/-- What an operation takes beyond the frame of its function. -/
def opUsage (results : Results) (mem : Memory) : Op → Usage
  | .heapAlloc ty => ⟨0, m.modelSize ty⟩
  | .call callee operands =>
    match operands.mapM (operand args results) with
    | some data => demand callee data mem
    | none => {}
  | _ => {}

/-- What instructions take up to a return. -/
def instsUsage (results : Results) (mem : Memory) : List Inst → Usage
  | [] => {}
  | inst :: rest =>
    (m.opUsage demand args results mem inst.op).andThen
      (match step entry args results inst mem with
      | .ok (.next results) mem => instsUsage results mem rest
      | _ => {})

end Running

/-- What a call takes: a frame, and what its instructions take. -/
def usageWithin (m : Module) : (depth : Nat) → Demand
  | 0, _, _, _ => {}
  | depth + 1, id, args, mem =>
    match m.function? id with
    | some f =>
      let inside :=
        m.instsUsage (m.callWithin depth) (m.usageWithin depth) args .none mem f.insts
      ⟨m.frameSize f + inside.stack, inside.heap⟩
    | none => {}

end Module

end Straightline.IR
