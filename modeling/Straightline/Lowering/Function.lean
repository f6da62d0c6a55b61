import Straightline.Lowering.Data
import Straightline.Lowering.Frame

/-!
# Code of functions

Every instruction becomes a run of WebAssembly instructions that leaves nothing on the operand stack
and puts its result into its local. Narrow integers live in 32-bit locals, sign-extended, and are
cut back to their width after every operation. A structure in hand is the address of bytes that
nothing else writes to: whatever yields a structure copies it into a slot of the frame at once.

A frame is taken from the shadow stack, which grows down, when a function is entered, and given back
before each return. Models are put on a heap that grows up from where that stack starts and is never
cleaned; memory grows with it, and a program whose memory cannot grow is stopped.
-/

set_option autoImplicit false

namespace Straightline.Lowering

open Wasm (Instr)

/-- Bytes in a page of memory, and their binary logarithm. -/
def pageSize : UInt32 := 65536

def pageBits : UInt32 := 16

def heapAlign : UInt32 := 8

/-- How much something takes from the heap. -/
def heapSize (e : Extent) : Except Fault UInt32 := alignTo (max e.size 1) heapAlign

/-- The global that holds the top of the shadow stack. -/
def stackPointer : Nat := 0

/-- The global that holds the end of the heap. -/
def heapPointer : Nat := 1

/-- What the code of a function is made from. -/
structure FunctionContext where
  layouts : Layouts
  data : DataImage
  frame : Frame
deriving Repr

/-- Adds a constant to the address on the operand stack. -/
def addOffset (offset : UInt32) : List Instr :=
  if offset = 0 then [] else [.i32Const offset, .i32Add]

/-- Cuts the result of 32-bit arithmetic back to the width of `ty`. -/
def narrow : IRType → List Instr
  | .int bits =>
    if bits = 1 then [.i32Const 1, .i32And]
    else if bits = 8 then [.i32Extend8S]
    else if bits = 16 then [.i32Extend16S]
    else []
  | _ => []

/-- Reads a value of type `ty` that is no structure from the address on the operand stack. -/
def loadScalar : IRType → Except Fault (List Instr)
  | .int bits =>
    if bits = 1 then .ok [.load .unsigned8 0]
    else if bits = 8 then .ok [.load .signed8 0]
    else if bits = 16 then .ok [.load .signed16 0]
    else if bits = 32 then .ok [.load .i32 0]
    else if bits = 64 then .ok [.load .i64 0]
    else .error (.loadOf (.int bits))
  | .ptr _ => .ok [.load .i32 0]
  | ty => .error (.loadOf ty)

/-- Writes a value of type `ty` that is no structure. On the operand stack are the address, to which
`offset` is added, and the value. -/
def storeScalar (offset : UInt32) : IRType → Except Fault (List Instr)
  | .int bits =>
    if bits ≤ 8 then .ok [.store .low8 offset]
    else if bits = 16 then .ok [.store .low16 offset]
    else if bits = 32 then .ok [.store .i32 offset]
    else if bits = 64 then .ok [.store .i64 offset]
    else .error (.storeOf (.int bits))
  | .ptr _ => .ok [.store .i32 offset]
  | ty => .error (.storeOf ty)

/-- Pushes how many bytes of memory there are. -/
def memoryEnd : List Instr := [.memorySize, .i32Const pageBits, .i32Shl]

/-- Makes memory grow if the heap has run past its end. -/
def growMemory : List Instr :=
  [.globalGet heapPointer] ++ memoryEnd ++
    [.i32GtU,
      .ifThen ([.globalGet heapPointer] ++ memoryEnd ++
        [.i32Sub, .i32Const (pageSize - 1), .i32Add, .i32Const pageBits, .i32ShrU, .memoryGrow,
          .i32Const 0xFFFFFFFF, .i32Eq, .ifThen [.unreachable]])]

namespace FunctionContext

/-- Pops the result of an instruction into its local. -/
def setResult (ctx : FunctionContext) (id : Nat) : Except Fault (List Instr) :=
  match ctx.frame.result? id with
  | some index => .ok [.localSet index]
  | none => .error (.resultOf id)

def slot (ctx : FunctionContext) (id : Nat) : Except Fault UInt32 :=
  match ctx.frame.slot? id with
  | some offset => .ok offset
  | none => .error (.storageOf id)

/-- Pushes an address within the frame. -/
def frameAddress (ctx : FunctionContext) (offset : UInt32) : List Instr :=
  .localGet ctx.frame.base :: addOffset offset

def pushInst (ctx : FunctionContext) (id : Nat) : Except Fault (List Instr) :=
  match ctx.frame.result? id with
  | some index => .ok [.localGet index]
  | none => .error (.useOf id)

/-- Pushes a value; of a structure, its address. -/
def pushValue (ctx : FunctionContext) (v : IR.Value) : Except Fault (List Instr) :=
  match v.source with
  | .param index => .ok [.localGet index]
  | .inst id => ctx.pushInst id
  | .const (.int value) =>
    if v.ty = .int 64 then .ok [.i64Const (UInt64.ofInt value)]
    else .ok [.i32Const (UInt32.ofInt value)]
  | .const constant =>
    match ctx.data.addressOf? v.ty constant with
    | some address => .ok [.i32Const address]
    | none => .error .unplacedConstant
  | .global index =>
    match ctx.data.globals[index]? with
    | some address => .ok [.i32Const address]
    | none => .error (.noGlobal index)

/-- Copies a value of type `ty` between the two addresses on the operand stack. -/
def copyBytes (ctx : FunctionContext) (ty : IRType) : Except Fault (List Instr) := do
  let e ← ctx.layouts.extent ty
  return [.i32Const e.size, .memoryCopy]

/-- Stores a value at the address on the operand stack plus `offset`. -/
def storeValue (ctx : FunctionContext) (v : IR.Value) (offset : UInt32) :
    Except Fault (List Instr) := do
  if v.ty.isStruct then
    let push ← ctx.pushValue v
    let copy ← ctx.copyBytes v.ty
    return addOffset offset ++ push ++ copy
  else
    let push ← ctx.pushValue v
    let store ← storeScalar offset v.ty
    return push ++ store

/-- Stores the fields of a structure in the slot at `slot`. -/
def storeFields (ctx : FunctionContext) (slot : UInt32) :
    List IR.Value → List UInt32 → Except Fault (List Instr)
  | field :: fields, offset :: offsets => do
    let store ← ctx.storeValue field offset
    let others ← ctx.storeFields slot fields offsets
    return ctx.frameAddress slot ++ store ++ others
  | _, _ => .ok []

/-- Takes the storage of one `ty` from the heap. -/
def heapAlloc (ctx : FunctionContext) (id : Nat) (ty : IRType) : Except Fault (List Instr) := do
  let e ← ctx.layouts.extent ty
  let size ← heapSize e
  let set ← ctx.setResult id
  return [.globalGet heapPointer] ++ set
    ++ [.globalGet heapPointer, .i32Const size, .i32Add, .globalSet heapPointer]
    ++ growMemory

/-- Takes the frame from the shadow stack. -/
def prologue (ctx : FunctionContext) : List Instr :=
  if ctx.frame.size = 0 then []
  else
    [.globalGet stackPointer, .i32Const ctx.frame.size, .i32Sub, .localTee ctx.frame.base,
      .globalSet stackPointer]

/-- Gives the frame back. -/
def epilogue (ctx : FunctionContext) : List Instr :=
  if ctx.frame.size = 0 then []
  else
    [.localGet ctx.frame.base, .i32Const ctx.frame.size, .i32Add, .globalSet stackPointer]

/-- The arithmetic on values of type `ty`. -/
def arithmetic (ctx : FunctionContext) (inst : IR.Inst) (lhs rhs : IR.Value)
    (wide word : Instr) : Except Fault (List Instr) := do
  let left ← ctx.pushValue lhs
  let right ← ctx.pushValue rhs
  let set ← ctx.setResult inst.id
  let op := if inst.ty = .int 64 then wide else word
  return left ++ right ++ [op] ++ narrow inst.ty ++ set

def lowerLoad (ctx : FunctionContext) (inst : IR.Inst) (ptr : IR.Value) :
    Except Fault (List Instr) := do
  if inst.ty.isStruct then
    let slot ← ctx.slot inst.id
    let push ← ctx.pushValue ptr
    let copy ← ctx.copyBytes inst.ty
    let set ← ctx.setResult inst.id
    return ctx.frameAddress slot ++ push ++ copy ++ ctx.frameAddress slot ++ set
  else
    let push ← ctx.pushValue ptr
    let load ← loadScalar inst.ty
    let set ← ctx.setResult inst.id
    return push ++ load ++ set

/-- A call. A structure it gives lies in the frame that the callee has just given back, so it is
copied before anything else can use that storage. -/
def lowerCall (ctx : FunctionContext) (inst : IR.Inst) (callee : IR.FunctionId)
    (args : List IR.Value) : Except Fault (List Instr) := do
  let pushes ← args.mapM ctx.pushValue
  let call := pushes.flatten ++ [Instr.call callee]
  if inst.ty.isStruct then
    let set ← ctx.setResult inst.id
    let slot ← ctx.slot inst.id
    let push ← ctx.pushInst inst.id
    let copy ← ctx.copyBytes inst.ty
    return call ++ set ++ ctx.frameAddress slot ++ push ++ copy ++ ctx.frameAddress slot ++ set
  else if inst.ty.isVoid then return call
  else return call ++ (← ctx.setResult inst.id)

def lowerAggregate (ctx : FunctionContext) (inst : IR.Inst) (fields : List IR.Value) :
    Except Fault (List Instr) :=
  match inst.ty with
  | .struct name => do
    let layout ← ctx.layouts.get name
    let slot ← ctx.slot inst.id
    let stores ← ctx.storeFields slot fields layout.offsets
    let set ← ctx.setResult inst.id
    return stores ++ ctx.frameAddress slot ++ set
  | ty => .error (.aggregateOf ty)

def lowerInst (ctx : FunctionContext) (inst : IR.Inst) : Except Fault (List Instr) :=
  match inst.op with
  | .alloca .. => do
    let slot ← ctx.slot inst.id
    let set ← ctx.setResult inst.id
    return ctx.frameAddress slot ++ set
  | .heapAlloc ty => ctx.heapAlloc inst.id ty
  | .store value ptr => do
    let push ← ctx.pushValue ptr
    let store ← ctx.storeValue value 0
    return push ++ store
  | .load ptr => ctx.lowerLoad inst ptr
  | .call callee args => ctx.lowerCall inst callee args
  | .add lhs rhs => ctx.arithmetic inst lhs rhs .i64Add .i32Add
  | .sub lhs rhs => ctx.arithmetic inst lhs rhs .i64Sub .i32Sub
  | .fieldAddr ptr index => do
    let offset ← ctx.layouts.fieldOffset ptr.ty index
    let push ← ctx.pushValue ptr
    let set ← ctx.setResult inst.id
    return push ++ addOffset offset ++ set
  | .aggregate fields => ctx.lowerAggregate inst fields
  | .ret none => .ok (ctx.epilogue ++ [.ret])
  | .ret (some value) => do
    let push ← ctx.pushValue value
    return push ++ ctx.epilogue ++ [.ret]

end FunctionContext

/-- The types of what a function of this return type leaves on the operand stack. -/
def resultTypes (ty : IRType) : List Wasm.ValType := if ty.isVoid then [] else [valType ty]

def lowerFunction (layouts : Layouts) (data : DataImage) (f : IR.Function) :
    Except Fault Wasm.Function := do
  let frame ← Frame.ofFunction layouts f
  if f.blocks.isEmpty then throw (.noBody f.name)
  let ctx : FunctionContext := ⟨layouts, data, frame⟩
  let code ← f.insts.mapM ctx.lowerInst
  return {
    params := f.params.map valType
    results := resultTypes f.ret
    locals := frame.locals
    body := ctx.prologue ++ code.flatten }

end Straightline.Lowering
