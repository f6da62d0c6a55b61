import Straightline.IR.Defect

/-!
# Building a module

A builder is a module under construction, the function to which instructions are added, and the
defects met so far. An operation that cannot be carried out records a defect and answers with a
placeholder, a zero of the type it would have had; the builder goes on, and `verify` reports the
first defect in the end.

Instructions are numbered by how many the function already has, so numbers are dense in every
function whatever was asked for in between. `rollback` cuts every table back to its length at a
checkpoint. It cannot take back handles that are still held elsewhere.
-/

set_option autoImplicit false

namespace Straightline.IR

structure Builder where
  module : Module
  current : Option FunctionId := none
  defects : List Defect := []
deriving DecidableEq, Repr

/-- How much of a module there was at some time. -/
structure Checkpoint where
  structs : Nat
  globals : Nat
  functions : Nat
  defects : Nat
deriving DecidableEq, Repr

/-- A building step. -/
abbrev Build := StateM Builder

namespace Builder

/-- A builder of an empty module. -/
def start (name : String) : Builder := { module := { name := name } }

def checkpoint (b : Builder) : Checkpoint where
  structs := b.module.structs.length
  globals := b.module.globals.length
  functions := b.module.functions.length
  defects := b.defects.length

/-- Drops what was declared or recorded after `c` was taken, and leaves the current function. -/
def rollback (b : Builder) (c : Checkpoint) : Builder where
  module :=
    { b.module with
      structs := b.module.structs.take c.structs
      globals := b.module.globals.take c.globals
      functions := b.module.functions.take c.functions }
  current := none
  defects := b.defects.take c.defects

/-- The function that instructions are added to, if it exists. -/
def currentFunction? (b : Builder) : Option Function :=
  match b.current with
  | some id => b.module.function? id
  | none => none

/-- Records a defect in the current function. -/
def record (b : Builder) (problem : Problem) : Builder :=
  { b with defects := b.defects ++ [⟨b.currentFunction?.map Function.name, problem⟩] }

end Builder

namespace Function

/-- Adds an instruction to the last block. -/
def append (f : Function) (inst : Inst) : Function :=
  { f with
    blocks := f.blocks.modify (f.blocks.length - 1) fun b =>
      { b with insts := b.insts ++ [inst] } }

/-- Opens a new block. -/
def openBlock (f : Function) (label : String) : Function :=
  { f with blocks := f.blocks ++ [⟨label, []⟩] }

end Function

namespace Build

/-- The value that stands for one that could not be computed. -/
def placeholder (ty : IRType) : Value := .ofInt ty 0

/-- Records `problem` and answers with a placeholder of type `ty`. -/
def fail (problem : Problem) (ty : IRType) : Build Value := fun b =>
  (placeholder ty, b.record problem)

/-- Adds an instruction with a result of type `ty` to the last block of the current function. -/
def emit (ty : IRType) (op : Op) : Build Value := fun b =>
  match b.current, b.currentFunction? with
  | some id, some f =>
    if f.blocks.isEmpty then fail .beforeEntry ty b
    else
      let inst : Inst := ⟨f.instCount, ty, op⟩
      (⟨.inst inst.id, ty⟩,
        { b with
          module :=
            { b.module with
              functions := b.module.functions.modify id fun f => f.append inst } })
  | _, _ => fail .outsideFunction ty b

def declareStruct (name : String) (fields : List IRType) : Build Unit := fun b =>
  ((), { b with module := { b.module with structs := b.module.structs ++ [⟨name, fields⟩] } })

/-- Declares a function without a body. -/
def declareFunction (name : String) (params : List IRType) (ret : IRType) :
    Build FunctionId := fun b =>
  (b.module.functions.length,
    { b with
      module := { b.module with functions := b.module.functions ++ [⟨name, params, ret, []⟩] } })

/-- Opens a block of the function `id`, to which instructions are added from now on. -/
def openEntry (id : FunctionId) : Build Unit := fun b =>
  match b.module.function? id with
  | some _ =>
    ((), { b with
      module :=
        { b.module with functions := b.module.functions.modify id fun f => f.openBlock "entry" }
      current := some id })
  | none => ((), b.record (.unknownFunction id))

/-- Parameter `index` of the function `id`. One that is not there is of type `void`, and as nothing
bounds its number, the 32 low bits of that are kept. No defect is recorded. -/
def param (id : FunctionId) (index : Nat) : Build Value := fun b =>
  match (b.module.function? id).bind fun f => f.params[index]? with
  | some ty => (⟨.param index, ty⟩, b)
  | none => (⟨.param (index % UInt32.size), .void⟩, b)

def alloca (ty : IRType) (name : Option String) : Build Value :=
  emit (.ptr ty) (.alloca ty name)

def heapAlloc (ty : IRType) : Build Value :=
  emit (.ptr ty) (.heapAlloc ty)

def store (value ptr : Value) : Build Unit := do
  discard <| emit .void (.store value ptr)

def load (ptr : Value) : Build Value :=
  match ptr.ty.pointee? with
  | some ty => emit ty (.load ptr)
  | none => fail (.loadThrough ptr.ty) .void

def call (callee : FunctionId) (args : List Value) : Build Value := fun b =>
  match b.module.function? callee with
  | some f => emit f.ret (.call callee args) b
  | none => fail (.unknownCallee callee) .void b

def add (lhs rhs : Value) : Build Value := emit lhs.ty (.add lhs rhs)

def sub (lhs rhs : Value) : Build Value := emit lhs.ty (.sub lhs rhs)

/-- The address of field `index` of the structure stored at `ptr`. -/
def fieldAddr (ptr : Value) (index : Nat) : Build Value := fun b =>
  match b.module.fieldType? ptr.ty index with
  | some ty => emit (.ptr ty) (.fieldAddr ptr index) b
  | none => fail (.noField index ptr.ty) (.ptr .void) b

/-- A structure value of type `ty`: a constant if every field is one. -/
def struct (ty : IRType) (fields : List Value) : Build Value :=
  match fields.mapM Value.constant? with
  | some constants => pure ⟨.const (.struct constants), ty⟩
  | none => emit ty (.aggregate fields)

/-- Adds a global that holds a constant, and answers with its address. -/
def addGlobal (name : String) (init : Value) : Build Value := fun b =>
  match init.constant? with
  | some constant =>
    (⟨.global b.module.globals.length, .ptr init.ty⟩,
      { b with
        module := { b.module with globals := b.module.globals ++ [⟨name, init.ty, constant⟩] } })
  | none => fail (.notConstant name) (.ptr init.ty) b

def ret (value : Option Value) : Build Unit := do
  discard <| emit .void (.ret value)

end Build

end Straightline.IR
