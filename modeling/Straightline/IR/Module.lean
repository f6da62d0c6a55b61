import Straightline.IR.Type

/-!
# Modules of the intermediate representation

Named structures, globals with constant contents, and functions of typed instructions. Storage is
explicit: a frame slot is an `alloca`, storage that outlives its function a `heapAlloc`, and every
access goes through an address. What is copied and what is shared has been decided by then.

Values are handles and know their type. An instruction is known by its number within its function,
a global and a function by their place in the module.
-/

set_option autoImplicit false

namespace Straightline.IR

/-- The place of a function in its module. -/
abbrev FunctionId := Nat

inductive Constant where
  | int (value : Int)
  | struct (fields : List Constant)
deriving Repr

namespace Constant

mutual

def decEq : (a b : Constant) → Decidable (a = b)
  | .int m, .int n => if h : m = n then .isTrue (by rw [h]) else .isFalse (by simp [h])
  | .int _, .struct _ => .isFalse (by simp)
  | .struct _, .int _ => .isFalse (by simp)
  | .struct as, .struct bs =>
    match decEqList as bs with
    | .isTrue h => .isTrue (by rw [h])
    | .isFalse h => .isFalse (by simp [h])

def decEqList : (as bs : List Constant) → Decidable (as = bs)
  | [], [] => .isTrue rfl
  | [], _ :: _ => .isFalse (by simp)
  | _ :: _, [] => .isFalse (by simp)
  | a :: as, b :: bs =>
    match decEq a b with
    | .isTrue h =>
      match decEqList as bs with
      | .isTrue hs => .isTrue (by rw [h, hs])
      | .isFalse hs => .isFalse (by simp [hs])
    | .isFalse h => .isFalse (by simp [h])

end

instance : DecidableEq Constant := decEq

def isStruct : Constant → Bool
  | struct _ => true
  | int _ => false

end Constant

/-- Where a value comes from. -/
inductive Source where
  | param (index : Nat)
  /-- The result of the instruction with this number in the same function. -/
  | inst (id : Nat)
  | const (constant : Constant)
  /-- The address of the global at this place. -/
  | global (index : Nat)
deriving DecidableEq, Repr

structure Value where
  source : Source
  ty : IRType
deriving DecidableEq, Repr

namespace Value

def ofInt (ty : IRType) (value : Int) : Value := ⟨.const (.int value), ty⟩

def constant? (v : Value) : Option Constant :=
  match v.source with
  | .const c => some c
  | _ => none

end Value

inductive Op where
  | alloca (ty : IRType) (name : Option String)
  /-- Storage for `ty` that outlives the function. -/
  | heapAlloc (ty : IRType)
  | store (value ptr : Value)
  | load (ptr : Value)
  | call (callee : FunctionId) (args : List Value)
  | add (lhs rhs : Value)
  | sub (lhs rhs : Value)
  /-- The address of field `index` of the structure at `ptr`. -/
  | fieldAddr (ptr : Value) (index : Nat)
  /-- A structure of fields that are not all constant. -/
  | aggregate (fields : List Value)
  | ret (value : Option Value)
deriving DecidableEq, Repr

namespace Op

/-- The values an instruction reads, in the order in which they are evaluated. -/
def operands : Op → List Value
  | alloca .. | heapAlloc _ | ret none => []
  | store value ptr => [ptr, value]
  | load ptr | fieldAddr ptr _ => [ptr]
  | call _ args => args
  | add lhs rhs | sub lhs rhs => [lhs, rhs]
  | aggregate fields => fields
  | ret (some value) => [value]

def isRet : Op → Bool
  | ret _ => true
  | _ => false

end Op

/-- An instruction; `ty` is the type of its result, `void` for stores and returns. -/
structure Inst where
  id : Nat
  ty : IRType
  op : Op
deriving DecidableEq, Repr

structure Block where
  label : String
  insts : List Inst
deriving DecidableEq, Repr

/-- A function; it has no blocks until a body has been begun. -/
structure Function where
  name : String
  params : List IRType
  ret : IRType
  blocks : List Block
deriving DecidableEq, Repr

namespace Function

/-- The instructions of all blocks in order. -/
def insts (f : Function) : List Inst := f.blocks.flatMap Block.insts

/-- How many instructions a function has. The next one gets this number. -/
def instCount (f : Function) : Nat := f.insts.length

end Function

structure StructDef where
  name : String
  fields : List IRType
deriving DecidableEq, Repr

structure Global where
  name : String
  ty : IRType
  init : Constant
deriving DecidableEq, Repr

structure Module where
  name : String
  structs : List StructDef := []
  globals : List Global := []
  functions : List Function := []
deriving DecidableEq, Repr

namespace Module

/-- The structure declared under `name`; the first, if there are several. -/
def structDef? (m : Module) (name : String) : Option StructDef :=
  m.structs.find? fun d => d.name == name

def function? (m : Module) (id : FunctionId) : Option Function := m.functions[id]?

/-- The type of field `index` behind a pointer of type `ptr` to a named structure. -/
def fieldType? (m : Module) (ptr : IRType) (index : Nat) : Option IRType :=
  match ptr.pointee? with
  | some (.struct name) =>
    match m.structDef? name with
    | some d => d.fields[index]?
    | none => none
  | _ => none

end Module

end Straightline.IR
