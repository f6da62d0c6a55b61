import Straightline.IR.Module
import Straightline.Proofs.Meaning.Source

/-!
# What modules mean

Instructions are executed in order on a memory of cells: one for each global, one for each piece of
storage that was allocated, and one for each slot of the frames that are open. An address is a cell and
a path to a field in it. A function gives its slots back when it returns.

Nothing is known here of the language. The types of values are looked at where the width of an
operation is needed, and nowhere else.
-/

set_option autoImplicit false

namespace Straightline.IR

open Meaning (Stop stuck known)

/-! ## Memory -/

/-- The cell of a global, of allocated storage, or of a slot. -/
inductive Base where
  | global (index : Nat)
  | heap (index : Nat)
  | slot (index : Nat)
deriving DecidableEq, Repr

/-- A field of what is in a cell; the whole of it, if the path is empty. -/
structure Address where
  base : Base
  path : List Nat
deriving DecidableEq, Repr

/-- What a value is when the program runs. -/
inductive Datum where
  | int (value : Int)
  | struct (fields : List Datum)
  | ptr (address : Address)
deriving Repr

/-- Whether something is a given number. -/
instance decidableInt {d : Option Datum} {n : Int} : Decidable (d = some (.int n)) :=
  match d with
  | some (.int n') => decidable_of_iff (n' = n) (by simp)
  | some (.struct _) | some (.ptr _) | none => .isFalse (by simp)

namespace Datum

def at? : Datum → List Nat → Option Datum
  | d, [] => some d
  | struct fields, index :: path =>
    match fields[index]? with
    | some field => field.at? path
    | none => none
  | _, _ :: _ => none

/-- With another value at the end of a path. -/
def put? : Datum → List Nat → Datum → Option Datum
  | _, [], new => some new
  | struct fields, index :: path, new =>
    match fields[index]? with
    | some field => (field.put? path new).map fun field => struct (fields.set index field)
    | none => none
  | _, _ :: _, _ => none

end Datum

mutual

def Constant.datum : Constant → Datum
  | .int value => .int value
  | .struct fields => .struct (Constant.data fields)

def Constant.data : List Constant → List Datum
  | [] => []
  | c :: rest => c.datum :: Constant.data rest

end

/-- The cells; nothing is in one that was not stored to. The slots of all open frames are in one list,
those of the innermost frame last. -/
structure Memory where
  globals : List (Option Datum)
  heap : List (Option Datum)
  stack : List (Option Datum)
deriving Repr

namespace Memory

def cell? (m : Memory) : Base → Option (Option Datum)
  | .global index => m.globals[index]?
  | .heap index => m.heap[index]?
  | .slot index => m.stack[index]?

def set (m : Memory) (d : Datum) : Base → Memory
  | .global index => { m with globals := m.globals.set index (some d) }
  | .heap index => { m with heap := m.heap.set index (some d) }
  | .slot index => { m with stack := m.stack.set index (some d) }

def load? (m : Memory) (address : Address) : Option Datum := do
  let cell ← m.cell? address.base
  let whole ← cell
  whole.at? address.path

def store? (m : Memory) (address : Address) (d : Datum) : Option Memory := do
  let cell ← m.cell? address.base
  match address.path with
  | [] => return m.set d address.base
  | path =>
    let whole ← cell
    let whole ← whole.put? path d
    return m.set whole address.base

end Memory

/-! ## Instructions -/

abbrev Exec := EStateM Stop Memory

namespace Exec

/-- The address that a value is. -/
def address : Datum → Exec Address
  | .ptr a => pure a
  | _ => stuck

def alloca : Exec Datum := fun m =>
  .ok (.ptr ⟨.slot m.stack.length, []⟩) { m with stack := m.stack ++ [none] }

def heapAlloc : Exec Datum := fun m =>
  .ok (.ptr ⟨.heap m.heap.length, []⟩) { m with heap := m.heap ++ [none] }

def load (ptr : Datum) : Exec Datum := do
  let a ← address ptr
  let m ← get
  known (m.load? a)

def store (value ptr : Datum) : Exec Unit := do
  let a ← address ptr
  let m ← get
  let m ← known (m.store? a value)
  set m

def fieldAddr (ptr : Datum) (index : Nat) : Exec Datum := do
  let a ← address ptr
  return .ptr ⟨a.base, a.path ++ [index]⟩

/-- An operation on two's complement numbers of type `ty`. -/
def arithmetic (ty : IRType) (f : Int → Int → Int) : Datum → Datum → Exec Datum
  | .int a, .int b =>
    match ty with
    | .int bits => pure (.int ((f a b).bmod (Nat.pow 2 bits)))
    | _ => stuck
  | _, _ => stuck

end Exec

/-- The results of the instructions of a function that were executed, by number. -/
abbrev Results := Nat → Option Datum

namespace Results

def none : Results := fun _ => Option.none

def set (results : Results) (id : Nat) (d : Option Datum) : Results := fun id' =>
  if id' = id then d else results id'

end Results

/-- How executing instructions ends: at the end of the list, or at a return. -/
inductive Progress where
  | next (results : Results)
  | returned (value : Option Datum)

/-- What calls do. -/
abbrev Entry := FunctionId → List Datum → Exec (Option Datum)

section Run

variable (entry : Entry) (params : List Datum)

def operand (results : Results) (value : Value) : Option Datum :=
  match value.source with
  | .param index => params[index]?
  | .inst id => results id
  | .const c => some c.datum
  | .global index => some (.ptr ⟨.global index, []⟩)

/-- What an instruction computes; nothing, if it is a store or a call without a result. -/
def compute (results : Results) (ty : IRType) : Op → Exec (Option Datum)
  | .alloca .. => do
    let slot ← Exec.alloca
    return some slot
  | .heapAlloc _ => do
    let storage ← Exec.heapAlloc
    return some storage
  | .store value ptr => do
    let ptr ← known (operand params results ptr)
    let value ← known (operand params results value)
    Exec.store value ptr
    return none
  | .load ptr => do
    let ptr ← known (operand params results ptr)
    let value ← Exec.load ptr
    return some value
  | .call callee args => do
    let args ← known (args.mapM (operand params results))
    entry callee args
  | .add lhs rhs => do
    let lhs ← known (operand params results lhs)
    let rhs ← known (operand params results rhs)
    let sum ← Exec.arithmetic ty (· + ·) lhs rhs
    return some sum
  | .sub lhs rhs => do
    let lhs ← known (operand params results lhs)
    let rhs ← known (operand params results rhs)
    let difference ← Exec.arithmetic ty (· - ·) lhs rhs
    return some difference
  | .fieldAddr ptr index => do
    let ptr ← known (operand params results ptr)
    let field ← Exec.fieldAddr ptr index
    return some field
  | .aggregate fields => do
    let fields ← known (fields.mapM (operand params results))
    return some (.struct fields)
  | .ret _ => stuck

/-- Executes an instruction. -/
def step (results : Results) (inst : Inst) : Exec Progress :=
  match inst.op with
  | .ret none => return .returned none
  | .ret (some value) => do
    let value ← known (operand params results value)
    return .returned (some value)
  | op => do
    let result ← compute entry params results inst.ty op
    return .next (results.set inst.id result)

/-- Executes instructions up to a return. -/
def runInsts (results : Results) : List Inst → Exec Progress
  | [] => return .next results
  | inst :: rest => do
    let progress ← step entry params results inst
    match progress with
    | .next results => runInsts results rest
    | .returned value => return .returned value

end Run

/-- Leaves a function at a return, with `height` slots below its own. -/
def Progress.leave (height : Nat) : Progress → Exec (Option Datum)
  | .next _ => stuck
  | .returned value => do
    modify fun m => { m with stack := m.stack.take height }
    return value

/-- Executes a function. A body without a return comes to no result. -/
def Function.execute (f : Function) (entry : Entry) (args : List Datum) : Exec (Option Datum) := do
  if args.length = f.params.length then
    let m ← get
    let progress ← runInsts entry args .none f.insts
    progress.leave m.stack.length
  else stuck

/-- Calls a function of a module, with calls nested less than `depth` deep. -/
def Module.callWithin (m : Module) : (depth : Nat) → Entry
  | 0, _, _ => throw .depth
  | depth + 1, id, args => do
    let f ← known (m.function? id)
    f.execute (m.callWithin depth) args

end Straightline.IR
