import Straightline.IR.Verify

/-!
# Builders in any hands

A builder takes whatever values its user passes, and `verify` looks at their types only. A session is a
list of commands to a builder, each with values that were handed out before, in any order: the user may
pass a value of another function, ask for a parameter that is not there, or keep a value over a rollback.
Values are plain data, so the session notes beside each for which declaration it was handed out, and beside
each instruction what it was given.
-/

set_option autoImplicit false

namespace Straightline.IR

/-! ## Sessions -/

/-- A value and the declaration that it was handed out for: the function of which it is a parameter or a
result, or the global of which it is the address. Declarations are numbered as they are made, as their
places in the module are given out again after a rollback. -/
structure Handed where
  value : Value
  home : Option Nat
deriving DecidableEq, Repr

/-- The number of a function among all declarations, and what each of its instructions was given. -/
structure History where
  serial : Nat
  used : List (List Handed) := []
deriving DecidableEq, Repr

namespace History

/-- Adds what was given to a new instruction, if the function has got one. -/
def note (h : History) (used : List Handed) (count : Nat) : History :=
  if h.used.length < count then { h with used := h.used ++ [used] } else h

end History

/-- What a user asks of a builder. Values and checkpoints are given by their places among those handed
out so far, functions by any number. -/
inductive Command where
  | struct (name : String) (fields : List IRType)
  | function (name : String) (params : List IRType) (ret : IRType)
  | entry (id : FunctionId)
  | param (id : FunctionId) (index : Nat)
  | const (ty : IRType) (value : Int)
  | global (name : String) (init : Nat)
  | alloca (ty : IRType) (name : Option String)
  | heapAlloc (ty : IRType)
  | store (value ptr : Nat)
  | load (ptr : Nat)
  | call (callee : FunctionId) (args : List Nat)
  | add (lhs rhs : Nat)
  | sub (lhs rhs : Nat)
  | fieldAddr (ptr index : Nat)
  | aggregate (ty : IRType) (fields : List Nat)
  | ret (value : Option Nat)
  | checkpoint
  | rollback (place : Nat)
deriving Repr

/-- A builder in use. `functions` and `globals` go with the functions and globals of the module, place by
place. -/
structure Session where
  builder : Builder
  handed : List Handed := []
  checkpoints : List Checkpoint := []
  functions : List History := []
  globals : List Nat := []
  declared : Nat := 0

namespace Session

def start (name : String) : Session := { builder := .start name }

/-- The function or global that a value handed out now belongs to, but for parameters. -/
def home? (s : Session) (v : Value) : Option Nat :=
  match v.source with
  | .inst _ => s.builder.current.bind fun id => s.functions[id]?.map History.serial
  | .global index => s.globals[index]?
  | .param _ | .const _ => none

def hand (s : Session) (v : Value) : Session :=
  { s with handed := s.handed ++ [⟨v, s.home? v⟩] }

/-- Carries out a step that may add an instruction, which is given `used`. -/
def perform {α : Type} (s : Session) (used : List Handed) (step : Build α) : Session :=
  let b := (step s.builder).2
  match b.current with
  | some id =>
    { s with
      builder := b
      functions := s.functions.modify id fun h =>
        h.note used ((b.module.function? id).elim 0 Function.instCount) }
  | none => { s with builder := b }

/-- Carries out a step and hands out what it gives. -/
def give (s : Session) (used : List Handed) (step : Build Value) : Session :=
  (s.perform used step).hand (step s.builder).1

/-- Adds a global and hands out its address. -/
def addGlobal (s : Session) (name : String) (init : Value) : Session :=
  let (address, b) := Build.addGlobal name init s.builder
  match init.constant? with
  | some _ =>
    { s with
      builder := b
      globals := s.globals ++ [s.declared]
      declared := s.declared + 1 }.hand address
  | none => { s with builder := b }.hand address

/-- Carries out a command; there is nothing to carry out if it names a value or a checkpoint that was
never handed out. -/
def step (s : Session) : Command → Option Session
  | .struct name fields => some { s with builder := (Build.declareStruct name fields s.builder).2 }
  | .function name params ret =>
    some { s with
      builder := (Build.declareFunction name params ret s.builder).2
      functions := s.functions ++ [{ serial := s.declared }]
      declared := s.declared + 1 }
  | .entry id => some { s with builder := (Build.openEntry id s.builder).2 }
  | .param id index =>
    -- A parameter that is not there belongs to no function.
    let home :=
      match (s.builder.module.function? id).bind fun f => f.params[index]? with
      | some _ => s.functions[id]?.map History.serial
      | none => none
    some { s with handed := s.handed ++ [⟨(Build.param id index s.builder).1, home⟩] }
  | .const ty value => some (s.hand (.ofInt ty value))
  | .global name init => do
    let init ← s.handed[init]?
    pure (s.addGlobal name init.value)
  | .alloca ty name => some (s.give [] (Build.alloca ty name))
  | .heapAlloc ty => some (s.give [] (Build.heapAlloc ty))
  | .store value ptr => do
    let value ← s.handed[value]?
    let ptr ← s.handed[ptr]?
    pure (s.perform [ptr, value] (Build.store value.value ptr.value))
  | .load ptr => do
    let ptr ← s.handed[ptr]?
    pure (s.give [ptr] (Build.load ptr.value))
  | .call callee args => do
    let args ← args.mapM (s.handed[·]?)
    pure (s.give args (Build.call callee (args.map Handed.value)))
  | .add lhs rhs => do
    let lhs ← s.handed[lhs]?
    let rhs ← s.handed[rhs]?
    pure (s.give [lhs, rhs] (Build.add lhs.value rhs.value))
  | .sub lhs rhs => do
    let lhs ← s.handed[lhs]?
    let rhs ← s.handed[rhs]?
    pure (s.give [lhs, rhs] (Build.sub lhs.value rhs.value))
  | .fieldAddr ptr index => do
    let ptr ← s.handed[ptr]?
    pure (s.give [ptr] (Build.fieldAddr ptr.value index))
  | .aggregate ty fields => do
    let fields ← fields.mapM (s.handed[·]?)
    pure (s.give fields (Build.struct ty (fields.map Handed.value)))
  | .ret none => some (s.perform [] (Build.ret none))
  | .ret (some value) => do
    let value ← s.handed[value]?
    pure (s.perform [value] (Build.ret value.value))
  | .checkpoint => some { s with checkpoints := s.checkpoints ++ [s.builder.checkpoint] }
  | .rollback place => do
    let c ← s.checkpoints[place]?
    pure { s with
      builder := s.builder.rollback c
      functions := s.functions.take c.functions
      globals := s.globals.take c.globals }

/-- Carries out commands one after the other. -/
def run (s : Session) (commands : List Command) : Option Session := commands.foldlM step s

end Session

/-! ## Scope -/

/-- What the instruction at place `k` of `f` refers to by this operand is there and of its type. -/
inductive Value.InScope (m : Module) (f : Function) (k : Nat) : Value → Prop where
  | param {index : Nat} {ty : IRType} : f.params[index]? = some ty →
      InScope m f k ⟨.param index, ty⟩
  | inst {id : Nat} {inst : Inst} : id < k → f.insts[id]? = some inst → inst.id = id →
      InScope m f k ⟨.inst id, inst.ty⟩
  | const {c : Constant} {ty : IRType} : InScope m f k ⟨.const c, ty⟩
  | global {index : Nat} {g : Global} : m.globals[index]? = some g →
      InScope m f k ⟨.global index, .ptr g.ty⟩

namespace Value.InScope

variable {m : Module} {f : Function} {k : Nat} {ty : IRType}

theorem of_param {index : Nat} (h : Value.InScope m f k ⟨.param index, ty⟩) :
    f.params[index]? = some ty := by
  cases h with
  | param hty => exact hty

theorem of_inst {id : Nat} (h : Value.InScope m f k ⟨.inst id, ty⟩) : id < k := by
  cases h with
  | inst hlt => exact hlt

theorem of_global {index : Nat} (h : Value.InScope m f k ⟨.global index, ty⟩) :
    (m.globals[index]?).isSome := by
  cases h with
  | global hg => simp [hg]

end Value.InScope

/-- The value was handed out for the function numbered `serial`, or for a global that is still there. -/
def Handed.Belongs (s : Session) (serial : Nat) (h : Handed) : Prop :=
  match h.value.source with
  | .param _ | .inst _ => h.home = some serial
  | .global _ => ∃ g ∈ s.globals, h.home = some g
  | .const _ => True

end Straightline.IR
