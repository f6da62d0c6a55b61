import Straightline.Wasm.Module

/-!
# What WebAssembly code does

The semantics of the instructions that lowered functions consist of. Memory is a function from addresses
to bytes and a number of pages; an access has to lie within the pages, or it traps. Code is executed on
an instance, which is what outlives a call, and on the locals and the operand stack of one call.

Whether memory grows when it is asked to is up to the engine: `Engine` decides it by the number of
requests that went before, so that a statement about every engine is one about every choice. Calls are
nested less than a given number deep, as the engine's own stack has an end.

Validation is not assumed. What it excludes, such as an operand of the wrong type, traps as `invalid`.
-/

set_option autoImplicit false

namespace Straightline.Wasm

/-! ## Values -/

inductive Val where
  | i32 (word : UInt32)
  | i64 (word : UInt64)
deriving DecidableEq, Repr

namespace Val

def type : Val → ValType
  | i32 _ => .i32
  | i64 _ => .i64

/-- What a local holds that was not set. -/
def zero : ValType → Val
  | .i32 => i32 0
  | .i64 => i64 0

/-- The number that a value is, read without a sign. -/
def toNat : Val → Nat
  | i32 word => word.toNat
  | i64 word => word.toNat

end Val

/-! ## Bytes -/

/-- The lowest `width` bytes of a number, lowest first. -/
def bytesOf (n : Nat) : (width : Nat) → List UInt8
  | 0 => []
  | width + 1 => (n % 256).toUInt8 :: bytesOf (n / 256) width

/-- The number that has these bytes, lowest first. -/
def ofBytes : List UInt8 → Nat
  | [] => 0
  | byte :: rest => byte.toNat + 256 * ofBytes rest

/-- The bytes from `address` on. -/
def bytesAt (byte : Nat → UInt8) (address : Nat) : (width : Nat) → List UInt8
  | 0 => []
  | width + 1 => byte address :: bytesAt byte (address + 1) width

/-- With other bytes from `address` on. -/
def overlay (byte : Nat → UInt8) (address : Nat) (bytes : List UInt8) : Nat → UInt8 := fun a =>
  if address ≤ a then bytes[a - address]?.getD (byte a) else byte a

/-! ## Memory -/

/-- Bytes in a page. -/
def pageBytes : Nat := 65536

/-- How many pages there can be. -/
def maxPages : Nat := 65536

structure Memory where
  pages : Nat
  byte : Nat → UInt8

namespace Memory

def size (m : Memory) : Nat := m.pages * pageBytes

/-- The bytes from `address` on, if all of them are there. -/
def read? (m : Memory) (address width : Nat) : Option (List UInt8) :=
  if address + width ≤ m.size then some (bytesAt m.byte address width) else none

def write? (m : Memory) (address : Nat) (bytes : List UInt8) : Option Memory :=
  if address + bytes.length ≤ m.size then some { m with byte := overlay m.byte address bytes }
  else none

/-- Bytes are copied if all of them are there, and their places. -/
def copy? (m : Memory) (source target width : Nat) : Option Memory :=
  if source + width ≤ m.size ∧ target + width ≤ m.size then
    some { m with byte := overlay m.byte target (bytesAt m.byte source width) }
  else none

/-- With more pages, which are empty. -/
def grow (m : Memory) (pages : Nat) : Memory :=
  ⟨m.pages + pages, fun a => if a < m.size then m.byte a else 0⟩

end Memory

namespace Load

def width : Load → Nat
  | unsigned8 | signed8 => 1
  | signed16 => 2
  | i32 => 4
  | i64 => 8

/-- The value that is read as the number `n`. -/
def value (access : Load) (n : Nat) : Val :=
  match access with
  | unsigned8 | i32 => .i32 (UInt32.ofNat n)
  | signed8 => .i32 (UInt32.ofInt (Int.bmod n 256))
  | signed16 => .i32 (UInt32.ofInt (Int.bmod n 65536))
  | i64 => .i64 (UInt64.ofNat n)

end Load

namespace Store

def width : Store → Nat
  | low8 => 1
  | low16 => 2
  | i32 => 4
  | i64 => 8

/-- The type of what is written. -/
def operand : Store → ValType
  | low8 | low16 | i32 => .i32
  | i64 => .i64

end Store

/-! ## Instances -/

/-- Whether memory grows, by the number of requests that went before. -/
abbrev Engine := Nat → Bool

/-- What outlives a call. -/
structure Instance where
  memory : Memory
  globals : List UInt32
  /-- How often memory was asked to grow. -/
  requests : Nat := 0
  /-- Whether it did not, the last time. -/
  refused : Bool := false

namespace Instance

/-- Asks for more pages. Gives how many there were, or `-1`. -/
def grow (engine : Engine) (pages : UInt32) (s : Instance) : Instance × UInt32 :=
  if engine s.requests ∧ s.memory.pages + pages.toNat ≤ maxPages then
    ({ s with memory := s.memory.grow pages.toNat, requests := s.requests + 1, refused := false },
      UInt32.ofNat s.memory.pages)
  else ({ s with requests := s.requests + 1, refused := true }, 0xFFFFFFFF)

end Instance

/-- The instance of a module before any call. -/
def Module.instantiate (m : Module) : Instance where
  memory :=
    ⟨m.pages, m.data.foldl (fun byte s => overlay byte s.offset.toNat s.bytes) fun _ => 0⟩
  globals := m.globals

/-! ## Execution -/

inductive Trap where
  | unreachable
  | outOfBounds
  /-- Calls are nested too deep. -/
  | depth
  /-- The code is not valid. -/
  | invalid
deriving DecidableEq, Repr

/-- What a call works on; the top of the operand stack is first. -/
structure Config where
  inst : Instance
  locals : List Val
  stack : List Val

/-- How executing code ends. -/
inductive Outcome where
  | next (c : Config)
  | returned (c : Config)
  | trap (cause : Trap) (s : Instance)

instance decidableNext {outcome : Outcome} {P : Config → Prop} [∀ c, Decidable (P c)] :
    Decidable (∃ c, outcome = .next c ∧ P c) :=
  match outcome with
  | .next c => decidable_of_iff (P c) (by simp)
  | .returned _ | .trap _ _ => .isFalse (by simp)

/-- What calling a function does to the operand stack. -/
abbrev Invoke := Nat → List Val → EStateM Trap Instance (List Val)

namespace Config

def trap (c : Config) (cause : Trap) : Outcome := .trap cause c.inst

def push (c : Config) (v : Val) : Outcome := .next { c with stack := v :: c.stack }

/-- An operation on one word. -/
def unary (c : Config) (f : UInt32 → UInt32) : Outcome :=
  match c.stack with
  | .i32 a :: stack => .next { c with stack := .i32 (f a) :: stack }
  | _ => c.trap .invalid

/-- An operation on two words, of which the second is on top. -/
def binary (c : Config) (f : UInt32 → UInt32 → UInt32) : Outcome :=
  match c.stack with
  | .i32 b :: .i32 a :: stack => .next { c with stack := .i32 (f a b) :: stack }
  | _ => c.trap .invalid

def binaryWide (c : Config) (f : UInt64 → UInt64 → UInt64) : Outcome :=
  match c.stack with
  | .i64 b :: .i64 a :: stack => .next { c with stack := .i64 (f a b) :: stack }
  | _ => c.trap .invalid

def setLocal (c : Config) (index : Nat) (v : Val) (stack : List Val) : Outcome :=
  if index < c.locals.length then .next { c with locals := c.locals.set index v, stack }
  else c.trap .invalid

def load (c : Config) (access : Load) (offset : UInt32) : Outcome :=
  match c.stack with
  | .i32 address :: stack =>
    match c.inst.memory.read? (address.toNat + offset.toNat) access.width with
    | some bytes => .next { c with stack := access.value (ofBytes bytes) :: stack }
    | none => c.trap .outOfBounds
  | _ => c.trap .invalid

/-- Leaves other memory behind, if there is one. -/
def remember (c : Config) (stack : List Val) : Option Memory → Outcome
  | some memory => .next { c with inst := { c.inst with memory }, stack }
  | none => c.trap .outOfBounds

def store (c : Config) (access : Store) (offset : UInt32) : Outcome :=
  match c.stack with
  | v :: .i32 address :: stack =>
    if v.type = access.operand then
      c.remember stack
        (c.inst.memory.write? (address.toNat + offset.toNat) (bytesOf v.toNat access.width))
    else c.trap .invalid
  | _ => c.trap .invalid

def copy (c : Config) : Outcome :=
  match c.stack with
  | .i32 count :: .i32 source :: .i32 target :: stack =>
    c.remember stack (c.inst.memory.copy? source.toNat target.toNat count.toNat)
  | _ => c.trap .invalid

def grow (c : Config) (engine : Engine) : Outcome :=
  match c.stack with
  | .i32 pages :: stack =>
    .next { c with
      inst := (c.inst.grow engine pages).1
      stack := .i32 (c.inst.grow engine pages).2 :: stack }
  | _ => c.trap .invalid

def call (c : Config) (invoke : Invoke) (function : Nat) : Outcome :=
  match invoke function c.stack c.inst with
  | .ok stack inst => .next { c with inst, stack }
  | .error cause inst => .trap cause inst

end Config

section Exec

variable (engine : Engine) (invoke : Invoke)

mutual

def exec (c : Config) : Instr → Outcome
  | .unreachable => c.trap .unreachable
  | .ret => .returned c
  | .ifThen body =>
    match c.stack with
    | .i32 a :: stack =>
      if a = 0 then .next { c with stack } else execAll { c with stack } body
    | _ => c.trap .invalid
  | .call function => c.call invoke function
  | .localGet index =>
    match c.locals[index]? with
    | some v => c.push v
    | none => c.trap .invalid
  | .localSet index =>
    match c.stack with
    | v :: stack => c.setLocal index v stack
    | [] => c.trap .invalid
  | .localTee index =>
    match c.stack with
    | v :: stack => c.setLocal index v (v :: stack)
    | [] => c.trap .invalid
  | .globalGet index =>
    match c.inst.globals[index]? with
    | some word => c.push (.i32 word)
    | none => c.trap .invalid
  | .globalSet index =>
    match c.stack with
    | .i32 word :: stack =>
      if index < c.inst.globals.length then
        .next { c with
          inst := { c.inst with globals := c.inst.globals.set index word }
          stack }
      else c.trap .invalid
    | _ => c.trap .invalid
  | .load access offset => c.load access offset
  | .store access offset => c.store access offset
  | .memorySize => c.push (.i32 (UInt32.ofNat c.inst.memory.pages))
  | .memoryGrow => c.grow engine
  | .memoryCopy => c.copy
  | .i32Const word => c.push (.i32 word)
  | .i64Const word => c.push (.i64 word)
  | .i32Eq => c.binary fun a b => if a = b then 1 else 0
  | .i32GtU => c.binary fun a b => if a > b then 1 else 0
  | .i32Add => c.binary (· + ·)
  | .i32Sub => c.binary (· - ·)
  | .i32And => c.binary (· &&& ·)
  | .i32Shl => c.binary (· <<< ·)
  | .i32ShrU => c.binary (· >>> ·)
  | .i32Extend8S => c.unary fun a => UInt32.ofInt (Int.bmod a.toNat 256)
  | .i32Extend16S => c.unary fun a => UInt32.ofInt (Int.bmod a.toNat 65536)
  | .i64Add => c.binaryWide (· + ·)
  | .i64Sub => c.binaryWide (· - ·)

/-- Executes instructions up to a return. -/
def execAll (c : Config) : List Instr → Outcome
  | [] => .next c
  | instr :: rest =>
    match exec c instr with
    | .next c' => execAll c' rest
    | outcome => outcome

end

end Exec

/-- Leaves a function: its results are put on what was below its arguments. -/
def Outcome.leave (results : Nat) (below : List Val) : Outcome → EStateM.Result Trap Instance (List Val)
  | .next c | .returned c =>
    if results ≤ c.stack.length then .ok (c.stack.take results ++ below) c.inst
    else .error .invalid c.inst
  | .trap cause s => .error cause s

/-- Executes a function on arguments that are on the operand stack, the last one on top. -/
def Function.execute (f : Function) (engine : Engine) (invoke : Invoke) (stack : List Val) :
    EStateM Trap Instance (List Val) := fun s =>
  let args := (stack.take f.params.length).reverse
  if args.map Val.type = f.params then
    (execAll engine invoke ⟨s, args ++ f.locals.map Val.zero, []⟩ f.body).leave f.results.length
      (stack.drop f.params.length)
  else .error .invalid s

/-- Calls a function of a module, with calls nested less than `depth` deep. -/
def Module.callWithin (m : Module) (engine : Engine) : (depth : Nat) → Invoke
  | 0, _, _ => throw .depth
  | depth + 1, id, stack =>
    match m.functions[id]? with
    | some f => f.execute engine (m.callWithin engine depth) stack
    | none => throw .invalid

end Straightline.Wasm
