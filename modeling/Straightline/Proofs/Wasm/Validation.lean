import Straightline.Proofs.Wasm.Semantics

/-!
# Valid WebAssembly

The typing of code by the types on the operand stack, top first. An instruction relates the stack before
it to the one after; behind `unreachable` and a return any stack will do. A return is typed more strictly
than validation asks for: the results are all that is on the stack. The body of an `if` starts and ends
with a stack of its own, which is empty.
-/

set_option autoImplicit false

namespace Straightline.Wasm

namespace Load

/-- The type of what is read. -/
def result : Load → ValType
  | unsigned8 | signed8 | signed16 | i32 => .i32
  | i64 => .i64

end Load

/-- What code may refer to. -/
structure Context where
  functions : List Function
  globals : List UInt32
  /-- The parameters, and the other locals after them. -/
  locals : List ValType
  results : List ValType

mutual

inductive Instr.Typed (c : Context) : Instr → List ValType → List ValType → Prop where
  | unreachable {s s' : List ValType} : Instr.Typed c .unreachable s s'
  | ret {s' : List ValType} : Instr.Typed c .ret c.results.reverse s'
  | ifThen {body : List Instr} {s : List ValType} : Instr.AllTyped c body [] [] →
      Instr.Typed c (.ifThen body) (.i32 :: s) s
  | call {index : Nat} {f : Function} {s : List ValType} : c.functions[index]? = some f →
      Instr.Typed c (.call index) (f.params.reverse ++ s) (f.results.reverse ++ s)
  | localGet {index : Nat} {t : ValType} {s : List ValType} : c.locals[index]? = some t →
      Instr.Typed c (.localGet index) s (t :: s)
  | localSet {index : Nat} {t : ValType} {s : List ValType} : c.locals[index]? = some t →
      Instr.Typed c (.localSet index) (t :: s) s
  | localTee {index : Nat} {t : ValType} {s : List ValType} : c.locals[index]? = some t →
      Instr.Typed c (.localTee index) (t :: s) (t :: s)
  | globalGet {index : Nat} {s : List ValType} : index < c.globals.length →
      Instr.Typed c (.globalGet index) s (.i32 :: s)
  | globalSet {index : Nat} {s : List ValType} : index < c.globals.length →
      Instr.Typed c (.globalSet index) (.i32 :: s) s
  | load {access : Load} {offset : UInt32} {s : List ValType} :
      Instr.Typed c (.load access offset) (.i32 :: s) (access.result :: s)
  | store {access : Store} {offset : UInt32} {s : List ValType} :
      Instr.Typed c (.store access offset) (access.operand :: .i32 :: s) s
  | memorySize {s : List ValType} : Instr.Typed c .memorySize s (.i32 :: s)
  | memoryGrow {s : List ValType} : Instr.Typed c .memoryGrow (.i32 :: s) (.i32 :: s)
  | memoryCopy {s : List ValType} : Instr.Typed c .memoryCopy (.i32 :: .i32 :: .i32 :: s) s
  | i32Const {value : UInt32} {s : List ValType} : Instr.Typed c (.i32Const value) s (.i32 :: s)
  | i64Const {value : UInt64} {s : List ValType} : Instr.Typed c (.i64Const value) s (.i64 :: s)
  | i32Eq {s : List ValType} : Instr.Typed c .i32Eq (.i32 :: .i32 :: s) (.i32 :: s)
  | i32GtU {s : List ValType} : Instr.Typed c .i32GtU (.i32 :: .i32 :: s) (.i32 :: s)
  | i32Add {s : List ValType} : Instr.Typed c .i32Add (.i32 :: .i32 :: s) (.i32 :: s)
  | i32Sub {s : List ValType} : Instr.Typed c .i32Sub (.i32 :: .i32 :: s) (.i32 :: s)
  | i32And {s : List ValType} : Instr.Typed c .i32And (.i32 :: .i32 :: s) (.i32 :: s)
  | i32Shl {s : List ValType} : Instr.Typed c .i32Shl (.i32 :: .i32 :: s) (.i32 :: s)
  | i32ShrU {s : List ValType} : Instr.Typed c .i32ShrU (.i32 :: .i32 :: s) (.i32 :: s)
  | i32Extend8S {s : List ValType} : Instr.Typed c .i32Extend8S (.i32 :: s) (.i32 :: s)
  | i32Extend16S {s : List ValType} : Instr.Typed c .i32Extend16S (.i32 :: s) (.i32 :: s)
  | i64Add {s : List ValType} : Instr.Typed c .i64Add (.i64 :: .i64 :: s) (.i64 :: s)
  | i64Sub {s : List ValType} : Instr.Typed c .i64Sub (.i64 :: .i64 :: s) (.i64 :: s)

inductive Instr.AllTyped (c : Context) : List Instr → List ValType → List ValType → Prop where
  | nil {s : List ValType} : Instr.AllTyped c [] s s
  | cons {instr : Instr} {rest : List Instr} {s s' s'' : List ValType} : Instr.Typed c instr s s' →
      Instr.AllTyped c rest s' s'' → Instr.AllTyped c (instr :: rest) s s''

end

namespace Instr.AllTyped

variable {c : Context} {instr : Instr} {code code' : List Instr} {s s' s'' : List ValType}

theorem append (h : AllTyped c code s s') (h' : AllTyped c code' s' s'') :
    AllTyped c (code ++ code') s s'' := by
  induction code generalizing s with
  | nil =>
    cases h
    exact h'
  | cons instr rest ih =>
    cases h with
    | cons hinstr hrest => exact .cons hinstr (ih hrest)

theorem one (h : Typed c instr s s') : AllTyped c [instr] s s' := .cons h .nil

end Instr.AllTyped

/-- The body turns an empty stack into the results. -/
def Function.Valid (f : Function) (m : Module) : Prop :=
  Instr.AllTyped ⟨m.functions, m.globals, f.params ++ f.locals, f.results⟩ f.body []
    f.results.reverse

/-- What an engine checks before a module is run, and that its data can be written. -/
structure Module.Valid (m : Module) : Prop where
  functions : ∀ f ∈ m.functions, f.Valid m
  names : (m.exports.map Export.name).Nodup
  exported : ∀ e ∈ m.exports, ∀ index, e.kind = .function index → index < m.functions.length
  pages : m.pages ≤ maxPages
  data : ∀ s ∈ m.data, s.offset.toNat + s.bytes.length ≤ m.pages * pageBytes

end Straightline.Wasm
