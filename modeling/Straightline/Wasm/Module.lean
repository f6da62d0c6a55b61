import Straightline.Wasm.Instr

/-!
# WebAssembly modules and their binary form

A module of functions, one memory without a maximum, mutable 32-bit globals, exports and data. In
the binary form all seven sections are present, empty ones too, every function has a type entry of
its own, and every local is declared singly.
-/

set_option autoImplicit false

namespace Straightline.Wasm

structure Function where
  params : List ValType
  results : List ValType
  /-- The locals after the parameters. -/
  locals : List ValType
  body : List Instr
deriving Repr

inductive ExportKind where
  | function (index : Nat)
  | memory
deriving DecidableEq, Repr

structure Export where
  name : String
  kind : ExportKind
deriving DecidableEq, Repr

/-- Bytes that memory holds from the beginning. -/
structure Segment where
  offset : UInt32
  bytes : List UInt8
deriving DecidableEq, Repr

structure Module where
  functions : List Function
  /-- How many pages of memory there are at first. -/
  pages : Nat
  /-- The globals' initial values. -/
  globals : List UInt32
  exports : List Export
  data : List Segment
deriving Repr

/-- Items after their number. -/
def vector (items : List (List UInt8)) : List UInt8 :=
  Leb128.unsigned items.length ++ items.flatten

/-- Bytes after their number. -/
def sized (bytes : List UInt8) : List UInt8 := Leb128.unsigned bytes.length ++ bytes

def nameBytes (name : String) : List UInt8 := sized name.toUTF8.data.toList

/-- An expression that is the constant `value`. -/
def constantExpr (value : UInt32) : List UInt8 := (Instr.i32Const value).encode ++ [Instr.endCode]

namespace Function

def typeBytes (f : Function) : List UInt8 :=
  0x60 :: (vector (f.params.map fun t => [t.code]) ++ vector (f.results.map fun t => [t.code]))

def codeBytes (f : Function) : List UInt8 :=
  sized (vector (f.locals.map fun t => [0x01, t.code]) ++ Instr.encodeList f.body
    ++ [Instr.endCode])

end Function

namespace Export

def bytes (e : Export) : List UInt8 :=
  nameBytes e.name ++
    match e.kind with
    | .function index => 0x00 :: Leb128.unsigned index
    | .memory => [0x02, 0x00]

end Export

namespace Segment

def dataBytes (s : Segment) : List UInt8 := 0x00 :: (constantExpr s.offset ++ sized s.bytes)

end Segment

namespace Module

/-- The magic number and the version. -/
def header : List UInt8 := [0x00, 0x61, 0x73, 0x6D, 0x01, 0x00, 0x00, 0x00]

/-- A section of items. -/
def sectionBytes (id : UInt8) (items : List (List UInt8)) : List UInt8 :=
  id :: sized (vector items)

def encode (m : Module) : List UInt8 :=
  header
    ++ sectionBytes 1 (m.functions.map Function.typeBytes)
    ++ sectionBytes 3 (m.functions.mapIdx fun index _ => Leb128.unsigned index)
    ++ sectionBytes 5 [0x00 :: Leb128.unsigned m.pages]
    ++ sectionBytes 6 (m.globals.map fun init => [0x7F, 0x01] ++ constantExpr init)
    ++ sectionBytes 7 (m.exports.map Export.bytes)
    ++ sectionBytes 10 (m.functions.map Function.codeBytes)
    ++ sectionBytes 11 (m.data.map Segment.dataBytes)

end Module

end Straightline.Wasm
