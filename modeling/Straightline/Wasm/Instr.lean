import Straightline.Wasm.Leb128

/-!
# WebAssembly instructions

The instructions that lowered functions consist of. An `if` holds its body, so code is a tree and
the `end` of a block is a matter of its binary form alone. Constants are words: whether one is read
as signed is up to the instruction that takes it.

The alignment that a load or store announces is the width of the access.
-/

set_option autoImplicit false

namespace Straightline.Wasm

inductive ValType where
  | i32
  | i64
deriving DecidableEq, Repr

namespace ValType

def code : ValType → UInt8
  | i32 => 0x7F
  | i64 => 0x7E

end ValType

/-- The ways to read a value from memory: a whole word, or a part of one extended to 32 bits. -/
inductive Load where
  | unsigned8
  | signed8
  | signed16
  | i32
  | i64
deriving DecidableEq, Repr

namespace Load

def opcode : Load → UInt8
  | unsigned8 => 0x2D
  | signed8 => 0x2C
  | signed16 => 0x2E
  | i32 => 0x28
  | i64 => 0x29

/-- The binary logarithm of the width in bytes. -/
def align : Load → Nat
  | unsigned8 | signed8 => 0
  | signed16 => 1
  | i32 => 2
  | i64 => 3

end Load

/-- The ways to write a value: a whole word, or the low part of 32 bits. -/
inductive Store where
  | low8
  | low16
  | i32
  | i64
deriving DecidableEq, Repr

namespace Store

def opcode : Store → UInt8
  | low8 => 0x3A
  | low16 => 0x3B
  | i32 => 0x36
  | i64 => 0x37

def align : Store → Nat
  | low8 => 0
  | low16 => 1
  | i32 => 2
  | i64 => 3

end Store

inductive Instr where
  | unreachable
  | ret
  | ifThen (body : List Instr)
  | call (function : Nat)
  | localGet (index : Nat)
  | localSet (index : Nat)
  | localTee (index : Nat)
  | globalGet (index : Nat)
  | globalSet (index : Nat)
  | load (access : Load) (offset : UInt32)
  | store (access : Store) (offset : UInt32)
  | memorySize
  | memoryGrow
  | memoryCopy
  | i32Const (value : UInt32)
  | i64Const (value : UInt64)
  | i32Eq
  | i32GtU
  | i32Add
  | i32Sub
  | i32And
  | i32Shl
  | i32ShrU
  | i32Extend8S
  | i32Extend16S
  | i64Add
  | i64Sub
deriving Repr

namespace Instr

/-- What ends a body. -/
def endCode : UInt8 := 0x0B

mutual

def encode : Instr → List UInt8
  | unreachable => [0x00]
  | ret => [0x0F]
  | ifThen body => [0x04, 0x40] ++ encodeList body ++ [endCode]
  | call function => 0x10 :: Leb128.unsigned function
  | localGet index => 0x20 :: Leb128.unsigned index
  | localSet index => 0x21 :: Leb128.unsigned index
  | localTee index => 0x22 :: Leb128.unsigned index
  | globalGet index => 0x23 :: Leb128.unsigned index
  | globalSet index => 0x24 :: Leb128.unsigned index
  | load access offset =>
    access.opcode :: (Leb128.unsigned access.align ++ Leb128.unsigned offset.toNat)
  | store access offset =>
    access.opcode :: (Leb128.unsigned access.align ++ Leb128.unsigned offset.toNat)
  | memorySize => [0x3F, 0x00]
  | memoryGrow => [0x40, 0x00]
  | memoryCopy => [0xFC, 0x0A, 0x00, 0x00]
  | i32Const value => 0x41 :: Leb128.signed value.toInt32.toInt
  | i64Const value => 0x42 :: Leb128.signed value.toInt64.toInt
  | i32Eq => [0x46]
  | i32GtU => [0x4B]
  | i32Add => [0x6A]
  | i32Sub => [0x6B]
  | i32And => [0x71]
  | i32Shl => [0x74]
  | i32ShrU => [0x76]
  | i32Extend8S => [0xC0]
  | i32Extend16S => [0xC1]
  | i64Add => [0x7C]
  | i64Sub => [0x7D]

def encodeList : List Instr → List UInt8
  | [] => []
  | instr :: rest => encode instr ++ encodeList rest

end

end Instr

end Straightline.Wasm
