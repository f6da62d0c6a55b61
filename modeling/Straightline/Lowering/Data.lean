import Straightline.Lowering.Layout
import Straightline.Wasm.Module

/-!
# Static data

What memory holds before anything runs: first every global, then every distinct structure constant
that an instruction uses. Integer constants need no place. The first eight bytes stay free, so no
address is zero.
-/

set_option autoImplicit false

namespace Straightline.Lowering

/-- Addresses below this one are never used. -/
def nullGuard : UInt32 := 8

/-- The `size` lowest bytes of a number in two's complement, lowest first. -/
def littleEndian (value : Int) : (size : Nat) → List UInt8
  | 0 => []
  | size + 1 => (value % 256).toNat.toUInt8 :: littleEndian (value / 256) size

/-- Puts `bytes` over those of `image` from `offset` on. -/
def overwrite (image : List UInt8) (offset : Nat) (bytes : List UInt8) : List UInt8 :=
  image.take offset ++ bytes ++ image.drop (offset + bytes.length)

mutual

/-- Writes a constant of type `ty` into `image` from `offset` on. Padding is left as it is. -/
def encodeConstant (layouts : Layouts) (m : IR.Module) (ty : IRType) (offset : Nat)
    (image : List UInt8) : IR.Constant → Except Fault (List UInt8)
  | .int value =>
    match ty with
    | .int _ => do
      let e ← layouts.extent ty
      return overwrite image offset (littleEndian value e.size.toNat)
    | _ => .error (.constantOf ty)
  | .struct values =>
    match ty with
    | .struct name => do
      let layout ← layouts.get name
      match m.structDef? name with
      | none => throw (.undeclaredStruct name)
      | some d => encodeFields layouts m offset d.fields layout.offsets image values
    | _ => .error (.constantOf ty)

/-- Writes the fields of a structure that begins at `base`, as far as types, offsets and values
go. -/
def encodeFields (layouts : Layouts) (m : IR.Module) (base : Nat) :
    List IRType → List UInt32 → List UInt8 → List IR.Constant → Except Fault (List UInt8)
  | ty :: tys, offset :: offsets, image, value :: values => do
    let image ← encodeConstant layouts m ty (base + offset.toNat) image value
    encodeFields layouts m base tys offsets image values
  | _, _, image, _ => .ok image

end

/-- A structure constant and its address. -/
structure PlacedConstant where
  ty : IRType
  constant : IR.Constant
  address : UInt32
deriving DecidableEq, Repr

/-- The data placed so far and the first address after it. -/
structure DataImage where
  globals : List UInt32 := []
  constants : List PlacedConstant := []
  segments : List Wasm.Segment := []
  finish : UInt32 := nullGuard
deriving DecidableEq, Repr

namespace DataImage

/-- Places a constant after what is there, and gives its address. -/
def place (layouts : Layouts) (m : IR.Module) (image : DataImage) (ty : IRType)
    (constant : IR.Constant) : Except Fault (UInt32 × DataImage) := do
  let e ← layouts.extent ty
  let address ← alignTo image.finish e.align
  let bytes ← encodeConstant layouts m ty 0 (List.replicate e.size.toNat 0) constant
  let finish ← addWords address e.size
  return (address, { image with segments := image.segments ++ [⟨address, bytes⟩], finish })

/-- The address of a constant that has been placed. -/
def addressOf? (image : DataImage) (ty : IRType) (constant : IR.Constant) : Option UInt32 :=
  (image.constants.find? fun p => p.ty == ty && p.constant == constant).map PlacedConstant.address

def placeGlobal (layouts : Layouts) (m : IR.Module) (image : DataImage) (g : IR.Global) :
    Except Fault DataImage := do
  let (address, image) ← image.place layouts m g.ty g.init
  return { image with globals := image.globals ++ [address] }

/-- Places what an operand needs, unless it is there. -/
def placeOperand (layouts : Layouts) (m : IR.Module) (image : DataImage) (v : IR.Value) :
    Except Fault DataImage :=
  match v.source with
  | .const constant =>
    if constant.isStruct && (image.addressOf? v.ty constant).isNone then do
      let (address, image) ← image.place layouts m v.ty constant
      return { image with constants := image.constants ++ [⟨v.ty, constant, address⟩] }
    else .ok image
  | _ => .ok image

/-- The operands of all instructions of a module, in order. -/
def operands (m : IR.Module) : List IR.Value :=
  m.functions.flatMap fun f => f.insts.flatMap fun inst => inst.op.operands

/-- The static data of a module. -/
def ofModule (layouts : Layouts) (m : IR.Module) : Except Fault DataImage := do
  let image ← m.globals.foldlM (placeGlobal layouts m) {}
  (operands m).foldlM (placeOperand layouts m) image

end DataImage

end Straightline.Lowering
