import Straightline.IR.Module
import Straightline.Lowering.Fault

/-!
# Layout of structures

Where the fields of a structure lie: each at the next multiple of its alignment, in order, and the
whole rounded up to the largest alignment among them. All quantities are 32-bit words, as addresses
are, and a sum or a product that is none is an overflow, which stops the program.

A structure may contain those declared before it. When a name is declared again, what comes later
sees the new layout, which is why the newest one is looked at first.
-/

set_option autoImplicit false

namespace Straightline.Lowering

def addWords (a b : UInt32) : Except Fault UInt32 :=
  if a.toNat + b.toNat < UInt32.size then .ok (a + b) else .error (.overflow .add)

def mulWords (a b : UInt32) : Except Fault UInt32 :=
  if a.toNat * b.toNat < UInt32.size then .ok (a * b) else .error (.overflow .mul)

/-- The least multiple of `align` not below `value`. -/
def alignTo (value align : UInt32) : Except Fault UInt32 :=
  mulWords (if value % align = 0 then value / align else value / align + 1) align

/-- How many bytes something takes and what its address is a multiple of. -/
structure Extent where
  size : UInt32
  align : UInt32
deriving DecidableEq, Repr

/-- The extent of a structure and the offsets of its fields. -/
structure StructLayout where
  extent : Extent
  offsets : List UInt32
deriving DecidableEq, Repr

/-- The layouts of the structures declared so far, newest first. -/
abbrev Layouts := List (String × StructLayout)

namespace Layouts

def get (layouts : Layouts) (name : String) : Except Fault StructLayout :=
  match layouts.find? fun entry => entry.1 == name with
  | some (_, layout) => .ok layout
  | none => .error (.undeclaredStruct name)

/-- The extent of a value of type `ty`. -/
def extent (layouts : Layouts) : IRType → Except Fault Extent
  | .int bits =>
    if bits ≤ 8 then .ok ⟨1, 1⟩
    else if bits = 16 then .ok ⟨2, 2⟩
    else if bits = 32 then .ok ⟨4, 4⟩
    else if bits = 64 then .ok ⟨8, 8⟩
    else .error (.valuesOf (.int bits))
  | .ptr _ => .ok ⟨4, 4⟩
  | .struct name => do return (← layouts.get name).extent
  | .void => .error (.valuesOf .void)

/-- Places fields from `offset` on. Gives the offset after the last one, the largest alignment met,
`align` among them, and the offsets of the fields. -/
def placeFields (layouts : Layouts) :
    (offset align : UInt32) → List IRType → Except Fault (Extent × List UInt32)
  | offset, align, [] => .ok (⟨offset, align⟩, [])
  | offset, align, ty :: rest => do
    let field ← layouts.extent ty
    let start ← alignTo offset field.align
    let next ← addWords start field.size
    let (whole, offsets) ← layouts.placeFields next (max align field.align) rest
    return (whole, start :: offsets)

/-- The layout of a structure with these fields. -/
def ofFields (layouts : Layouts) (fields : List IRType) : Except Fault StructLayout := do
  let (used, offsets) ← layouts.placeFields 0 1 fields
  return ⟨⟨← alignTo used.size used.align, used.align⟩, offsets⟩

/-- The layouts of structures in the order of their declaration. -/
def ofStructs (structs : List IR.StructDef) : Except Fault Layouts :=
  structs.foldlM (fun layouts d => do return (d.name, ← layouts.ofFields d.fields) :: layouts) []

/-- The offset of field `index` behind a pointer of type `ptr`. -/
def fieldOffset (layouts : Layouts) (ptr : IRType) (index : Nat) : Except Fault UInt32 :=
  match ptr.pointee? with
  | some (.struct name) => do
    let layout ← layouts.get name
    match layout.offsets[index]? with
    | some offset => return offset
    | none => throw (.noField index name)
  | _ => .error (.fieldThrough ptr)

end Layouts

end Straightline.Lowering
