import Straightline.Lowering.Function

/-!
# From modules to WebAssembly

Memory holds the static data, above it the shadow stack, and from there on the heap. Both pointers
start where the stack ends. Every function is exported under its name, and memory beside them, so
that one name is taken.
-/

set_option autoImplicit false

namespace Straightline.Lowering

/-- Where the shadow stack ends, which is where it starts to be used: `pages` pages above the data.
All of it must have 32-bit addresses. -/
def stackTop (data : DataImage) (pages : Nat) : Except Fault UInt32 := do
  let base ← alignTo data.finish frameAlign
  let top := pages * pageSize.toNat + base.toNat
  if top < UInt32.size then .ok top.toUInt32 else .error .stackTooLarge

/-- How many pages hold everything below `top`; never none. -/
def initialPages (top : UInt32) : Nat := max 1 ((top.toNat + (pageSize.toNat - 1)) / pageSize.toNat)

/-- The exports of functions in order, and memory. -/
def exportsOf (m : IR.Module) : Except Fault (List Wasm.Export) :=
  if m.functions.any fun f => f.name == memoryExport then .error .reservedName
  else
    .ok ((m.functions.mapIdx fun index f => ⟨f.name, .function index⟩)
      ++ [⟨memoryExport, .memory⟩])

/-- Lowers a module, with a shadow stack of `stackPages` pages. -/
def lowerModule (m : IR.Module) (stackPages : Nat) : Except Fault Wasm.Module := do
  let layouts ← Layouts.ofStructs m.structs
  let data ← DataImage.ofModule layouts m
  let top ← stackTop data stackPages
  let exports ← exportsOf m
  let functions ← m.functions.mapM (lowerFunction layouts data)
  return {
    functions
    pages := initialPages top
    globals := [top, top]
    exports
    data := data.segments }

end Straightline.Lowering
