import Straightline.Proofs.Lowering.Inversion
import Straightline.Proofs.Lowering.Total

/-!
# What a lowered module is

A module that was lowered is laid out as it is in the natural numbers (`LoweredModule`), since lowering is
stopped where that cannot be, and starts with both pointers where the shadow stack ends
(`LoweredModule.Starts`).
-/

set_option autoImplicit false

namespace Straightline.Lowering

open IR (Kinds)

variable {m : IR.Module} {kinds : Kinds} {layouts : Layouts} {data : DataImage}
variable {wasm : Wasm.Module}

/-- The functions of a module are lowered one by one, and its data is what was placed. -/
structure LoweredModule (m : IR.Module) (layouts : Layouts) (data : DataImage)
    (wasm : Wasm.Module) : Prop where
  known : layouts.Know m m.structs
  placed : data.Holds m (m.globals.map fun g => (g.ty, g.init)) m.pool
  lowered : List.Forall₂ (fun f code => lowerFunction layouts data f = .ok code) m.functions
    wasm.functions
  written : wasm.data = data.segments

/-- A lowered module starts with both pointers where the stack ends, and with pages for all below. -/
structure LoweredModule.Starts (m : IR.Module) (pages : Nat) (wasm : Wasm.Module) : Prop where
  room : m.dataEnd + pages * pageSize.toNat < UInt32.size
  globals : ∃ top : UInt32, top.toNat = m.dataEnd + pages * pageSize.toNat ∧
    wasm.globals = [top, top] ∧ wasm.pages = initialPages top
  exports : exportsOf m = .ok wasm.exports

/-- What was laid out is what it is in the natural numbers. -/
theorem placed_of_ok (htyped : m.Typed kinds) (hlayouts : Layouts.ofStructs m.structs = .ok layouts)
    (hdata : DataImage.ofModule layouts m = .ok data) :
    layouts.Know m m.structs ∧ data.Holds m (m.globals.map fun g => (g.ty, g.init)) m.pool := by
  have hknow : layouts.Know m m.structs := (htyped.ofStructs_checked.of_ok hlayouts).2
  exact ⟨hknow, ((htyped.ofModule_checked hknow).of_ok hdata).2⟩

/-- The stack ends so many pages behind the end of the static data. -/
theorem toNat_stackTop {pages : Nat} {top : UInt32} (hfinish : data.finish.toNat = m.dataStop)
    (h : stackTop data pages = .ok top) : top.toNat = m.dataEnd + pages * pageSize.toNat := by
  obtain ⟨base, hbase, htop⟩ := of_stackTop h
  have htoNat : base.toNat = m.dataEnd := ((stackBase_checked hfinish).of_ok hbase).2
  rw [htop, htoNat, Nat.add_comm]

theorem LoweredModule.of_lowerModule (htyped : m.Typed kinds) {pages : Nat}
    (h : lowerModule m pages = .ok wasm) :
    ∃ layouts data, LoweredModule m layouts data wasm ∧ LoweredModule.Starts m pages wasm := by
  obtain ⟨layouts, data, top, exports, functions, hlayouts, hdata, htop, hexports, hfunctions,
    rfl⟩ := Lowering.of_lowerModule h
  obtain ⟨hknow, hholds⟩ := placed_of_ok htyped hlayouts hdata
  have hend := toNat_stackTop hholds.finish htop
  exact ⟨layouts, data, ⟨hknow, hholds, hfunctions, rfl⟩, hend ▸ top.toNat_lt,
    ⟨top, hend, rfl, rfl⟩, hexports⟩

namespace LoweredModule

/-- What a function was lowered from, and how. -/
theorem function (h : LoweredModule m layouts data wasm) (htyped : m.Typed kinds) {id : Nat}
     {f : IR.Function} (hf : m.function? id = some f) :
    ∃ frame codes, wasm.functions[id]? = some ⟨f.params.map valType, resultTypes f.ret,
        frame.locals, FunctionContext.prologue ⟨layouts, data, frame⟩ ++ codes.flatten⟩ ∧
      FunctionContext.Suits ⟨layouts, data, frame⟩ m kinds f ∧
      List.Forall₂ (Lowered ⟨layouts, data, frame⟩) f.insts codes := by
  obtain ⟨code, hcode, hlower⟩ := forall₂_getElem? h.lowered hf
  obtain ⟨frame, codes, ⟨hmade, hinsts⟩, rfl⟩ := of_lowerFunction hlower
  have hmem := List.mem_of_getElem? hf
  have his : frame.Is m f := ((ofFunction_checked htyped h.known hmem).of_ok hmade).2
  exact ⟨frame, codes, hcode, ⟨htyped, hmem, h.known, h.placed, his⟩, hinsts⟩

/-- What is placed lies below the end of the data. -/
theorem segment_bound (h : LoweredModule m layouts data wasm) :
    ∀ s ∈ wasm.data, s.offset.toNat + s.bytes.length ≤ m.dataStop := by
  intro s hs
  rw [h.written] at hs
  have hforall := h.placed.segments
  obtain ⟨i, hi⟩ := List.getElem?_of_mem hs
  have hlt := (List.getElem?_eq_some_iff.mp hi).1
  rw [← hforall.length_eq] at hlt
  obtain ⟨s', hs', hsegment⟩ := forall₂_getElem? hforall (List.getElem?_eq_getElem hlt)
  cases hi.symm.trans hs'
  obtain ⟨hitem, hstart⟩ := List.getElem?_zip_eq_some.mp (List.getElem?_eq_getElem hlt)
  have hspace := congrArg (Option.map m.constantSpace) hitem
  rw [← List.getElem?_map] at hspace
  obtain ⟨_, hstop⟩ := Space.offsets_bounds (m.aligned_constants _) hspace hstart
  rw [hsegment.offset, hsegment.length]
  exact hstop

end LoweredModule

theorem initialPages_bounds (top : UInt32) :
    initialPages top ≤ Wasm.maxPages ∧ top.toNat ≤ initialPages top * Wasm.pageBytes := by
  have htop := top.toNat_lt
  unfold initialPages Wasm.maxPages Wasm.pageBytes
  rw [show pageSize.toNat = 65536 from rfl]
  omega

end Straightline.Lowering
