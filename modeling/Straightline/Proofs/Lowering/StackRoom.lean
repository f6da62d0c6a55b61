import Straightline.Proofs.Lowering.Modules
import Straightline.Proofs.Lowering.Fragments
import Straightline.Proofs.Safety.Contents

/-!
# Room on the shadow stack

The shadow stack lies between the static data and the heap. How large it is is chosen when a module is
lowered; how large a frame is follows from what a function keeps there. Lowering does not compare the two.
So the frame of the function that is entered first lies above the data exactly if it is no larger than the
stack (`frame_above_data_iff`). A program whose frames are larger is lowered all the same, and its slots lie
in its data (`frame_above_data_fails_keeping`).
-/

set_option autoImplicit false

namespace Straightline

namespace Lowering

open Wasm (Engine Invoke Runs Val)

variable {m : IR.Module} {layouts : Layouts} {data : DataImage} {f : IR.Function} {frame : Frame}
variable {wasm : Wasm.Module} {pages : Nat} {top : UInt32}

/-! ## Multiples of the alignment -/

theorem toNat_aligned {value aligned : UInt32} (h : alignTo value frameAlign = .ok aligned) :
    aligned.toNat = roundUp value.toNat frameAlign.toNat :=
  ((alignTo_checked (by decide)).of_ok h).2

theorem frameAlign_dvd {value aligned : UInt32} (h : alignTo value frameAlign = .ok aligned) :
    frameAlign.toNat ∣ aligned.toNat := toNat_aligned h ▸ Nat.dvd_mul_left _ _

/-- Of a size that is a multiple, there is room above the data if there is room on the stack. -/
theorem above_data_iff {size : UInt32} (hsize : frameAlign.toNat ∣ size.toNat)
    (htop : stackTop data pages = .ok top) :
    data.finish.toNat + size.toNat ≤ top.toNat ↔ size.toNat ≤ pages * pageSize.toNat := by
  obtain ⟨k, hk⟩ := hsize
  obtain ⟨base, hbase, htop⟩ := of_stackTop htop
  -- Both are multiples, so what lies between the data and the first multiple above it holds no frame.
  rw [htop, toNat_aligned hbase]
  unfold roundUp
  rw [show frameAlign.toNat = 16 from rfl, show pageSize.toNat = 65536 from rfl] at *
  omega

/-! ## Frames -/

/-- A frame has a size that is a multiple, and a local for its address. -/
structure Frame.Sound (frame : Frame) (f : IR.Function) : Prop where
  size : frameAlign.toNat ∣ frame.size.toNat
  base : frame.base = f.params.length
  locals : frame.size ≠ 0 → 0 < frame.locals.length

theorem Frame.sound_of_ofFunction (h : Frame.ofFunction layouts f = .ok frame) : frame.Sound f := by
  obtain ⟨slots, _, h⟩ := Except.bind_ok h
  obtain ⟨size, haligned, h⟩ := Except.bind_ok h
  cases h
  refine ⟨frameAlign_dvd haligned, rfl, fun hsize => ?_⟩
  dsimp only at hsize ⊢
  rw [if_neg hsize]
  exact Nat.succ_pos _

/-- The function has this frame, and takes it from below `top` if it is entered first. -/
structure TakesFrame (wasm : Wasm.Module) (layouts : Layouts) (id : Nat) (f : IR.Function)
    (top : UInt32) (frame : Frame) : Prop where
  made : Frame.ofFunction layouts f = .ok frame
  taken : ∃ code prologue rest, wasm.functions[id]? = some code ∧ code.body = prologue ++ rest ∧
    ∀ (engine : Engine) (invoke : Invoke) (words : List Val), words.map Val.type = code.params →
      ∃ locals, Runs engine invoke prologue
        ⟨wasm.instantiate, words ++ code.locals.map Val.zero, []⟩
        ⟨withStack wasm.instantiate (top - frame.size), locals, []⟩

theorem takesFrame_of_lowerFunction {id : Nat} {code : Wasm.Function}
    (hglobals : wasm.globals = [top, top]) (hcode : wasm.functions[id]? = some code)
    (h : lowerFunction layouts data f = .ok code) :
    ∃ frame, TakesFrame wasm layouts id f top frame := by
  obtain ⟨frame, codes, ⟨hmade, _⟩, rfl⟩ := of_lowerFunction h
  have hsound := Frame.sound_of_ofFunction hmade
  refine ⟨frame, hmade, _, _, _, hcode, rfl, fun engine invoke words htypes => ?_⟩
  -- The local for the frame's address stands behind the parameters.
  have hwords : words.length = f.params.length := by
    simpa using congrArg List.length htypes
  have hbase : frame.size ≠ 0 → frame.base < (words ++ frame.locals.map Val.zero).length := by
    intro hsize
    have hpos := hsound.locals hsize
    rw [hsound.base, List.length_append, List.length_map]
    omega
  exact ⟨FunctionContext.entered ⟨layouts, data, frame⟩ (words ++ frame.locals.map Val.zero) _,
    FunctionContext.runs_prologue (stackPointer_eq hglobals) hbase⟩

/-! ## Slots -/

/-- Nothing that the function keeps in a frame at `base` lies outside of the frame or in the data. -/
def SlotsApart (m : IR.Module) (wasm : Wasm.Module) (f : IR.Function) (frame : Frame)
    (base top : UInt32) : Prop :=
  ∀ inst ∈ f.insts, ∀ ty, storedType? inst = some ty →
    ∃ offset, frame.slot? inst.id = some offset ∧
      (base + offset).toNat + m.sizeOf ty ≤ top.toNat ∧
      ∀ s ∈ wasm.data, s.offset.toNat + s.bytes.length ≤ (base + offset).toNat

theorem slotsApart {kinds : IR.Kinds} (hlowered : LoweredModule m layouts data wasm)
    (htyped : m.Typed kinds) (hf : f ∈ m.functions) (his : frame.Is m f)
    (hroom : m.dataStop + frame.size.toNat ≤ top.toNat) :
    SlotsApart m wasm f frame (top - frame.size) top := by
  intro inst hinst ty hstored
  obtain ⟨_, offset, hoffset, _⟩ := his.slot (htyped.functions f hf) hinst hstored
  have hbound := his.slot_bound (htyped.functions f hf) hinst hstored hoffset
  have hle : frame.size ≤ top := UInt32.le_iff_toNat_le.mpr (by omega)
  have hlt := top.toNat_lt
  have hbase : (top - frame.size + offset).toNat = top.toNat - frame.size.toNat + offset.toNat := by
    rw [UInt32.toNat_add, UInt32.toNat_sub_of_le _ _ hle]
    exact Nat.mod_eq_of_lt (by omega)
  refine ⟨offset, hoffset, by omega, fun s hs => ?_⟩
  have := hlowered.segment_bound s hs
  omega

end Lowering

open Lowering

/-- Where the frame of a function lies that is entered first. The module is built from source and lowered
with any number of pages for the stack. Then the frame ends where the stack does, and it begins at or above
the end of the data exactly if it is no larger than the stack. If so, none of the slots has a byte in common
with the data. -/
theorem frame_above_data_iff {units : List SourceUnit} {options : CompileOptions} {m : IR.Module}
    {stackPages : Nat} {wasm : Wasm.Module} (hbuild : (buildModule units options).result = .ok m)
    (hlower : lowerModule m stackPages = .ok wasm) :
    ∃ layouts data top, Layouts.ofStructs m.structs = .ok layouts ∧
      DataImage.ofModule layouts m = .ok data ∧ stackTop data stackPages = .ok top ∧
      wasm.globals = [top, top] ∧ wasm.data = data.segments ∧
      ∀ {id : IR.FunctionId} {f : IR.Function}, m.function? id = some f →
        ∃ frame, TakesFrame wasm layouts id f top frame ∧
          data.finish.toNat = m.dataStop ∧ frame.size.toNat = m.frameSize f ∧
          (data.finish.toNat + frame.size.toNat ≤ top.toNat ↔
            frame.size.toNat ≤ stackPages * pageSize.toNat) ∧
          (m.frameSize f ≤ stackPages * pageSize.toNat →
            SlotsApart m wasm f frame (top - frame.size) top) := by
  obtain ⟨kinds, htyped⟩ := typed_of_buildModule hbuild
  obtain ⟨layouts, data, top, exports, functions, hlayouts, hdata, htop, _, hfunctions, rfl⟩ :=
    of_lowerModule hlower
  refine ⟨layouts, data, top, hlayouts, hdata, htop, rfl, rfl, fun {id f} hf => ?_⟩
  obtain ⟨code, hcode, hcoded⟩ := forall₂_getElem? hfunctions hf
  obtain ⟨frame, htakes⟩ : ∃ frame, TakesFrame
      ⟨functions, initialPages top, [top, top], exports, data.segments⟩ layouts id f top frame :=
    takesFrame_of_lowerFunction rfl hcode hcoded
  have habove := above_data_iff (Frame.sound_of_ofFunction htakes.made).size htop
  obtain ⟨hknow, hholds⟩ := placed_of_ok htyped hlayouts hdata
  have hmem := List.mem_of_getElem? hf
  have his : frame.Is m f := ((ofFunction_checked htyped hknow hmem).of_ok htakes.made).2
  have hfinish : data.finish.toNat = m.dataStop := hholds.finish
  refine ⟨frame, htakes, hfinish, his.size, habove, fun hroom => ?_⟩
  refine slotsApart ⟨hknow, hholds, hfunctions, rfl⟩ htyped hmem his ?_
  rw [← hfinish]
  exact habove.mpr (his.size ▸ hroom)

/-- With sixteen pages there is room for the frame of either function. -/
theorem frame_above_data_iff_pairing :
    ∃ m wasm, (buildModule [pairing] {}).result = .ok m ∧ lowerModule m 16 = .ok wasm ∧
      ∃ data top, wasm.data = DataImage.segments data ∧ wasm.globals = [top, top] ∧
        ∀ {id f}, m.function? id = some f → ∃ layouts frame, TakesFrame wasm layouts id f top frame ∧
          data.finish.toNat + frame.size.toNat ≤ top.toNat ∧
          SlotsApart m wasm f frame (top - frame.size) top := by
  have hcheck : ∃ m, (buildModule [pairing] {}).result = .ok m ∧
      (∀ f ∈ m.functions, m.frameSize f ≤ 16 * pageSize.toNat) ∧
      ∃ wasm, lowerModule m 16 = .ok wasm := by decide +kernel
  obtain ⟨m, hbuild, hframes, wasm, hlower⟩ := hcheck
  obtain ⟨layouts, data, top, _, _, _, hglobals, hsegments, hframe⟩ :=
    frame_above_data_iff hbuild hlower
  refine ⟨m, wasm, hbuild, hlower, data, top, hsegments, hglobals, fun {id f} hf => ?_⟩
  obtain ⟨frame, htakes, _, hsize, habove, happart⟩ := hframe hf
  have hroom : m.frameSize f ≤ 16 * pageSize.toNat := hframes f (List.mem_of_getElem? hf)
  exact ⟨layouts, frame, htakes, habove.mpr (hsize ▸ hroom), happart hroom⟩

/-- A global, and a function that keeps two numbers in its frame before it returns the global. -/
def keeping : SourceUnit where
  name := "keeping"
  bytes := ("keep: Int64 = 7\nmain: () -> Int64 = \x7b\n  a: Int64 = 1\n  b: Int64 = 2\n" ++
    "  return keep\n\x7d\n").toList.map Char.toUInt8

/-- With no page for the stack that program is lowered as well, although the sixteen bytes of the frame lie
below the end of the data. The global means 7, and the code returns what was stored over it. -/
theorem frame_above_data_fails_keeping :
    ∃ m wasm, (buildModule [keeping] {}).result = .ok m ∧ m.Fits ∧ lowerModule m 0 = .ok wasm ∧
      (∃ layouts data top f frame, Layouts.ofStructs m.structs = .ok layouts ∧
        DataImage.ofModule layouts m = .ok data ∧ wasm.globals = [top, top] ∧
        m.function? 0 = some f ∧ Frame.ofFunction layouts f = .ok frame ∧ frame.size = 16 ∧
        top.toNat < data.finish.toNat + frame.size.toNat) ∧
      (∃ mem, m.callWithin 1 0 [] m.memory = .ok (some (.int 7)) mem) ∧
      ∃ s, wasm.callWithin (fun _ => false) 1 0 [] wasm.instantiate = .ok [.i64 2] s := by
  have hcheck : ∃ m, (buildModule [keeping] {}).result = .ok m ∧ m.Fits ∧
      ∃ wasm, lowerModule m 0 = .ok wasm ∧ wasm.globals = [16, 16] ∧
        (∃ layouts, Layouts.ofStructs m.structs = .ok layouts ∧
          ∃ data, DataImage.ofModule layouts m = .ok data ∧ ∃ f, m.function? 0 = some f ∧
            ∃ frame, Frame.ofFunction layouts f = .ok frame ∧ frame.size = 16 ∧
              (16 : UInt32).toNat < data.finish.toNat + frame.size.toNat) ∧
        (∃ d mem, m.callWithin 1 0 [] m.memory = .ok d mem ∧ d = some (.int 7)) ∧
        ∃ words s, wasm.callWithin (fun _ => false) 1 0 [] wasm.instantiate = .ok words s ∧
          words = [.i64 2] := by decide +kernel
  obtain ⟨m, hbuild, hfits, wasm, hlower, hglobals, hframe, hmeans, hcode⟩ := hcheck
  obtain ⟨layouts, hlayouts, data, hdata, f, hf, frame, hmade, hsize, hover⟩ := hframe
  obtain ⟨_, mem, hmeans, rfl⟩ := hmeans
  obtain ⟨_, s, hcode, rfl⟩ := hcode
  exact ⟨m, wasm, hbuild, hfits, hlower,
    ⟨layouts, data, 16, f, frame, hlayouts, hdata, hglobals, hf, hmade, hsize, hover⟩,
    ⟨mem, hmeans⟩, ⟨s, hcode⟩⟩

end Straightline
