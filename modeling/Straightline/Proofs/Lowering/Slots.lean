import Straightline.Proofs.Lowering.CRules
import Straightline.Proofs.Lowering.StackRoom

/-!
# Slots and locals of a function

A function keeps its values in slots of its frame and in locals. Slots are given out along the
instructions, each at the next multiple of what it has to be aligned to, and one counter goes through all
of them; locals are counted in a second pass. If the frame is smaller than `2 ^ 32` without a bound, it is
made, and no two slots have a byte in common (`Frame.Is.slotsSound`). Otherwise the counter overflows, and
lowering is stopped.
-/

set_option autoImplicit false

namespace Straightline

/-! ## Alignment -/

namespace Space

variable {spaces : List Space} {s : Space} {offset index start : Nat}

/-- What is placed is aligned. -/
theorem align_dvd_of_offsets (hs : spaces[index]? = some s)
    (hstart : (offsets offset spaces)[index]? = some start) : s.align ∣ start :=
  eq_start_of_offsets hs hstart ▸ dvd_roundUp _ _

end Space

namespace Lowering

open IR (Inst Kinds)
open IR.Module (slotted)

variable {layouts : Layouts} {m : IR.Module} {kinds : Kinds} {f : IR.Function} {frame : Frame}

/-- The size of a frame is a multiple of every alignment. -/
theorem align_dvd_frameAlign (htyped : m.Typed kinds) {ty : IRType} (hty : Sized m.structs ty) :
    (m.space ty).align ∣ frameAlign.toNat := by
  have hmem : (m.space ty).align ∈ alignments :=
    Space.ofType_align_mem (Space.ofStructs_align_mem fun _ hd _ hfield => htyped.placeable hd hfield)
      hty.placeable
  have hdvd : ∀ a ∈ alignments, a ∣ frameAlign.toNat := by decide
  exact hdvd _ hmem

/-! ## Soundness -/

/-- Every instruction that keeps something in the frame has a slot for it in there, which is aligned to its
type, and the slots of two instructions have no byte in common. -/
structure Frame.SlotsSound (frame : Frame) (m : IR.Module) (f : IR.Function) : Prop where
  inside : ∀ {k : Nat} {inst : Inst} {ty : IRType}, f.insts[k]? = some inst →
    storedType? inst = some ty → ∃ offset, frame.slot? inst.id = some offset ∧
      offset.toNat + m.sizeOf ty ≤ frame.size.toNat ∧ (m.space ty).align ∣ offset.toNat
  apart : ∀ {k k' : Nat} {inst inst' : Inst} {ty ty' : IRType} {offset offset' : UInt32}, k ≠ k' →
    f.insts[k]? = some inst → storedType? inst = some ty → frame.slot? inst.id = some offset →
    f.insts[k']? = some inst' → storedType? inst' = some ty' → frame.slot? inst'.id = some offset' →
    offset.toNat + m.sizeOf ty ≤ offset'.toNat ∨ offset'.toNat + m.sizeOf ty' ≤ offset.toNat

/-- Every instruction that has a result has a local for it, which is not that of a parameter, and the
results of two instructions are not in the same local. -/
structure Frame.ResultsSound (frame : Frame) (f : IR.Function) : Prop where
  behind : ∀ {k : Nat} {inst : Inst}, f.insts[k]? = some inst → inst.ty ≠ .void →
    ∃ place, frame.result? inst.id = some place ∧ f.params.length ≤ place
  apart : ∀ {k k' : Nat} {inst inst' : Inst} {place place' : Nat}, k ≠ k' →
    f.insts[k]? = some inst → frame.result? inst.id = some place →
    f.insts[k']? = some inst' → frame.result? inst'.id = some place' → place ≠ place'

theorem Frame.Numbered.resultsSound (h : frame.Numbered f) (hf : f.Typed m kinds) :
    frame.ResultsSound f where
  behind hinst hvoid := by
    obtain ⟨place, hplace, hle, _⟩ := h.result hf (List.mem_of_getElem? hinst) hvoid
    exact ⟨place, hplace, (Nat.le_add_right _ _).trans hle⟩
  apart hne hinst hplace hinst' hplace' := by
    rintro rfl
    have hids := h.results_apart hplace hplace'
    rw [(hf.typed_at hinst).1, (hf.typed_at hinst').1] at hids
    exact hne hids

theorem Frame.Is.slotsSound (h : frame.Is m f) (hf : f.Typed m kinds) : frame.SlotsSound m f where
  inside := by
    intro k inst ty hinst hstored
    have hmem := List.mem_of_getElem? hinst
    obtain ⟨index, offset, hoffset, hslot, hstart⟩ := h.slot hf hmem hstored
    have hspace : ((slotted f.insts).map m.slotSpace)[index]? = some (m.space ty) := by
      rw [List.getElem?_map, hslot]
      rfl
    exact ⟨offset, hoffset, h.slot_bound hf hmem hstored hoffset,
      Space.align_dvd_of_offsets hspace hstart⟩
  apart hne hinst hstored hoffset hinst' hstored' hoffset' := by
    refine h.slots_apart hf (List.mem_of_getElem? hinst) hstored (List.mem_of_getElem? hinst') hstored'
      ?_ hoffset hoffset'
    rw [(hf.typed_at hinst).1, (hf.typed_at hinst').1]
    exact hne

end Lowering

open Lowering

/-- Where a function of a module that is built from source keeps its values, with the layouts of its
structures, which there are if these are smaller than `2 ^ 32`. It has a frame exactly if that is smaller than
`2 ^ 32` when it is laid out without a bound, and otherwise lowering is stopped. The size of the frame is a
multiple of 16, the slots lie apart from each other in it, each aligned to its type, and each result has a
local of its own behind the parameters. -/
theorem frame_slots_sound {units : List SourceUnit} {options : CompileOptions} {m : IR.Module}
    (hbuild : (buildModule units options).result = .ok m) {id : IR.FunctionId} {f : IR.Function}
    (hf : m.function? id = some f) :
    ((∀ d ∈ m.structs, m.sizeOf (.struct d.name) < UInt32.size) →
      ∃ layouts, Layouts.ofStructs m.structs = .ok layouts) ∧
    ∀ layouts, Layouts.ofStructs m.structs = .ok layouts →
      Checked (Frame.ofFunction layouts f) (m.frameSize f < UInt32.size) fun frame =>
        16 ∣ frame.size.toNat ∧ frame.ResultsSound f ∧ frame.SlotsSound m f := by
  obtain ⟨kinds, htyped⟩ := typed_of_buildModule hbuild
  have hmem := List.mem_of_getElem? hf
  have hftyped := htyped.functions f hmem
  have hstructs := htyped.ofStructs_checked
  refine ⟨fun hfits => (hstructs.ok hfits).imp fun _ h => h.1, fun layouts hlayouts => ?_⟩
  have hknow : layouts.Know m m.structs := (hstructs.of_ok hlayouts).2
  refine (ofFunction_checked htyped hknow hmem).imp Iff.rfl fun frame his => ?_
  exact ⟨his.size ▸ dvd_roundUp _ _, his.numbered.resultsSound hftyped, his.slotsSound hftyped⟩

/-- A function that keeps a structure, a byte and two bytes. -/
def mixing : SourceUnit where
  name := "mixing"
  bytes := ("Pair: struct = (a: Int8, b: Int64)\nmix: (p: Pair) -> Int64 = \x7b\n  x: Int8 = 1\n" ++
    "  y: Int16 = 2\n  return p.b\n\x7d\n").toList.map Char.toUInt8

/-- Its slots are sound. The two bytes lie behind the byte with one in between. -/
theorem frame_slots_sound_mixing :
    ∃ m f, (buildModule [mixing] {}).result = .ok m ∧ m.function? 0 = some f ∧
      ∃ layouts frame, Layouts.ofStructs m.structs = .ok layouts ∧
        Frame.ofFunction layouts f = .ok frame ∧ frame.slots.map Prod.snd = [0, 16, 18] ∧
        frame.size = 32 ∧ frame.ResultsSound f ∧ frame.SlotsSound m f := by
  have hcheck : ∃ m, (buildModule [mixing] {}).result = .ok m ∧ ∃ f, m.function? 0 = some f ∧
      ∃ layouts, Layouts.ofStructs m.structs = .ok layouts ∧
        ∃ frame, Frame.ofFunction layouts f = .ok frame ∧ frame.slots.map Prod.snd = [0, 16, 18] ∧
          frame.size = 32 := by decide +kernel
  obtain ⟨m, hbuild, f, hf, layouts, hlayouts, frame, hmade, hslots, hframe⟩ := hcheck
  have hchecked := (frame_slots_sound hbuild hf).2 layouts hlayouts
  obtain ⟨_, _, hresults, hsound⟩ := hchecked.of_ok hmade
  exact ⟨m, f, hbuild, hf, layouts, frame, hlayouts, hmade, hslots, hframe, hresults, hsound⟩

end Straightline
