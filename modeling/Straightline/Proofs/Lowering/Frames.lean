import Straightline.Proofs.Lowering.StaticData

/-!
# What a frame is

Of a well-typed function a frame is made if it fits, and otherwise lowering is stopped
(`ofFunction_checked`). The frame has a slot for each instruction that keeps something there and a local for
each that has a result (`Frame.Is`). As instructions are numbered by their places, what is found under a
number is what was made for it.
-/

set_option autoImplicit false

namespace Straightline

namespace IR

variable {m : Module} {kinds : Kinds} {f : Function} {before insts : List Inst}

/-- Instructions are numbered by their places. -/
theorem Chain.ids (h : Chain m kinds f before insts) :
    insts.map Inst.id = List.range' before.length insts.length := by
  induction h with
  | nil => rfl
  | cons _ _ ih => simp [ih, List.range'_succ]

theorem Function.Typed.nodup_ids (h : f.Typed m kinds) : (f.insts.map Inst.id).Nodup :=
  h.chain.ids ▸ List.nodup_range'

end IR

namespace Lowering

open IR (Held Inst Kinds)
open IR.Module (slotted)

variable {layouts : Layouts} {m : IR.Module} {kinds : Kinds} {f : IR.Function} {frame : Frame}

/-! ## Slots -/

/-- What an instruction keeps in the frame has a size. -/
theorem Sized.of_stored (htyped : m.Typed kinds) {before : List Inst} {inst : Inst} {ty : IRType}
    (hop : IR.Op.Typed m kinds f before inst.ty inst.op) (hstored : storedType? inst = some ty) :
    Sized m.structs ty := by
  obtain ⟨id, instTy, op⟩ := inst
  cases hop with
  | alloca hheld =>
    cases hstored
    exact .of_kept htyped (.held hheld)
  | load hheld =>
    simp only [storedType?, Option.ite_none_right_eq_some, Option.some.injEq] at hstored
    exact hstored.2 ▸ .of_kept htyped (.held hheld)
  | call htarget =>
    simp only [storedType?, Option.ite_none_right_eq_some, Option.some.injEq] at hstored
    rcases (htyped.functions _ (List.mem_of_getElem? htarget)).ret with hvoid | hheld
    · simp [hvoid, IRType.isStruct] at hstored
    · exact hstored.2 ▸ .of_kept htyped (.held hheld)
  | aggregate hd =>
    cases hstored
    obtain ⟨hmem, rfl⟩ := IR.Module.of_structDef? hd
    exact .struct hmem
  | heapAlloc | store | add | sub | fieldAddr | ret | retValue => cases hstored

/-- What is kept is known by the number of its instruction. -/
theorem nodup_slotted (hf : f.Typed m kinds) : ((slotted f.insts).map Prod.fst).Nodup := by
  have hsub : ((slotted f.insts).map Prod.fst).Sublist (f.insts.map Inst.id) := by
    unfold slotted
    generalize f.insts = insts
    induction insts with
    | nil => exact .slnil
    | cons inst rest ih =>
      cases hinst : storedType? inst with
      | none => simpa [hinst] using ih.cons inst.id
      | some ty => simpa [hinst] using ih.cons_cons inst.id
  exact hsub.nodup hf.nodup_ids

/-- The slot of an instruction is where it is without a bound. -/
theorem addSlot_checked {inst : Inst} {ty : IRType} {e : Extent} (hstored : storedType? inst = some ty)
    (hextent : layouts.extent ty = .ok e) (he : e.Is (m.space ty)) (slots : Slots) :
    Checked (Slots.add layouts slots inst) ((m.space ty).stop slots.used.toNat < UInt32.size)
      fun added => added.used.toNat = (m.space ty).stop slots.used.toNat ∧
        ∃ offset : UInt32, added.offsets = slots.offsets ++ [(inst.id, offset)] ∧
          offset.toNat = (m.space ty).start slots.used.toNat := by
  have hadd : Slots.add layouts slots inst = (do
      let offset ← alignTo slots.used e.align
      let used ← addWords offset e.size
      return ⟨slots.offsets ++ [(inst.id, offset)], used⟩) := by
    simp [Slots.add, hstored, hextent, bind, Except.bind]
  rw [hadd]
  exact (Layouts.place_checked he (m.space_align_pos ty) fun offset used hoffset hused =>
    .done ⟨hused, offset, rfl, hoffset⟩).imp (iff_of_eq (and_true _)) fun _ h => h

/-- The slots of instructions are where they are without a bound. -/
theorem addSlots_checked {insts : List Inst}
    (htys : ∀ slot ∈ slotted insts, ∃ e, layouts.extent slot.2 = .ok e ∧ e.Is (m.space slot.2))
    (slots : Slots) :
    Checked (insts.foldlM (Slots.add layouts) slots)
      (Space.stops slots.used.toNat ((slotted insts).map m.slotSpace) < UInt32.size) fun slots' =>
        slots'.used.toNat = Space.stops slots.used.toNat ((slotted insts).map m.slotSpace) ∧
        ∃ more, slots'.offsets = slots.offsets ++ more ∧
          more.map Prod.fst = (slotted insts).map Prod.fst ∧
          more.map (fun slot => slot.2.toNat) =
            Space.offsets slots.used.toNat ((slotted insts).map m.slotSpace) := by
  induction insts generalizing slots with
  | nil => exact .done_of slots.used.toNat_lt ⟨rfl, [], (List.append_nil _).symm, rfl, rfl⟩
  | cons inst rest ih =>
    rw [List.foldlM_cons]
    cases hstored : storedType? inst with
    | none =>
      have hsame : slotted (inst :: rest) = slotted rest := by simp [slotted, hstored]
      have hadd : Slots.add layouts slots inst = .ok slots := by simp [Slots.add, hstored]
      rw [hsame] at htys ⊢
      exact .ok_bind hadd (ih htys slots)
    | some ty =>
      have hcons : slotted (inst :: rest) = (inst.id, ty) :: slotted rest := by
        simp [slotted, hstored]
      rw [hcons] at htys ⊢
      obtain ⟨⟨e, hextent, he⟩, hrest⟩ := List.forall_mem_cons.mp htys
      have hle : (m.space ty).stop slots.used.toNat ≤ Space.stops ((m.space ty).stop slots.used.toNat)
          ((slotted rest).map m.slotSpace) := Space.le_stops (m.aligned_slots _)
      refine ((addSlot_checked hstored hextent he slots).bind fun added hadded => by
        obtain ⟨hused, offset, hoffsets, hoffset⟩ := hadded
        have hmore := ih hrest added
        rw [hused] at hmore
        refine hmore.imp Iff.rfl fun slots' h => ?_
        obtain ⟨hstop, more, happended, hids, hplaced⟩ := h
        refine ⟨hstop, (inst.id, offset) :: more, ?_, ?_, ?_⟩
        · rw [happended, hoffsets, List.append_assoc, List.singleton_append]
        · rw [List.map_cons, hids, List.map_cons]
        · rw [List.map_cons, hplaced, List.map_cons, Space.offsets, hoffset]
          rfl).imp ?_ fun _ h => h
      exact ⟨fun h => h.2, fun h => ⟨Nat.lt_of_le_of_lt hle h, h⟩⟩

/-! ## Frames -/

/-- The local for the address of the frame, if there is one. -/
def Frame.baseLocals (frame : Frame) : List Wasm.ValType := if frame.size = 0 then [] else [.i32]

/-- The locals behind the parameters: that for the address of the frame, if there is one, and those of
the results. -/
structure Frame.Numbered (frame : Frame) (f : IR.Function) : Prop where
  base : frame.base = f.params.length
  results : frame.results = (Frame.valued f).mapIdx fun index inst =>
    (inst.id, f.params.length + frame.baseLocals.length + index)
  locals : frame.locals = frame.baseLocals ++ (Frame.valued f).map fun inst => valType inst.ty

theorem Frame.numbered_of_ofFunction (h : Frame.ofFunction layouts f = .ok frame) :
    frame.Numbered f := by
  obtain ⟨slots, _, h⟩ := Except.bind_ok h
  obtain ⟨size, _, h⟩ := Except.bind_ok h
  cases h
  exact ⟨rfl, rfl, rfl⟩

namespace Frame.Numbered

theorem getElem?_results (h : frame.Numbered f) (index : Nat) :
    frame.results[index]? = (Frame.valued f)[index]?.map fun inst =>
      (inst.id, f.params.length + frame.baseLocals.length + index) := by
  rw [h.results, List.getElem?_mapIdx]

/-- A result that is looked up is that of the instruction in its place. -/
theorem of_result? (h : frame.Numbered f) {id place : Nat} (hresult : frame.result? id = some place) :
    ∃ (index : Nat) (inst : Inst), (Frame.valued f)[index]? = some inst ∧ inst.id = id ∧
      place = f.params.length + frame.baseLocals.length + index := by
  obtain ⟨earlier, later, hsplit, _⟩ := List.lookup_eq_some_iff.mp hresult
  have hmem : (id, place) ∈ frame.results := hsplit ▸ by simp
  obtain ⟨index, hindex⟩ := List.getElem?_of_mem hmem
  rw [h.getElem?_results] at hindex
  obtain ⟨inst, hinst, heq⟩ := Option.map_eq_some_iff.mp hindex
  cases heq
  exact ⟨index, inst, hinst, rfl, rfl⟩

/-- A result is behind the parameters and the address of the frame, in one of the locals. -/
theorem result_bounds (h : frame.Numbered f) {id place : Nat} (hresult : frame.result? id = some place) :
    f.params.length + frame.baseLocals.length ≤ place ∧
      place < f.params.length + frame.locals.length := by
  obtain ⟨index, inst, hinst, rfl, rfl⟩ := h.of_result? hresult
  have hlt := (List.getElem?_eq_some_iff.mp hinst).1
  rw [h.locals, List.length_append, List.length_map]
  omega

/-- Two results are not in the same local. -/
theorem results_apart (h : frame.Numbered f) {id id' place : Nat}
    (hresult : frame.result? id = some place) (hresult' : frame.result? id' = some place) :
    id = id' := by
  obtain ⟨index, inst, hinst, rfl, rfl⟩ := h.of_result? hresult
  obtain ⟨index', inst', hinst', rfl, hplace⟩ := h.of_result? hresult'
  obtain rfl : index = index' := by omega
  cases hinst.symm.trans hinst'
  rfl

theorem nodup_results (h : frame.Numbered f) (hf : f.Typed m kinds) :
    (frame.results.map Prod.fst).Nodup := by
  have hids : frame.results.map Prod.fst = (Frame.valued f).map Inst.id := by
    refine List.ext_getElem? fun index => ?_
    rw [List.getElem?_map, h.getElem?_results, List.getElem?_map, Option.map_map]
    rfl
  rw [hids]
  exact (List.filter_sublist.map Inst.id).nodup hf.nodup_ids

/-- Whatever has a result has a local of its type, behind the parameters and the address of the
frame. -/
theorem result (h : frame.Numbered f) (hf : f.Typed m kinds) {inst : Inst} (hinst : inst ∈ f.insts)
    (hvoid : inst.ty ≠ .void) :
    ∃ place, frame.result? inst.id = some place ∧
      f.params.length + frame.baseLocals.length ≤ place ∧
      (f.params.map valType ++ frame.locals)[place]? = some (valType inst.ty) := by
  have hvalued : inst ∈ Frame.valued f := by
    refine List.mem_filter.mpr ⟨hinst, ?_⟩
    cases hty : inst.ty with
    | void => exact absurd hty hvoid
    | int | ptr | struct => rfl
  obtain ⟨index, hindex⟩ := List.getElem?_of_mem hvalued
  have hplace : frame.results[index]? =
      some (inst.id, f.params.length + frame.baseLocals.length + index) := by
    rw [h.getElem?_results, hindex]
    rfl
  refine ⟨_, lookup_of_mem (h.nodup_results hf) (List.mem_of_getElem? hplace),
    Nat.le_add_right _ _, ?_⟩
  rw [h.locals, ← List.append_assoc, List.getElem?_append_right (by simp), List.length_append,
    List.length_map, Nat.add_sub_cancel_left, List.getElem?_map, hindex]
  rfl

variable (hsize : frame.size ≠ 0)
include hsize

/-- A frame that takes space has a local for its address, right behind the parameters. -/
theorem frameLocal (h : frame.Numbered f) :
    (f.params.map valType ++ frame.locals)[frame.base]? = some .i32 := by
  rw [h.base, List.getElem?_append_right (by simp), h.locals, Frame.baseLocals, if_neg hsize]
  simp

/-- No result is in that local. -/
theorem base_lt_result (h : frame.Numbered f) {id place : Nat}
    (hresult : frame.result? id = some place) : frame.base < place := by
  obtain ⟨index, _, _, _, rfl⟩ := h.of_result? hresult
  rw [h.base, Frame.baseLocals, if_neg hsize, List.length_singleton]
  omega

end Frame.Numbered

/-- The frame has what the function needs, where it is without a bound. -/
structure Frame.Is (frame : Frame) (m : IR.Module) (f : IR.Function) : Prop where
  size : frame.size.toNat = m.frameSize f
  base : frame.base = f.params.length
  ids : frame.slots.map Prod.fst = (slotted f.insts).map Prod.fst
  offsets : frame.slots.map (fun slot => slot.2.toNat) =
    Space.offsets 0 ((slotted f.insts).map m.slotSpace)
  results : frame.results = (Frame.valued f).mapIdx fun index inst =>
    (inst.id, f.params.length + frame.baseLocals.length + index)
  locals : frame.locals = frame.baseLocals ++ (Frame.valued f).map fun inst => valType inst.ty

/-- A frame is made if it fits, and everything in it is where it is without a bound. -/
theorem ofFunction_checked (htyped : m.Typed kinds) (hknow : layouts.Know m m.structs)
    (hf : f ∈ m.functions) :
    Checked (Frame.ofFunction layouts f) (m.frameSize f < UInt32.size) fun frame => frame.Is m f := by
  have hextents : ∀ slot ∈ slotted f.insts, ∃ e, layouts.extent slot.2 = .ok e ∧
      e.Is (m.space slot.2) := by
    intro slot hslot
    obtain ⟨inst, hinst, hkeeps⟩ := List.mem_filterMap.mp hslot
    obtain ⟨ty, hstored, rfl⟩ := Option.map_eq_some_iff.mp hkeeps
    obtain ⟨_, hop⟩ := (htyped.functions f hf).chain.typed_of_mem hinst
    exact hknow.extent (.of_stored htyped hop hstored)
  refine ((addSlots_checked hextents {}).bind fun slots hslots => by
    obtain ⟨hused, more, hoffsets, hids, hplaced⟩ := hslots
    have haligned : Checked (alignTo slots.used frameAlign) _ _ := alignTo_checked (by decide)
    rw [hused] at haligned
    exact haligned.bind fun size hsize => .done
      ⟨hsize, rfl, hoffsets ▸ hids, hoffsets ▸ hplaced, rfl, rfl⟩).imp ?_ fun _ h => h
  rw [and_true]
  exact ⟨fun h => h.2, fun h => ⟨Nat.lt_of_le_of_lt (le_roundUp (by decide)) h, h⟩⟩

namespace Frame.Is

variable {inst inst' : Inst} {ty ty' : IRType}

theorem numbered (h : frame.Is m f) : frame.Numbered f := ⟨h.base, h.results, h.locals⟩

/-- Whatever is kept has a slot. -/
theorem slot (h : frame.Is m f) (hf : f.Typed m kinds) (hinst : inst ∈ f.insts)
    (hstored : storedType? inst = some ty) :
    ∃ (index : Nat) (offset : UInt32), frame.slot? inst.id = some offset ∧
      (slotted f.insts)[index]? = some (inst.id, ty) ∧
      (Space.offsets 0 ((slotted f.insts).map m.slotSpace))[index]? = some offset.toNat := by
  have hmem : (inst.id, ty) ∈ slotted f.insts :=
    List.mem_filterMap.mpr ⟨inst, hinst, by rw [hstored]; rfl⟩
  obtain ⟨index, hindex⟩ := List.getElem?_of_mem hmem
  have hid : (frame.slots.map Prod.fst)[index]? = some inst.id := by
    rw [h.ids, List.getElem?_map, hindex]
    rfl
  have hnodup : (frame.slots.map Prod.fst).Nodup := h.ids ▸ nodup_slotted hf
  obtain ⟨⟨id, offset⟩, hslot, hid⟩ := Option.map_eq_some_iff.mp (List.getElem?_map ▸ hid)
  cases hid
  refine ⟨index, offset, lookup_of_mem hnodup (List.mem_of_getElem? hslot), hindex, ?_⟩
  rw [← h.offsets, List.getElem?_map, hslot]
  rfl

/-- A slot lies in the frame. -/
theorem slot_bound (h : frame.Is m f) (hf : f.Typed m kinds) (hinst : inst ∈ f.insts)
    (hstored : storedType? inst = some ty) {offset : UInt32}
    (hoffset : frame.slot? inst.id = some offset) :
    offset.toNat + m.sizeOf ty ≤ frame.size.toNat := by
  obtain ⟨index, offset', hoffset', hslot, hstart⟩ := h.slot hf hinst hstored
  cases hoffset.symm.trans hoffset'
  have hspace : ((slotted f.insts).map m.slotSpace)[index]? = some (m.space ty) := by
    rw [List.getElem?_map, hslot]
    rfl
  obtain ⟨_, hstop⟩ := Space.offsets_bounds (m.aligned_slots _) hspace hstart
  rw [h.size]
  exact hstop.trans (le_roundUp (by decide))

/-- A frame in which something is kept that takes space takes space. -/
theorem size_ne_zero (h : frame.Is m f) (hf : f.Typed m kinds) (hinst : inst ∈ f.insts)
    (hstored : storedType? inst = some ty) (hne : m.sizeOf ty ≠ 0) : frame.size ≠ 0 := by
  obtain ⟨_, offset, hoffset, _⟩ := h.slot hf hinst hstored
  have hbound := h.slot_bound hf hinst hstored hoffset
  intro hzero
  rw [hzero, UInt32.toNat_zero] at hbound
  omega

/-- The slots of two instructions have no byte in common. -/
theorem slots_apart (h : frame.Is m f) (hf : f.Typed m kinds) (hinst : inst ∈ f.insts)
    (hstored : storedType? inst = some ty) (hinst' : inst' ∈ f.insts)
    (hstored' : storedType? inst' = some ty') (hne : inst.id ≠ inst'.id) {offset offset' : UInt32}
    (hoffset : frame.slot? inst.id = some offset) (hoffset' : frame.slot? inst'.id = some offset') :
    offset.toNat + m.sizeOf ty ≤ offset'.toNat ∨ offset'.toNat + m.sizeOf ty' ≤ offset.toNat := by
  obtain ⟨i, o, ho, hslot, hstart⟩ := h.slot hf hinst hstored
  obtain ⟨i', o', ho', hslot', hstart'⟩ := h.slot hf hinst' hstored'
  cases hoffset.symm.trans ho
  cases hoffset'.symm.trans ho'
  have hspace : ∀ {i : Nat} {slot : Nat × IRType}, (slotted f.insts)[i]? = some slot →
      ((slotted f.insts).map m.slotSpace)[i]? = some (m.space slot.2) := by
    intro i slot hi
    rw [List.getElem?_map, hi]
    rfl
  have hindex : i ≠ i' := by
    rintro rfl
    exact hne (Prod.mk.inj (Option.some.inj (hslot.symm.trans hslot'))).1
  rcases Nat.lt_or_gt_of_ne hindex with hlt | hlt
  · exact Or.inl (Space.offsets_disjoint (m.aligned_slots _) hlt (hspace hslot) hstart hstart')
  · exact Or.inr (Space.offsets_disjoint (m.aligned_slots _) hlt (hspace hslot') hstart' hstart)

/-- Whatever has a result has a local of its type, behind the parameters and the address of the
frame. -/
theorem result (h : frame.Is m f) (hf : f.Typed m kinds) (hinst : inst ∈ f.insts)
    (hvoid : inst.ty ≠ .void) :
    ∃ place, frame.result? inst.id = some place ∧
      f.params.length + frame.baseLocals.length ≤ place ∧
      (f.params.map valType ++ frame.locals)[place]? = some (valType inst.ty) :=
  h.numbered.result hf hinst hvoid

end Frame.Is

end Lowering

end Straightline
