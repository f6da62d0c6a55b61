import Straightline.Proofs.Lowering.Constants

/-!
# What the static data is

All of the static data of a well-typed module is placed where it is without a bound if it ends at a word,
and otherwise lowering is stopped (`IR.Module.Typed.ofModule_checked`): the globals in their order, and then
every structure constant that an instruction uses, each once. So each such constant has an address
(`DataImage.Holds.addressOf?`).
-/

set_option autoImplicit false

namespace Straightline

namespace IR

variable {m : Module} {kinds : Kinds}

/-- The constants among the operands fit their types. -/
theorem Module.Typed.operand_fits (h : m.Typed kinds) {v : Value} {c : Constant}
    (hv : v ∈ Lowering.DataImage.operands m) (hc : v.source = .const c) : c.Fits m v.ty := by
  obtain ⟨f, hf, hv⟩ := List.mem_flatMap.mp hv
  obtain ⟨inst, hinst, hv⟩ := List.mem_flatMap.mp hv
  obtain ⟨earlier, htyped⟩ := (h.functions f hf).chain.typed_of_mem hinst
  have hscoped := htyped.operands v hv
  cases hscoped with
  | const hfits =>
    cases hc
    exact hfits
  | param | inst | global => cases hc

end IR

namespace Lowering

open IR (Constant Kinds)

variable {layouts : Layouts} {m : IR.Module} {kinds : Kinds} {image : DataImage}

theorem Sized.of_fits {ty : IRType} {c : Constant} (h : c.Fits m ty) : Sized m.structs ty := by
  cases h with
  | int hbits => exact .int hbits
  | struct hd =>
    obtain ⟨hmem, rfl⟩ := IR.Module.of_structDef? hd
    exact .struct hmem

/-! ## The pool -/

section Pool

variable {pool items : List (IRType × Constant)}

theorem prefix_addNew (pool : List (IRType × Constant)) (item : IRType × Constant) :
    pool <+: IR.Module.addNew pool item := by
  unfold IR.Module.addNew
  split
  · exact List.prefix_refl _
  · exact List.prefix_append _ _

theorem prefix_foldl_addNew (pool items : List (IRType × Constant)) :
    pool <+: items.foldl IR.Module.addNew pool := by
  induction items generalizing pool with
  | nil => exact List.prefix_refl _
  | cons item rest ih => exact (prefix_addNew pool item).trans (ih _)

theorem mem_foldl_addNew {item : IRType × Constant} (h : item ∈ items) :
    item ∈ items.foldl IR.Module.addNew pool := by
  induction items generalizing pool with
  | nil => cases h
  | cons first rest ih =>
    rw [List.foldl_cons]
    rcases List.mem_cons.mp h with rfl | h
    · refine (prefix_foldl_addNew _ _).subset ?_
      unfold IR.Module.addNew
      split
      · assumption
      · simp
    · exact ih h

end Pool

/-! ## Placing -/

/-- A segment is the bytes of a constant, at an address. -/
structure IsSegment (m : IR.Module) (item : IRType × Constant) (start : Nat) (s : Wasm.Segment) :
    Prop where
  offset : s.offset.toNat = start
  length : s.bytes.length = m.sizeOf item.1
  stored : ∀ p, Stored m p (imageByte s.bytes) item.1 item.2.datum 0

namespace DataImage

/-- The image consists of these globals and of this pool of constants, one after the other. -/
structure Holds (image : DataImage) (m : IR.Module) (globals pool : List (IRType × Constant)) :
    Prop where
  count : image.globals.length = globals.length
  known : image.constants.map (fun c => (c.ty, c.constant)) = pool
  addresses : (image.globals ++ image.constants.map PlacedConstant.address).map UInt32.toNat =
    Space.offsets nullGuard.toNat ((globals ++ pool).map m.constantSpace)
  segments : List.Forall₂ (fun (placed : (IRType × Constant) × Nat) s =>
      IsSegment m placed.1 placed.2 s)
    ((globals ++ pool).zip
      (Space.offsets nullGuard.toNat ((globals ++ pool).map m.constantSpace))) image.segments
  finish : image.finish.toNat =
    Space.stops nullGuard.toNat ((globals ++ pool).map m.constantSpace)

variable {globals pool : List (IRType × Constant)} {item : IRType × Constant}

theorem holds_empty : Holds {} m [] [] := ⟨rfl, rfl, rfl, .nil, rfl⟩

theorem offsets_concat (items : List (IRType × Constant)) (offset : Nat) :
    Space.offsets offset ((items ++ [item]).map m.constantSpace) =
      Space.offsets offset (items.map m.constantSpace) ++
        [(m.constantSpace item).start (Space.stops offset (items.map m.constantSpace))] := by
  rw [List.map_append, Space.offsets_append]
  rfl

/-- What was placed ends at a word. -/
theorem Holds.stop_lt (h : image.Holds m globals pool) :
    Space.stops nullGuard.toNat ((globals ++ pool).map m.constantSpace) < UInt32.size :=
  h.finish ▸ image.finish.toNat_lt

/-- Placing adds the segment of the constant behind what is there. -/
theorem place_checked (item : IRType × Constant) (htyped : m.Typed kinds)
    (hknow : layouts.Know m m.structs) (h : image.Holds m globals pool) (hitem : item.2.Fits m item.1) :
    Checked (image.place layouts m item.1 item.2)
      (Space.stops nullGuard.toNat (((globals ++ pool) ++ [item]).map m.constantSpace) < UInt32.size)
      fun placed => ∃ address bytes finish,
        placed = (address, { image with segments := image.segments ++ [⟨address, bytes⟩], finish }) ∧
        IsSegment m item
          ((m.constantSpace item).start
            (Space.stops nullGuard.toNat ((globals ++ pool).map m.constantSpace)))
          ⟨address, bytes⟩ ∧
        finish.toNat =
          Space.stops nullGuard.toNat (((globals ++ pool) ++ [item]).map m.constantSpace) := by
  obtain ⟨e, hextent, he⟩ := hknow.extent (.of_fits hitem)
  have hstops : Space.stops nullGuard.toNat (((globals ++ pool) ++ [item]).map m.constantSpace) =
      (m.constantSpace item).stop image.finish.toNat := by
    rw [List.map_append, Space.stops_append, ← h.finish]
    rfl
  have hsize : (List.replicate e.size.toNat (0 : UInt8)).length = m.sizeOf item.1 := by
    rw [List.length_replicate, he.size]
    rfl
  -- The places of models do not matter: no constant refers to one.
  obtain ⟨bytes, hbytes, hwritten, _⟩ := encodeConstant_ok htyped hknow ⟨[], [], 0, []⟩ hitem 0
    (List.replicate e.size.toNat 0) (by omega)
  have hstored : ∀ p, Stored m p (imageByte bytes) item.1 item.2.datum 0 := by
    intro p
    obtain ⟨bytes', hbytes', _, hstored⟩ :=
      encodeConstant_ok htyped hknow p hitem 0 (List.replicate e.size.toNat 0) (by omega)
    cases hbytes.symm.trans hbytes'
    exact hstored
  rw [hstops, ← h.finish]
  refine .ok_bind hextent (((Layouts.start_checked he (m.space_align_pos _)).bind fun start hstart =>
    .ok_bind hbytes ((Layouts.stop_checked he hstart).bind fun finish hfinish => .done
      ⟨start, bytes, finish, rfl, ⟨hstart, hwritten.length.trans hsize, hstored⟩, hfinish⟩)).imp ?_ fun _ h => h)
  rw [and_true]
  exact ⟨fun h => h.2, fun h => ⟨Nat.lt_of_le_of_lt (Nat.le_add_right _ _) h, h⟩⟩

theorem segments_concat (h : image.Holds m globals pool) {s : Wasm.Segment}
    (hs : IsSegment m item
      ((m.constantSpace item).start
        (Space.stops nullGuard.toNat ((globals ++ pool).map m.constantSpace))) s) :
    List.Forall₂ (fun (placed : (IRType × Constant) × Nat) s => IsSegment m placed.1 placed.2 s)
      (((globals ++ pool) ++ [item]).zip
        (Space.offsets nullGuard.toNat (((globals ++ pool) ++ [item]).map m.constantSpace)))
      (image.segments ++ [s]) := by
  rw [offsets_concat, List.zip_append (by simp)]
  exact List.rel_append h.segments (.cons hs .nil)

theorem placeGlobal_checked (htyped : m.Typed kinds) (hknow : layouts.Know m m.structs)
    (h : image.Holds m globals []) {g : IR.Global} (hg : g.init.Fits m g.ty) :
    Checked (image.placeGlobal layouts m g)
      (Space.stops nullGuard.toNat ((globals ++ [(g.ty, g.init)]).map m.constantSpace) < UInt32.size)
      fun image' => image'.Holds m (globals ++ [(g.ty, g.init)]) [] := by
  have hplace := place_checked (g.ty, g.init) htyped hknow h hg
  rw [List.append_nil] at hplace
  refine (hplace.bind fun placed hplaced => by
    obtain ⟨address, bytes, finish, rfl, hsegment, hfinish⟩ := hplaced
    have hsegments := segments_concat h (List.append_nil globals ▸ hsegment)
    have haddress := hsegment.offset
    have hnone : image.constants = [] := List.map_eq_nil_iff.mp h.known
    have haddresses := h.addresses
    rw [hnone, List.map_nil, List.append_nil, List.append_nil] at haddresses
    rw [List.append_nil] at hsegments
    refine .done ⟨?_, hnone ▸ rfl, ?_, ?_, ?_⟩
    · simp [h.count]
    · rw [List.append_nil, offsets_concat, ← haddresses, ← haddress, hnone]
      simp
    · rwa [List.append_nil]
    · rwa [List.append_nil]).imp (iff_of_eq (and_true _)) fun _ h => h

theorem placeGlobals_checked (htyped : m.Typed kinds) (hknow : layouts.Know m m.structs)
    {more : List IR.Global} (h : image.Holds m globals [])
    (hmore : ∀ g ∈ more, g.init.Fits m g.ty) :
    Checked (more.foldlM (placeGlobal layouts m) image)
      (Space.stops nullGuard.toNat
        ((globals ++ more.map fun g => (g.ty, g.init)).map m.constantSpace) < UInt32.size)
      fun image' => image'.Holds m (globals ++ more.map fun g => (g.ty, g.init)) [] := by
  induction more generalizing image globals with
  | nil =>
    rw [List.map_nil, List.append_nil]
    exact .done_of (List.append_nil globals ▸ h.stop_lt) h
  | cons g rest ih =>
    rw [List.foldlM_cons, List.map_cons, List.append_cons]
    refine ((placeGlobal_checked htyped hknow h (hmore g List.mem_cons_self)).bind fun image' h' =>
      ih h' fun g' hg' => hmore g' (List.mem_cons_of_mem _ hg')).imp ?_ fun _ h => h
    exact and_iff_right_of_imp (Nat.lt_of_le_of_lt (m.stops_le_append _ _))

namespace Holds

/-- A constant of the pool has an address, which is where it was placed. -/
theorem addressOf? (h : image.Holds m globals pool) {ty : IRType} {c : Constant}
    (hmem : (ty, c) ∈ pool) :
    ∃ address index, image.addressOf? ty c = some address ∧
      (globals ++ pool)[index]? = some (ty, c) ∧ globals.length ≤ index ∧
      (Space.offsets nullGuard.toNat ((globals ++ pool).map m.constantSpace))[index]? =
        some address.toNat := by
  rw [← h.known] at hmem
  obtain ⟨placed, hplaced, heq⟩ := List.mem_map.mp hmem
  have hsome : (image.constants.find? fun p => p.ty == ty && p.constant == c).isSome := by
    rw [List.find?_isSome]
    refine ⟨placed, hplaced, ?_⟩
    cases heq
    simp
  obtain ⟨found, hfound⟩ := Option.isSome_iff_exists.mp hsome
  obtain ⟨i, hi⟩ := List.getElem?_of_mem (List.mem_of_find?_eq_some hfound)
  have hsame := List.find?_some hfound
  simp only [Bool.and_eq_true, beq_iff_eq] at hsame
  refine ⟨found.address, image.globals.length + i, ?_, ?_, ?_, ?_⟩
  · unfold DataImage.addressOf?
    rw [hfound]
    rfl
  · rw [List.getElem?_append_right (by rw [h.count]; exact Nat.le_add_right _ _), ← h.count,
      Nat.add_sub_cancel_left, ← h.known, List.getElem?_map, hi]
    simp [hsame]
  · rw [h.count]
    exact Nat.le_add_right _ _
  · rw [← h.addresses, List.getElem?_map, List.getElem?_append_right (Nat.le_add_right _ _),
      Nat.add_sub_cancel_left, List.getElem?_map, hi]
    rfl

theorem addressOf?_none (h : image.Holds m globals pool) {ty : IRType} {c : Constant}
    (hmem : (ty, c) ∉ pool) : image.addressOf? ty c = none := by
  unfold DataImage.addressOf?
  rw [Option.map_eq_none_iff, List.find?_eq_none]
  intro placed hplaced hsame
  simp only [Bool.and_eq_true, beq_iff_eq] at hsame
  refine hmem ?_
  rw [← h.known, ← hsame.1, ← hsame.2]
  exact List.mem_map_of_mem (f := fun c : PlacedConstant => (c.ty, c.constant)) hplaced

end Holds

section Operand

variable {v : IR.Value}

/-- Other operands than structure constants need no place. -/
theorem placeOperand_none (hv : IR.Module.structConstant? v = none) :
    image.placeOperand layouts m v = .ok image := by
  unfold IR.Module.structConstant? at hv
  unfold placeOperand
  split
  case h_2 => rfl
  case h_1 c hc =>
    rw [hc] at hv
    simp only [ite_eq_right_iff, reduceCtorEq, imp_false] at hv
    simp [hv]

theorem of_structConstant? (hv : IR.Module.structConstant? v = some item) :
    v.source = .const item.2 ∧ item.2.isStruct = true ∧ v.ty = item.1 := by
  unfold IR.Module.structConstant? at hv
  split at hv
  case h_2 => cases hv
  case h_1 c hc =>
    split at hv <;> cases hv
    exact ⟨hc, by assumption, rfl⟩

/-- Nor does a structure constant that is in the pool. -/
theorem placeOperand_known (h : image.Holds m globals pool)
    (hv : IR.Module.structConstant? v = some item) (hmem : item ∈ pool) :
    image.placeOperand layouts m v = .ok image := by
  obtain ⟨hsource, _, hty⟩ := of_structConstant? hv
  obtain ⟨address, _, haddress, _⟩ := h.addressOf? (show (item.1, item.2) ∈ pool from hmem)
  unfold placeOperand
  simp [hsource, hty, haddress]

theorem placeOperand_new (htyped : m.Typed kinds) (hknow : layouts.Know m m.structs)
    (h : image.Holds m globals pool) (hv : IR.Module.structConstant? v = some item)
    (hitem : item.2.Fits m item.1) (hnew : item ∉ pool) :
    Checked (image.placeOperand layouts m v)
      (Space.stops nullGuard.toNat ((globals ++ (pool ++ [item])).map m.constantSpace) < UInt32.size)
      fun image' => image'.Holds m globals (pool ++ [item]) := by
  obtain ⟨hsource, hstruct, hty⟩ := of_structConstant? hv
  have hplaces : image.placeOperand layouts m v = (image.place layouts m item.1 item.2 >>= fun placed =>
      pure { placed.2 with constants := placed.2.constants ++ [⟨item.1, item.2, placed.1⟩] }) := by
    unfold placeOperand
    simp [hsource, hstruct, hty, h.addressOf?_none hnew]
  rw [hplaces, ← List.append_assoc]
  refine ((place_checked item htyped hknow h hitem).bind fun placed hplaced => by
    obtain ⟨address, bytes, finish, rfl, hsegment, hfinish⟩ := hplaced
    have hsegments := segments_concat h hsegment
    refine .done ⟨h.count, ?_, ?_, ?_, ?_⟩
    · simp [h.known]
    · rw [← List.append_assoc, offsets_concat, ← h.addresses, ← hsegment.offset]
      simp
    · rwa [← List.append_assoc]
    · rwa [← List.append_assoc]).imp (iff_of_eq (and_true _)) fun _ h => h

/-- An operand adds what it needs to the pool. -/
theorem placeOperand_checked (htyped : m.Typed kinds) (hknow : layouts.Know m m.structs)
    (h : image.Holds m globals pool)
    (hv : ∀ item, IR.Module.structConstant? v = some item → item.2.Fits m item.1) :
    Checked (image.placeOperand layouts m v)
      (Space.stops nullGuard.toNat ((globals ++
        (IR.Module.structConstant? v).toList.foldl IR.Module.addNew pool).map m.constantSpace) <
          UInt32.size)
      fun image' => image'.Holds m globals
        ((IR.Module.structConstant? v).toList.foldl IR.Module.addNew pool) := by
  cases hitem : IR.Module.structConstant? v with
  | none =>
    rw [placeOperand_none hitem]
    exact .done_of h.stop_lt h
  | some item =>
    rw [Option.toList_some, List.foldl_cons, List.foldl_nil]
    by_cases hmem : item ∈ pool
    · rw [show IR.Module.addNew pool item = pool from if_pos hmem, placeOperand_known h hitem hmem]
      exact .done_of h.stop_lt h
    · rw [show IR.Module.addNew pool item = pool ++ [item] from if_neg hmem]
      exact placeOperand_new htyped hknow h hitem (hv item hitem) hmem

end Operand

theorem placeOperands_checked (htyped : m.Typed kinds) (hknow : layouts.Know m m.structs)
    {vs : List IR.Value} (h : image.Holds m globals pool)
    (hvs : ∀ v ∈ vs, ∀ item, IR.Module.structConstant? v = some item → item.2.Fits m item.1) :
    Checked (vs.foldlM (placeOperand layouts m) image)
      (Space.stops nullGuard.toNat
        ((globals ++ (vs.filterMap IR.Module.structConstant?).foldl IR.Module.addNew pool).map
          m.constantSpace) < UInt32.size)
      fun image' => image'.Holds m globals
        ((vs.filterMap IR.Module.structConstant?).foldl IR.Module.addNew pool) := by
  induction vs generalizing image pool with
  | nil => exact .done_of h.stop_lt h
  | cons v rest ih =>
    have hsplit : (v :: rest).filterMap IR.Module.structConstant? =
        (IR.Module.structConstant? v).toList ++ rest.filterMap IR.Module.structConstant? := by
      cases hitem : IR.Module.structConstant? v <;> simp [hitem]
    rw [List.foldlM_cons, hsplit, List.foldl_append]
    refine ((placeOperand_checked htyped hknow h (hvs v List.mem_cons_self)).bind fun image' h' =>
      ih h' fun v' hv' => hvs v' (List.mem_cons_of_mem _ hv')).imp ?_ fun _ h => h
    -- The pool only grows, so it ends at a word if it does in the end.
    obtain ⟨more, hmore⟩ := prefix_foldl_addNew
      ((IR.Module.structConstant? v).toList.foldl IR.Module.addNew pool)
      (rest.filterMap IR.Module.structConstant?)
    rw [← hmore, ← List.append_assoc]
    exact and_iff_right_of_imp (Nat.lt_of_le_of_lt (m.stops_le_append _ _))

end DataImage

end Lowering

namespace IR.Module.Typed

open Lowering

variable {m : Module} {kinds : Kinds} {layouts : Layouts}

/-- The static data is placed, if it ends at a word. -/
theorem ofModule_checked (h : m.Typed kinds) (hknow : layouts.Know m m.structs) :
    Checked (DataImage.ofModule layouts m) (m.dataStop < UInt32.size) fun image =>
      image.Holds m (m.globals.map fun g => (g.ty, g.init)) m.pool := by
  have hconstants : ∀ v ∈ DataImage.operands m, ∀ item, structConstant? v = some item →
      item.2.Fits m item.1 := by
    intro v hv item hitem
    obtain ⟨hsource, _, hty⟩ := DataImage.of_structConstant? hitem
    exact hty ▸ h.operand_fits hv hsource
  refine ((DataImage.placeGlobals_checked h hknow DataImage.holds_empty fun g hg =>
    (h.globals g hg).2).bind fun image hholds =>
      DataImage.placeOperands_checked h hknow hholds hconstants).imp ?_ fun _ h => h
  have hstop : m.dataStop = Space.stops (Space.stops nullGuard.toNat
      ((m.globals.map fun g => (g.ty, g.init)).map m.constantSpace)) (m.pool.map m.constantSpace) := by
    rw [dataStop, statics, List.map_append, Space.stops_append]
  rw [hstop, List.nil_append, List.map_append, Space.stops_append]
  exact ⟨fun h => h.2, fun h => ⟨Nat.lt_of_le_of_lt (Space.le_stops (m.aligned_constants _)) h, h⟩⟩

end IR.Module.Typed

end Straightline
