import Straightline.Proofs.Lowering.CRules
import Straightline.Proofs.Lowering.Modules
import Straightline.Proofs.Lowering.StackRoom

/-!
# The static data image

Placing goes from operand to operand and leaves out what it has placed before. What comes of it is complete
(`DataImage.Complete`): every global, and every structure constant that an instruction uses, has a segment
that holds exactly its encoding, and operands have the same segment just if they are the same constant of the
same type.

What one step records (`DataImage.Records`) holds wherever the addresses are. That the segments are ordered,
disjoint and aligned is a matter of numbers, and follows from what the addresses are without a bound: that
they are the same is checked at every step.
-/

set_option autoImplicit false

namespace Straightline

open IR (Constant Kinds)

/-- A structure constant is an operand of an instruction. -/
def IR.Module.Uses (m : IR.Module) (ty : IRType) (c : IR.Constant) : Prop :=
  c.isStruct = true ∧ ∃ f ∈ m.functions, ∃ inst ∈ f.insts, ⟨.const c, ty⟩ ∈ inst.op.operands

namespace Lowering

variable {layouts : Layouts} {m : IR.Module} {kinds : Kinds} {image data : DataImage}

/-! ## What placing records -/

/-- The segment consists of exactly this constant. -/
def Encodes (layouts : Layouts) (m : IR.Module) (item : IRType × Constant) (s : Wasm.Segment) : Prop :=
  ∃ e, layouts.extent item.1 = .ok e ∧
    encodeConstant layouts m item.1 0 (List.replicate e.size.toNat 0) item.2 = .ok s.bytes

namespace DataImage

/-- The types and constants that have been placed for operands. -/
def known (image : DataImage) : List (IRType × Constant) :=
  image.constants.map fun placed => (placed.ty, placed.constant)

/-- The place, among all segments, of that of an operand. -/
def segmentOf? (image : DataImage) (ty : IRType) (constant : Constant) : Option Nat :=
  (image.constants.findIdx? fun p => p.ty == ty && p.constant == constant).map
    (image.globals.length + ·)

/-- There is a segment for each global and for each constant, in the order in which they were placed, and
no constant was placed twice. -/
structure Records (layouts : Layouts) (m : IR.Module) (globals : List (IRType × Constant))
    (image : DataImage) : Prop where
  count : image.globals.length = globals.length
  encoded : List.Forall₂ (Encodes layouts m) (globals ++ image.known) image.segments
  addresses : image.segments.map Wasm.Segment.offset =
    image.globals ++ image.constants.map PlacedConstant.address
  distinct : image.known.Nodup

/-- Placing adds one segment. -/
theorem of_place {ty : IRType} {c : Constant} {address : UInt32} {image' : DataImage}
    (h : image.place layouts m ty c = .ok (address, image')) :
    ∃ bytes finish, Encodes layouts m (ty, c) ⟨address, bytes⟩ ∧
      image' = { image with segments := image.segments ++ [⟨address, bytes⟩], finish } := by
  obtain ⟨e, hextent, h⟩ := Except.bind_ok h
  obtain ⟨start, _, h⟩ := Except.bind_ok h
  obtain ⟨bytes, hbytes, h⟩ := Except.bind_ok h
  obtain ⟨finish, _, h⟩ := Except.bind_ok h
  cases h
  exact ⟨bytes, finish, ⟨e, hextent, hbytes⟩, rfl⟩

theorem addressOf?_eq_none {ty : IRType} {c : Constant} :
    image.addressOf? ty c = none ↔ (ty, c) ∉ image.known := by
  simp [addressOf?, known, not_and]

namespace Records

variable {globals : List (IRType × Constant)} {image' : DataImage}

/-- A step that places a global. -/
theorem placeGlobal {g : IR.Global} (h : image.Records layouts m globals)
    (hnone : image.constants = []) (hplace : image.placeGlobal layouts m g = .ok image') :
    image'.Records layouts m (globals ++ [(g.ty, g.init)]) ∧ image'.constants = [] := by
  obtain ⟨⟨address, image''⟩, hplace, hrest⟩ := Except.bind_ok hplace
  obtain ⟨bytes, finish, hencodes, rfl⟩ := of_place hplace
  cases hrest
  -- No constant has been placed yet, so the segment is the last one of a global.
  have hencoded := h.encoded
  have haddresses := h.addresses
  simp only [known, hnone, List.map_nil, List.append_nil] at hencoded haddresses
  refine ⟨⟨?_, ?_, ?_, ?_⟩, hnone⟩
  · simp [h.count]
  · simpa only [known, hnone, List.map_nil, List.append_nil] using
      List.rel_append hencoded (.cons hencodes .nil)
  · simp [haddresses, hnone]
  · exact h.distinct

/-- A step that places what an operand needs, if it needs anything. -/
theorem placeOperand {v : IR.Value} (h : image.Records layouts m globals)
    (hplace : image.placeOperand layouts m v = .ok image') :
    image'.Records layouts m globals := by
  unfold DataImage.placeOperand at hplace
  split at hplace
  case h_2 =>
    cases hplace
    exact h
  case h_1 c hc =>
    split at hplace
    case isFalse =>
      cases hplace
      exact h
    case isTrue hnew =>
      rw [Bool.and_eq_true, Option.isNone_iff_eq_none, addressOf?_eq_none] at hnew
      obtain ⟨⟨address, image''⟩, hplace, hrest⟩ := Except.bind_ok hplace
      obtain ⟨bytes, finish, hencodes, rfl⟩ := of_place hplace
      cases hrest
      refine ⟨h.count, ?_, ?_, ?_⟩
      · have hencoded : List.Forall₂ (Encodes layouts m) ((globals ++ image.known) ++ [(v.ty, c)])
            (image.segments ++ [⟨address, bytes⟩]) :=
          List.rel_append h.encoded (.cons hencodes .nil)
        simpa [known] using hencoded
      · simp [h.addresses]
      · have hdistinct := List.nodup_append.mpr ⟨h.distinct, List.nodup_singleton (v.ty, c),
          fun a ha b hb hab => hnew.2 (List.mem_singleton.mp hb ▸ hab ▸ ha)⟩
        simpa [known] using hdistinct

theorem placeGlobals {more : List IR.Global} (h : image.Records layouts m globals)
    (hnone : image.constants = []) (hplace : more.foldlM (DataImage.placeGlobal layouts m) image = .ok image') :
    image'.Records layouts m (globals ++ more.map fun g => (g.ty, g.init)) := by
  induction more generalizing image globals with
  | nil =>
    cases hplace
    simpa using h
  | cons g rest ih =>
    rw [List.foldlM_cons] at hplace
    obtain ⟨next, hnext, hplace⟩ := Except.bind_ok hplace
    obtain ⟨hrecords, hnone'⟩ := h.placeGlobal hnone hnext
    rw [List.map_cons, List.append_cons]
    exact ih hrecords hnone' hplace

theorem placeOperands {vs : List IR.Value} (h : image.Records layouts m globals)
    (hplace : vs.foldlM (DataImage.placeOperand layouts m) image = .ok image') :
    image'.Records layouts m globals := by
  induction vs generalizing image with
  | nil =>
    cases hplace
    exact h
  | cons v rest ih =>
    rw [List.foldlM_cons] at hplace
    obtain ⟨next, hnext, hplace⟩ := Except.bind_ok hplace
    exact ih (h.placeOperand hnext) hplace

/-- So it is with all of the static data. -/
theorem ofModule (h : DataImage.ofModule layouts m = .ok image) :
    image.Records layouts m (m.globals.map fun g => (g.ty, g.init)) := by
  obtain ⟨image', hglobals, hoperands⟩ := Except.bind_ok h
  have hempty : ({} : DataImage).Records layouts m [] := ⟨rfl, .nil, rfl, List.nodup_nil⟩
  exact (hempty.placeGlobals rfl hglobals).placeOperands hoperands

end Records

/-! ## Looking up -/

section Lookup

variable {globals : List (IRType × Constant)} {ty ty' : IRType} {c c' : Constant}

/-- What has been placed for operands is found where it is. -/
theorem Records.found (h : image.Records layouts m globals) {index : Nat} {placed : PlacedConstant}
    (hplaced : image.constants[index]? = some placed) :
    image.segmentOf? placed.ty placed.constant = some (image.globals.length + index) ∧
      image.addressOf? placed.ty placed.constant = some placed.address := by
  obtain ⟨hlt, rfl⟩ := List.getElem?_eq_some_iff.mp hplaced
  -- Nothing before it is the same.
  have hothers : ∀ (j : Nat) (hj : j < index), ¬((image.constants[j].ty == image.constants[index].ty &&
      image.constants[j].constant == image.constants[index].constant) = true) := by
    intro j hj hsame
    simp only [Bool.and_eq_true, beq_iff_eq] at hsame
    refine List.pairwise_iff_getElem.mp h.distinct j index ?_ ?_ hj ?_
    · simp only [known, List.length_map]
      omega
    · simpa only [known, List.length_map] using hlt
    · simp [known, hsame]
  constructor
  · rw [segmentOf?, Option.map_eq_some_iff]
    exact ⟨index, List.findIdx?_eq_some_iff_getElem.mpr ⟨hlt, by simp, hothers⟩, rfl⟩
  · rw [addressOf?, Option.map_eq_some_iff]
    refine ⟨_, List.find?_eq_some_iff_getElem.mpr ⟨by simp, index, hlt, rfl, fun j hj => ?_⟩, rfl⟩
    rw [Bool.not_eq_true', ← Bool.not_eq_true]
    exact hothers j hj

/-- Only what was placed is found, and in one place. -/
theorem of_segmentOf? {index : Nat} (h : image.segmentOf? ty c = some index) :
    ∃ placed, image.constants[index - image.globals.length]? = some placed ∧ placed.ty = ty ∧
      placed.constant = c := by
  obtain ⟨i, hi, rfl⟩ := Option.map_eq_some_iff.mp h
  obtain ⟨hlt, hsame, _⟩ := List.findIdx?_eq_some_iff_getElem.mp hi
  simp only [Bool.and_eq_true, beq_iff_eq] at hsame
  rw [Nat.add_sub_cancel_left]
  exact ⟨_, List.getElem?_eq_getElem hlt, hsame⟩

end Lookup

/-! ## The whole image -/

/-- The segment holds exactly this constant, at an address for its type. -/
def PlacedAs (layouts : Layouts) (m : IR.Module) (item : IRType × Constant) (s : Wasm.Segment) : Prop :=
  ∃ e, layouts.extent item.1 = .ok e ∧
    encodeConstant layouts m item.1 0 (List.replicate e.size.toNat 0) item.2 = .ok s.bytes ∧
    s.bytes.length = e.size.toNat ∧ e.align.toNat ∣ s.offset.toNat

/-- The image holds what the module needs, one after the other, and nothing twice. Constants without bytes
may have the address of what follows them, but not its segment. -/
structure Complete (layouts : Layouts) (m : IR.Module) (image : DataImage) : Prop where
  ordered : image.segments.Pairwise fun s s' => s.offset.toNat + s.bytes.length ≤ s'.offset.toNat
  inside : ∀ s ∈ image.segments, nullGuard.toNat ≤ s.offset.toNat ∧
    s.offset.toNat + s.bytes.length ≤ image.finish.toNat
  each : List.Forall₂ (PlacedAs layouts m) m.statics image.segments
  globals : ∀ {index : Nat} {g : IR.Global}, m.globals[index]? = some g →
    ∃ s, image.segments[index]? = some s ∧ image.globals[index]? = some s.offset ∧
      PlacedAs layouts m (g.ty, g.init) s
  constants : ∀ {ty : IRType} {c : Constant}, m.Uses ty c →
    ∃ index s, image.segmentOf? ty c = some index ∧ m.globals.length ≤ index ∧
      image.segments[index]? = some s ∧ image.addressOf? ty c = some s.offset ∧
      PlacedAs layouts m (ty, c) s
  shared : ∀ {ty ty' : IRType} {c c' : Constant}, m.Uses ty c → m.Uses ty' c' →
    (image.segmentOf? ty c = image.segmentOf? ty' c' ↔ ty = ty' ∧ c = c')
  apart : ∀ {ty ty' : IRType} {c c' : Constant}, m.Uses ty c → m.Uses ty' c' →
    0 < m.sizeOf ty → 0 < m.sizeOf ty' →
    (image.addressOf? ty c = image.addressOf? ty' c' ↔ ty = ty' ∧ c = c')

variable {globals pool : List (IRType × Constant)} {item : IRType × Constant}

/-- Each item has its segment, which lies where the item is placed. -/
theorem Holds.segment (h : image.Holds m globals pool) {index : Nat}
    (hitem : (globals ++ pool)[index]? = some item) :
    ∃ s start, image.segments[index]? = some s ∧ IsSegment m item start s ∧
      (Space.offsets nullGuard.toNat ((globals ++ pool).map m.constantSpace))[index]? = some start := by
  have hlt := (List.getElem?_eq_some_iff.mp hitem).1
  obtain ⟨start, hstart⟩ : ∃ start,
      (Space.offsets nullGuard.toNat ((globals ++ pool).map m.constantSpace))[index]? = some start :=
    ⟨_, List.getElem?_eq_getElem (by simpa using hlt)⟩
  have hplaced := List.getElem?_zip_eq_some (z := (item, start)) |>.mpr ⟨hitem, hstart⟩
  obtain ⟨s, hs, hsegment⟩ := forall₂_getElem? h.segments hplaced
  exact ⟨s, start, hs, hsegment, hstart⟩

theorem Holds.length_segments (h : image.Holds m globals pool) :
    image.segments.length = (globals ++ pool).length := by
  have hlength := h.segments.length_eq
  rw [List.length_zip, Space.length_offsets, List.length_map, Nat.min_self] at hlength
  exact hlength.symm

theorem Holds.ordered (h : image.Holds m globals pool) :
    image.segments.Pairwise fun s s' => s.offset.toNat + s.bytes.length ≤ s'.offset.toNat := by
  rw [List.pairwise_iff_getElem]
  intro i j hi hj hlt
  have hlength := h.length_segments
  have hitem := List.getElem?_eq_getElem (l := globals ++ pool) (i := i) (by omega)
  have hitem' := List.getElem?_eq_getElem (l := globals ++ pool) (i := j) (by omega)
  obtain ⟨s, start, hs, hsegment, hstart⟩ := h.segment hitem
  obtain ⟨s', start', hs', hsegment', hstart'⟩ := h.segment hitem'
  obtain ⟨_, rfl⟩ := List.getElem?_eq_some_iff.mp hs
  obtain ⟨_, rfl⟩ := List.getElem?_eq_some_iff.mp hs'
  rw [hsegment.offset, hsegment.length, hsegment'.offset]
  refine Space.offsets_disjoint (m.aligned_constants _) hlt ?_ hstart hstart'
  rw [List.getElem?_map, hitem]
  rfl

theorem Holds.length_of_segment (h : image.Holds m globals pool) {index : Nat}
    (hitem : (globals ++ pool)[index]? = some item) {s : Wasm.Segment}
    (hs : image.segments[index]? = some s) : s.bytes.length = m.sizeOf item.1 := by
  obtain ⟨s', _, hs', hsegment, _⟩ := h.segment hitem
  cases hs.symm.trans hs'
  exact hsegment.length

theorem Holds.apart_of_ne (h : image.Holds m globals pool) {i j : Nat} (hne : i ≠ j)
    {s s' : Wasm.Segment} (hs : image.segments[i]? = some s) (hs' : image.segments[j]? = some s') :
    s.offset.toNat + s.bytes.length ≤ s'.offset.toNat ∨
      s'.offset.toNat + s'.bytes.length ≤ s.offset.toNat := by
  obtain ⟨hi, rfl⟩ := List.getElem?_eq_some_iff.mp hs
  obtain ⟨hj, rfl⟩ := List.getElem?_eq_some_iff.mp hs'
  have hordered := List.pairwise_iff_getElem.mp h.ordered
  rcases Nat.lt_or_gt_of_ne hne with hlt | hlt
  · exact .inl (hordered i j hi hj hlt)
  · exact .inr (hordered j i hj hi hlt)

theorem Holds.inside (h : image.Holds m globals pool) :
    ∀ s ∈ image.segments, nullGuard.toNat ≤ s.offset.toNat ∧
      s.offset.toNat + s.bytes.length ≤ image.finish.toNat := by
  intro s hs
  obtain ⟨i, hi⟩ := List.getElem?_of_mem hs
  have hlt := (List.getElem?_eq_some_iff.mp hi).1
  have hlength := h.length_segments
  have hitem := List.getElem?_eq_getElem (l := globals ++ pool) (i := i) (by omega)
  obtain ⟨s', start, hs', hsegment, hstart⟩ := h.segment hitem
  cases hi.symm.trans hs'
  rw [hsegment.offset, hsegment.length, h.finish]
  refine Space.offsets_bounds (m.aligned_constants _) ?_ hstart
  rw [List.getElem?_map, hitem]
  rfl

/-- What was recorded lies at addresses for its type. -/
theorem Records.placedAs (hrecords : image.Records layouts m globals)
    (hknow : layouts.Know m m.structs) (h : image.Holds m globals pool) {index : Nat}
    (hitem : (globals ++ pool)[index]? = some item) (hsized : Sized m.structs item.1) :
    ∃ s, image.segments[index]? = some s ∧ PlacedAs layouts m item s := by
  obtain ⟨s, start, hs, hsegment, hstart⟩ := h.segment hitem
  have hencoded := hrecords.encoded
  rw [known, h.known] at hencoded
  obtain ⟨s', hs', e, hextent, hbytes⟩ := forall₂_getElem? hencoded hitem
  cases hs.symm.trans hs'
  obtain ⟨e', hextent', his⟩ := hknow.extent hsized
  cases hextent.symm.trans hextent'
  have hspace : ((globals ++ pool).map m.constantSpace)[index]? = some (m.space item.1) := by
    rw [List.getElem?_map, hitem]
    rfl
  refine ⟨s, hs, e, hextent, hbytes, hsegment.length.trans his.size.symm, ?_⟩
  rw [hsegment.offset, Space.eq_start_of_offsets hspace hstart, his.align]
  exact dvd_roundUp _ _

theorem of_mem_foldl_addNew {items : List (IRType × Constant)}
    (h : item ∈ items.foldl IR.Module.addNew pool) : item ∈ pool ∨ item ∈ items := by
  induction items generalizing pool with
  | nil => exact .inl h
  | cons first rest ih =>
    rcases ih h with hpool | hrest
    · unfold IR.Module.addNew at hpool
      split at hpool
      · exact .inl hpool
      · rcases List.mem_append.mp hpool with hpool | hfirst
        · exact .inl hpool
        · exact .inr (List.mem_cons.mpr (.inl (List.mem_singleton.mp hfirst)))
    · exact .inr (List.mem_cons_of_mem _ hrest)

theorem mem_operands {v : IR.Value} :
    v ∈ operands m ↔ ∃ f ∈ m.functions, ∃ inst ∈ f.insts, v ∈ inst.op.operands := by
  simp [operands, List.mem_flatMap]

/-- The pool consists of the structure constants that are used. -/
theorem mem_pool_iff {ty : IRType} {c : Constant} : (ty, c) ∈ m.pool ↔ m.Uses ty c := by
  constructor
  · intro h
    have hitems := (of_mem_foldl_addNew h).resolve_left List.not_mem_nil
    obtain ⟨⟨source, ty'⟩, hv, hitem⟩ := List.mem_filterMap.mp hitems
    obtain ⟨hsource, hstruct, hty⟩ := of_structConstant? hitem
    cases hsource
    cases hty
    exact ⟨hstruct, mem_operands.mp hv⟩
  · rintro ⟨hstruct, hv⟩
    refine mem_foldl_addNew (List.mem_filterMap.mpr ⟨⟨.const c, ty⟩, mem_operands.mpr hv, ?_⟩)
    simp [IR.Module.structConstant?, hstruct]

/-- The place of a constant that is used. -/
theorem Records.place (hrecords : image.Records layouts m globals) (h : image.Holds m globals m.pool)
    {ty : IRType} {c : Constant} (huses : m.Uses ty c) :
    ∃ index s, image.segmentOf? ty c = some index ∧ globals.length ≤ index ∧
      (globals ++ m.pool)[index]? = some (ty, c) ∧ image.segments[index]? = some s ∧
      image.addressOf? ty c = some s.offset := by
  have hmem := mem_pool_iff.mpr huses
  rw [← h.known] at hmem
  obtain ⟨placed, hplaced, hsame⟩ := List.mem_map.mp hmem
  cases hsame
  obtain ⟨i, hi⟩ := List.getElem?_of_mem hplaced
  obtain ⟨hindex, haddress⟩ := hrecords.found hi
  have hitem : (globals ++ m.pool)[image.globals.length + i]? = some (placed.ty, placed.constant) := by
    rw [hrecords.count, List.getElem?_append_right (Nat.le_add_right _ _), Nat.add_sub_cancel_left,
      ← h.known, List.getElem?_map, hi]
    rfl
  obtain ⟨s, _, hs, _⟩ := h.segment hitem
  have hoffset : (image.segments.map Wasm.Segment.offset)[image.globals.length + i]? =
      some placed.address := by
    rw [hrecords.addresses, List.getElem?_append_right (Nat.le_add_right _ _), Nat.add_sub_cancel_left,
      List.getElem?_map, hi]
    rfl
  rw [List.getElem?_map, hs, Option.map_some, Option.some.injEq] at hoffset
  rw [← hoffset] at haddress
  exact ⟨_, s, hindex, hrecords.count ▸ Nat.le_add_right _ _, hitem, hs, haddress⟩

theorem sized_of_mem_statics (htyped : m.Typed kinds) (hitem : item ∈ m.statics) :
    Sized m.structs item.1 := by
  rcases List.mem_append.mp hitem with hglobal | hpool
  · obtain ⟨g, hg, rfl⟩ := List.mem_map.mp hglobal
    exact .of_fits (htyped.globals g hg).2
  · obtain ⟨_, hoperand⟩ := mem_pool_iff.mp hpool
    exact .of_fits (htyped.operand_fits (mem_operands.mpr hoperand) rfl)

theorem complete_of_ok (htyped : m.Typed kinds)
    (hlayouts : Layouts.ofStructs m.structs = .ok layouts)
    (hdata : DataImage.ofModule layouts m = .ok data) : data.Complete layouts m := by
  obtain ⟨hknow, hholds⟩ := placed_of_ok htyped hlayouts hdata
  have hrecords := Records.ofModule hdata
  have hplaced : ∀ {index item}, m.statics[index]? = some item →
      ∃ s, data.segments[index]? = some s ∧ PlacedAs layouts m item s := fun hitem =>
    hrecords.placedAs hknow hholds hitem
      (sized_of_mem_statics htyped (List.mem_of_getElem? hitem))
  have hshared : ∀ {ty ty' c c'}, m.Uses ty c → m.Uses ty' c' →
      data.segmentOf? ty c = data.segmentOf? ty' c' → ty = ty' ∧ c = c' := by
    intro ty ty' c c' huses huses' hsame
    obtain ⟨index, _, hindex, _⟩ := hrecords.place hholds huses
    obtain ⟨placed, hplaced, rfl, rfl⟩ := of_segmentOf? hindex
    obtain ⟨placed', hplaced', rfl, rfl⟩ := of_segmentOf? (hsame ▸ hindex)
    cases hplaced.symm.trans hplaced'
    exact ⟨rfl, rfl⟩
  constructor
  case ordered => exact hholds.ordered
  case inside => exact hholds.inside
  case each =>
    refine List.forall₂_iff_get.mpr ⟨hholds.length_segments.symm, fun i hi hi' => ?_⟩
    obtain ⟨s, hs, hplacedAs⟩ := hplaced (List.getElem?_eq_getElem hi)
    obtain ⟨_, rfl⟩ := List.getElem?_eq_some_iff.mp hs
    exact hplacedAs
  case globals =>
    intro index g hg
    have hlt := (List.getElem?_eq_some_iff.mp hg).1
    have hitem : m.statics[index]? = some (g.ty, g.init) := by
      rw [IR.Module.statics, List.getElem?_append_left (by simpa using hlt), List.getElem?_map, hg]
      rfl
    obtain ⟨s, hs, hplacedAs⟩ := hplaced hitem
    refine ⟨s, hs, ?_, hplacedAs⟩
    have hoffset : (data.segments.map Wasm.Segment.offset)[index]? = some s.offset := by
      rw [List.getElem?_map, hs]
      rfl
    rwa [hrecords.addresses, List.getElem?_append_left] at hoffset
    rw [hrecords.count]
    simpa using hlt
  case constants =>
    intro ty c huses
    obtain ⟨index, s, hindex, hle, hitem, hs, haddress⟩ := hrecords.place hholds huses
    obtain ⟨s', hs', hplacedAs⟩ := hplaced hitem
    cases hs.symm.trans hs'
    exact ⟨index, s, hindex, by simpa using hle, hs, haddress, hplacedAs⟩
  case shared =>
    intro ty ty' c c' huses huses'
    refine ⟨hshared huses huses', ?_⟩
    rintro ⟨rfl, rfl⟩
    rfl
  case apart =>
    intro ty ty' c c' huses huses' hpos hpos'
    refine ⟨fun hsame => ?_, by rintro ⟨rfl, rfl⟩; rfl⟩
    obtain ⟨i, s, hi, _, hitem, hs, haddress⟩ := hrecords.place hholds huses
    obtain ⟨j, s', hj, _, hitem', hs', haddress'⟩ := hrecords.place hholds huses'
    rw [haddress, haddress', Option.some.injEq] at hsame
    refine hshared huses huses' (hi.trans ((congrArg some ?_).trans hj.symm))
    -- Two segments at one address would have a byte in common.
    by_contra hne
    have hlength := hholds.length_of_segment hitem hs
    have hlength' := hholds.length_of_segment hitem' hs'
    have happart := hholds.apart_of_ne hne hs hs'
    rw [hsame] at happart
    dsimp only at hlength hlength'
    omega

end DataImage

/-- The stack lies above the data and below the end of memory, and ends at a multiple of sixteen. -/
structure StackAbove (data : DataImage) (wasm : Wasm.Module) (base top : UInt32) : Prop where
  rounded : alignTo data.finish frameAlign = .ok base
  globals : wasm.globals = [top, top]
  above : data.finish.toNat ≤ base.toNat
  room : base.toNat ≤ top.toNat
  within : top.toNat ≤ wasm.pages * Wasm.pageBytes
  aligned : 16 ∣ top.toNat

theorem stackAbove_of_ok {stackPages : Nat} {top : UInt32} {wasm : Wasm.Module}
    (htop : stackTop data stackPages = .ok top) (hglobals : wasm.globals = [top, top])
    (hpages : wasm.pages = initialPages top) :
    ∃ base, StackAbove data wasm base top := by
  obtain ⟨base, hrounded, hend⟩ := of_stackTop htop
  have hbase : base.toNat = roundUp data.finish.toNat frameAlign.toNat :=
    ((alignTo_checked (by decide)).of_ok hrounded).2
  refine ⟨base, hrounded, hglobals, ?_, ?_, ?_, ?_⟩
  · rw [hbase]
    exact le_roundUp (by decide)
  · omega
  · rw [hpages]
    exact (initialPages_bounds top).2
  · rw [hend]
    have hdvd : frameAlign.toNat ∣ stackPages * pageSize.toNat := Dvd.dvd.mul_left (by decide) _
    exact (Nat.dvd_add_right hdvd).mpr (hbase ▸ dvd_roundUp _ _)

end Lowering

open Lowering

/-- The static data of a program that is lowered. The segments are placed in order, without a byte in common,
each at an address for its type; every global and every structure constant that an instruction uses has one,
with exactly its encoding; and two constants have the same just if they are the same, and of the same type.
Above the data, in memory, lies the stack. -/
theorem static_data_complete {units : List SourceUnit} {options : CompileOptions} {m : IR.Module}
    {stackPages : Nat} {wasm : Wasm.Module} (hbuild : (buildModule units options).result = .ok m)
    (hlower : lowerModule m stackPages = .ok wasm) :
    ∃ layouts data base top, Layouts.ofStructs m.structs = .ok layouts ∧
      DataImage.ofModule layouts m = .ok data ∧ wasm.data = data.segments ∧
      data.Complete layouts m ∧ StackAbove data wasm base top := by
  obtain ⟨kinds, htyped⟩ := typed_of_buildModule hbuild
  obtain ⟨layouts, data, top, exports, functions, hlayouts, hdata, htop, _, _, rfl⟩ :=
    of_lowerModule hlower
  obtain ⟨base, habove⟩ :
      ∃ base, StackAbove data ⟨functions, initialPages top, [top, top], exports, data.segments⟩ base top :=
    stackAbove_of_ok htop rfl rfl
  exact ⟨layouts, data, base, top, hlayouts, hdata, rfl,
    DataImage.complete_of_ok htyped hlayouts hdata, habove⟩

/-- A program that passes on one pair twice and another one once, and has a third one as a global. -/
def passing : SourceUnit where
  name := "passing"
  bytes := ("Pair: struct = (a: Int8, b: Int64)\nfirst: Pair = Pair(1, 2)\n" ++
    "take: (p: Pair) -> Int64 = \x7b\n  return p.b\n\x7d\n" ++
    "main: () -> Int64 = \x7b\n  return take(Pair(3, 4)) + take(Pair(3, 4)) + take(Pair(5, 6))\n\x7d\n"
    ).toList.map Char.toUInt8

/-- The two that are passed on have segments of their own, and there is no fourth. -/
theorem static_data_complete_passing :
    ∃ m wasm layouts data base top, (buildModule [passing] {}).result = .ok m ∧
      lowerModule m 16 = .ok wasm ∧ wasm.data = DataImage.segments data ∧ data.segments.length = 3 ∧
      data.Complete layouts m ∧ StackAbove data wasm base top ∧
      ∃ i j, data.segmentOf? (.struct "Pair") (.struct [.int 3, .int 4]) = some i ∧
        data.segmentOf? (.struct "Pair") (.struct [.int 5, .int 6]) = some j ∧ i ≠ j := by
  have hcheck : ∃ m, (buildModule [passing] {}).result = .ok m ∧ m.statics.length = 3 ∧
      (∃ f ∈ m.functions, ∃ inst ∈ f.insts,
        ⟨.const (.struct [.int 3, .int 4]), .struct "Pair"⟩ ∈ inst.op.operands) ∧
      (∃ f ∈ m.functions, ∃ inst ∈ f.insts,
        ⟨.const (.struct [.int 5, .int 6]), .struct "Pair"⟩ ∈ inst.op.operands) ∧
      ∃ wasm, lowerModule m 16 = .ok wasm := by decide +kernel
  obtain ⟨m, hbuild, hcount, huses, huses', wasm, hlower⟩ := hcheck
  obtain ⟨layouts, data, base, top, _, _, hsegments, hcomplete, hstack⟩ :=
    static_data_complete hbuild hlower
  obtain ⟨i, _, hi, _⟩ := hcomplete.constants ⟨rfl, huses⟩
  obtain ⟨j, _, hj, _⟩ := hcomplete.constants ⟨rfl, huses'⟩
  refine ⟨m, wasm, layouts, data, base, top, hbuild, hlower, hsegments,
    hcomplete.each.length_eq.symm.trans hcount, hcomplete, hstack, i, j, hi, hj, fun hsame => ?_⟩
  have hshared := (hcomplete.shared ⟨rfl, huses⟩ ⟨rfl, huses'⟩).mp (hi.trans (hsame ▸ hj.symm))
  simp at hshared

end Straightline
