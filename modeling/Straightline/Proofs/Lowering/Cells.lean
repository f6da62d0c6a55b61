import Straightline.Proofs.Lowering.StaticData
import Straightline.Proofs.Meaning.Computed

/-!
# Cells and bytes

Cells have places that have no byte in common: globals in the static data, slots of the function that is
executed in its frame, and models on the heap (`Places.Laid`). What is in a cell is stored at its place
(`Contents`), and the structure constants are where they were put (`ConstantsStored`).

The bytes that code may not write to while a function is executed are spared: the static data apart from
the globals, and the shadow stack from the frames of the callers on. No cell of the function is among them.
-/

set_option autoImplicit false

namespace Straightline

namespace IR.Module

open Lowering (nullGuard)

/-- Where the static data is put. -/
def staticOffsets (m : Module) : List Nat :=
  Space.offsets nullGuard.toNat (m.statics.map m.constantSpace)

/-- The types and addresses of the globals. -/
def globalPlaces (m : Module) : List (IRType × Nat) := (m.globals.map Global.ty).zip m.staticOffsets

section Statics

variable {m : Module} {i j a b : Nat} {item item' : IRType × Constant} {place : IRType × Nat}

theorem static_bounds (hitem : m.statics[i]? = some item) (ha : m.staticOffsets[i]? = some a) :
    nullGuard.toNat ≤ a ∧ a + m.sizeOf item.1 ≤ m.dataEnd := by
  have hspace : (m.statics.map m.constantSpace)[i]? = some (m.space item.1) := by
    rw [List.getElem?_map, hitem]
    rfl
  obtain ⟨hlow, hhigh⟩ := Space.offsets_bounds (m.aligned_constants _) hspace ha
  exact ⟨hlow, hhigh.trans (le_roundUp (by decide))⟩

theorem static_order (hij : i < j) (hitem : m.statics[i]? = some item)
    (ha : m.staticOffsets[i]? = some a) (hb : m.staticOffsets[j]? = some b) :
    a + m.sizeOf item.1 ≤ b := by
  have hspace : (m.statics.map m.constantSpace)[i]? = some (m.space item.1) := by
    rw [List.getElem?_map, hitem]
    rfl
  exact Space.offsets_disjoint (m.aligned_constants _) hij hspace ha hb

/-- The place of a global is where its constant was put. -/
theorem of_globalPlaces (h : m.globalPlaces[i]? = some place) :
    ∃ g, m.globals[i]? = some g ∧ place.1 = g.ty ∧ m.statics[i]? = some (g.ty, g.init) ∧
      m.staticOffsets[i]? = some place.2 := by
  obtain ⟨hty, ha⟩ := List.getElem?_zip_eq_some.mp h
  obtain ⟨g, hg, hty⟩ := Option.map_eq_some_iff.mp (List.getElem?_map ▸ hty)
  refine ⟨g, hg, hty.symm, ?_, ha⟩
  have hlt := (List.getElem?_eq_some_iff.mp hg).1
  rw [statics, List.getElem?_append_left (by simpa using hlt), List.getElem?_map, hg]
  rfl

theorem globalPlaces_of {g : Global} (hg : m.globals[i]? = some g) :
    ∃ a, m.globalPlaces[i]? = some (g.ty, a) ∧ m.staticOffsets[i]? = some a := by
  have hlt : i < m.staticOffsets.length := by
    have := (List.getElem?_eq_some_iff.mp hg).1
    rw [staticOffsets, Space.length_offsets, statics, List.length_map, List.length_append,
      List.length_map]
    omega
  refine ⟨m.staticOffsets[i], ?_, List.getElem?_eq_getElem hlt⟩
  refine List.getElem?_zip_eq_some.mpr ⟨?_, List.getElem?_eq_getElem hlt⟩
  rw [List.getElem?_map, hg]
  rfl

end Statics

end IR.Module

namespace Lowering

open IR (Address Base Datum Held Kept Kinds StructDef)

/-! ## Places of cells -/

/-- The address is one of the bytes of a place. -/
def Inside (m : IR.Module) (place : IRType × Nat) (x : Nat) : Prop :=
  place.2 ≤ x ∧ x < place.2 + m.sizeOf place.1

/-- Two places have no byte in common. -/
def Apart (m : IR.Module) (place place' : IRType × Nat) : Prop :=
  place.2 + m.sizeOf place.1 ≤ place'.2 ∨ place'.2 + m.sizeOf place'.1 ≤ place.2

theorem Apart.symm {m : IR.Module} {place place' : IRType × Nat} (h : Apart m place place') :
    Apart m place' place := Or.symm h

/-- Of things that are apart in pairs, any two are. -/
theorem apart_of_pairwise {m : IR.Module} {places : List (IRType × Nat)}
    (h : places.Pairwise (Apart m)) {i j : Nat} {place place' : IRType × Nat} (hne : i ≠ j)
    (hi : places[i]? = some place) (hj : places[j]? = some place') : Apart m place place' := by
  obtain ⟨hilt, rfl⟩ := List.getElem?_eq_some_iff.mp hi
  obtain ⟨hjlt, rfl⟩ := List.getElem?_eq_some_iff.mp hj
  rcases Nat.lt_or_gt_of_ne hne with hlt | hlt
  · exact List.pairwise_iff_getElem.mp h i j hilt hjlt hlt
  · exact (List.pairwise_iff_getElem.mp h j i hjlt hilt hlt).symm

/-- Where frames may be. They end at `top`, where the heap begins, and do not reach below `floor`: what
lies between the static data and there is left to those who call from outside. -/
structure StackBounds where
  floor : Nat
  top : Nat

/-- The bytes that nothing writes to from when the stack pointer was `low` until it is so again. -/
def Spared (m : IR.Module) (bounds : StackBounds) (low x : Nat) : Prop :=
  (x < bounds.floor ∧ ∀ place ∈ m.globalPlaces, ¬Inside m place x) ∨ (low ≤ x ∧ x < bounds.top)

/-- Globals lie in the data, slots in the frame from `low` to `high`, and models from the top of the
shadow stack to the end of the heap. -/
structure Places.Laid (p : Places) (m : IR.Module) (kinds : Kinds) (bounds : StackBounds)
    (low high finish : Nat) : Prop where
  globals : p.globals = m.globalPlaces
  slots : ∀ place ∈ p.slots, Held kinds place.1 ∧ low ≤ place.2 ∧ place.2 + m.sizeOf place.1 ≤ high
  slotsApart : p.slots.Pairwise (Apart m)
  models : ∀ place ∈ p.heap, (∃ name, kinds name = some .model ∧ place.1 = .struct name) ∧
    bounds.top ≤ place.2 ∧ place.2 + m.sizeOf place.1 ≤ finish
  modelsApart : p.heap.Pairwise (Apart m)
  data : m.dataEnd ≤ bounds.floor
  bottom : bounds.floor ≤ low
  frame : low ≤ high
  stack : high ≤ bounds.top
  heap : bounds.top ≤ finish

section Laid

variable {m : IR.Module} {kinds : Kinds} {p p' : Places} {bounds : StackBounds}
variable {low high finish : Nat}
variable {base base' : Base} {place place' : IRType × Nat} {x : Nat}

/-- Where a path leads from a structure there is a value. -/
theorem Places.Leads.held (htyped : m.Typed kinds) {root ty : IRType} {path : List Nat}
    {offset : Nat} (h : Places.Leads m root path ty offset) (hne : path ≠ []) : Held kinds ty := by
  induction h with
  | nil => exact absurd rfl hne
  | @cons name d index start offset ty ty' path hd hty _ hleads ih =>
    cases path with
    | nil =>
      cases hleads
      obtain ⟨hmem, rfl⟩ := IR.Module.of_structDef? hd
      obtain ⟨i, hi⟩ := List.getElem?_of_mem hmem
      exact ((htyped.structs i d hi).2 ty (List.mem_of_getElem? hty)).1
    | cons => exact ih (by simp)

namespace Places.Laid

/-- A cell is in one of the three regions. -/
theorem region (h : p.Laid m kinds bounds low high finish) (hat : p.at? base = some place) :
    (∃ i g, base = .global i ∧ m.globals[i]? = some g ∧ place.1 = g.ty ∧
      m.statics[i]? = some (g.ty, g.init) ∧ m.staticOffsets[i]? = some place.2 ∧
      place ∈ m.globalPlaces ∧ nullGuard.toNat ≤ place.2 ∧
      place.2 + m.sizeOf place.1 ≤ m.dataEnd) ∨
    (∃ i, base = .heap i ∧ p.heap[i]? = some place ∧ bounds.top ≤ place.2 ∧
      place.2 + m.sizeOf place.1 ≤ finish) ∨
    (∃ i, base = .slot i ∧ p.height ≤ i ∧ p.slots[i - p.height]? = some place ∧ low ≤ place.2 ∧
      place.2 + m.sizeOf place.1 ≤ high) := by
  cases base with
  | global i =>
    have hat : m.globalPlaces[i]? = some place := h.globals ▸ hat
    obtain ⟨g, hg, hty, hitem, ha⟩ := IR.Module.of_globalPlaces hat
    obtain ⟨hlow, hhigh⟩ := IR.Module.static_bounds hitem ha
    exact .inl ⟨i, g, rfl, hg, hty, hitem, ha, List.mem_of_getElem? hat, hlow, hty ▸ hhigh⟩
  | heap i =>
    have hat : p.heap[i]? = some place := hat
    exact .inr (.inl ⟨i, rfl, hat, (h.models place (List.mem_of_getElem? hat)).2⟩)
  | slot i =>
    unfold Places.at? at hat
    split at hat
    case h_1 j heq =>
      cases heq
      split at hat
      case isFalse => cases hat
      case isTrue hle =>
        exact .inr (.inr ⟨i, rfl, hle, hat, (h.slots place (List.mem_of_getElem? hat)).2⟩)
    case h_2 hne => exact absurd rfl (hne i)

/-- Every cell keeps something that can be kept. -/
theorem kept (htyped : m.Typed kinds) (h : p.Laid m kinds bounds low high finish)
    (hat : p.at? base = some place) : Kept kinds place.1 := by
  rcases h.region hat with ⟨i, g, _, hg, hty, _⟩ | ⟨i, _, hi, _⟩ | ⟨i, _, _, hi, _⟩
  · exact hty ▸ (htyped.globals g (List.mem_of_getElem? hg)).1
  · obtain ⟨⟨name, hname, hty⟩, _⟩ := h.models place (List.mem_of_getElem? hi)
    exact hty ▸ .contents hname
  · exact .held (h.slots place (List.mem_of_getElem? hi)).1

/-- The regions follow one another. -/
theorem ordered (h : p.Laid m kinds bounds low high finish) :
    m.dataEnd ≤ bounds.floor ∧ bounds.floor ≤ low ∧ low ≤ high ∧ high ≤ bounds.top ∧ bounds.top ≤ finish :=
  ⟨h.data, h.bottom, h.frame, h.stack, h.heap⟩

theorem bound (h : p.Laid m kinds bounds low high finish) (hat : p.at? base = some place) :
    place.2 + m.sizeOf place.1 ≤ finish := by
  have hordered := h.ordered
  rcases h.region hat with ⟨_, _, _, _, _, _, _, _, _, hhigh⟩ | ⟨_, _, _, _, hhigh⟩ |
    ⟨_, _, _, _, _, hhigh⟩ <;> omega

/-- Two cells have no byte in common. -/
theorem apart (h : p.Laid m kinds bounds low high finish) (hat : p.at? base = some place)
    (hat' : p.at? base' = some place') (hne : base ≠ base') : Apart m place place' := by
  have hordered := h.ordered
  unfold Apart
  rcases h.region hat with ⟨i, g, rfl, hg, hty, hitem, ha, _, hlow, hhigh⟩ |
    ⟨i, rfl, hi, hlow, hhigh⟩ | ⟨i, rfl, hle, hi, hlow, hhigh⟩ <;>
  rcases h.region hat' with ⟨j, g', rfl, hg', hty', hitem', ha', _, hlow', hhigh'⟩ |
    ⟨j, rfl, hj, hlow', hhigh'⟩ | ⟨j, rfl, hle', hj, hlow', hhigh'⟩
  case inl.inl =>
    have hij : i ≠ j := fun he => hne (congrArg Base.global he)
    rw [hty, hty']
    rcases Nat.lt_or_gt_of_ne hij with hlt | hlt
    · exact .inl (IR.Module.static_order hlt hitem ha ha')
    · exact .inr (IR.Module.static_order hlt hitem' ha' ha)
  case inr.inl.inr.inl =>
    exact apart_of_pairwise h.modelsApart (fun he => hne (congrArg Base.heap he)) hi hj
  case inr.inr.inr.inr =>
    exact apart_of_pairwise h.slotsApart (fun he => hne (congrArg Base.slot (by omega))) hi hj
  all_goals omega

/-- No cell is among the bytes that are spared. -/
theorem not_spared (h : p.Laid m kinds bounds low high finish) (hat : p.at? base = some place)
    (hx : Inside m place x) : ¬Spared m bounds high x := by
  have hordered := h.ordered
  obtain ⟨hlow', hhigh'⟩ := hx
  rintro (⟨hdata, hglobals⟩ | ⟨hstack, htop⟩) <;>
  rcases h.region hat with ⟨_, _, _, _, _, _, _, hmem, _, hhigh⟩ | ⟨_, _, _, hlow, _⟩ |
    ⟨_, _, _, _, hlow, hhigh⟩
  · exact hglobals place hmem ⟨hlow', hhigh'⟩
  all_goals omega

/-- The address of a model, and no other address, is that of a cell that lasts. -/
theorem lasting (htyped : m.Typed kinds) (h : p.Laid m kinds bounds low high finish) {a : Address}
    {ty : IRType} {target : Nat} (hheld : Held kinds (.ptr ty)) (hresolves : p.Resolves m a ty target) :
    p.Lasting a ty target := by
  obtain ⟨root, start, offset, hat, hleads, rfl⟩ := hresolves
  have hpath : a.path = [] := by
    by_contra hne
    exact hheld.not_held_pointee (hleads.held htyped hne)
  rw [hpath] at hleads
  cases hleads
  refine ⟨?_, hpath⟩
  rw [Nat.add_zero]
  obtain ⟨base, path⟩ := a
  cases base with
  | global | heap => exact hat
  | slot i =>
    rcases h.region hat with ⟨_, _, he, _⟩ | ⟨_, he, _⟩ | ⟨_, _, _, hi, _⟩
    · cases he
    · cases he
    · exact absurd (h.slots _ (List.mem_of_getElem? hi)).1 hheld.not_held_pointee

/-- A value that is kept has a number that lasts. -/
theorem numbered (htyped : m.Typed kinds) (h : p.Laid m kinds bounds low high finish) {ty : IRType}
    {d : Datum} {n : Int} (hkept : Kept kinds ty) (hn : Numbered (p.Resolves m) ty d n) :
    Numbered p.Lasting ty d n := by
  refine hn.imp fun a ty' target hty hresolves => ?_
  subst hty
  cases hkept with
  | held hheld => exact h.lasting htyped hheld hresolves

end Places.Laid

end Laid

/-! ## Contents -/

/-- What is in the cells is stored at their places. -/
structure Contents (m : IR.Module) (p : Places) (mem : IR.Memory) (byte : Nat → UInt8) : Prop where
  globals : mem.globals.length = p.globals.length
  heap : mem.heap.length = p.heap.length
  stack : mem.stack.length = p.height + p.slots.length
  cells : ∀ (base : Base) (place : IRType × Nat) (d : Datum), p.at? base = some place →
    mem.cell? base = some (some d) → Stored m p byte place.1 d place.2

/-- The structure constants are stored where they were put. -/
def ConstantsStored (m : IR.Module) (p : Places) (byte : Nat → UInt8) : Prop :=
  ∀ (i : Nat) (item : IRType × IR.Constant) (a : Nat), m.globals.length ≤ i →
    m.statics[i]? = some item → m.staticOffsets[i]? = some a →
    Stored m p byte item.1 item.2.datum a

section Contents

variable {m : IR.Module} {kinds : Kinds} {p p' : Places} {mem mem' : IR.Memory}
variable {byte byte' : Nat → UInt8} {base base' : Base} {d : Datum}

namespace Contents

/-- Contents stay as long as the bytes of the cells do. -/
theorem frame (htyped : m.Typed kinds) (h : Contents m p mem byte)
    (hbytes : ∀ base place, p.at? base = some place → ∀ x, Inside m place x → byte' x = byte x) :
    Contents m p mem byte' :=
  ⟨h.globals, h.heap, h.stack, fun base place d hat hcell =>
    (h.cells base place d hat hcell).frame htyped (.refl p) fun x hlow hhigh =>
      hbytes base place hat x ⟨hlow, hhigh⟩⟩

/-- What is loaded is stored at its address. -/
theorem load (h : Contents m p mem byte) {a : Address} {ty : IRType} {target : Nat}
    (hresolves : p.Resolves m a ty target) (hload : mem.load? a = some d) :
    Stored m p byte ty d target := by
  obtain ⟨root, start, offset, hat, hleads, rfl⟩ := hresolves
  unfold IR.Memory.load? at hload
  obtain ⟨cell, hcell, hload⟩ := Option.bind_eq_some_iff.mp hload
  obtain ⟨whole, rfl, hpart⟩ := Option.bind_eq_some_iff.mp hload
  exact (h.cells _ _ _ hat hcell).part hleads hpart

/-- What is stored lies within its cell. -/
theorem inside (htyped : m.Typed kinds) {a : Address} {ty : IRType} {target : Nat}
    (hresolves : p.Resolves m a ty target) :
    ∃ place, p.at? a.base = some place ∧ place.2 ≤ target ∧
      target + m.sizeOf ty ≤ place.2 + m.sizeOf place.1 := by
  obtain ⟨root, start, offset, hat, hleads, rfl⟩ := hresolves
  have hbound := hleads.bound htyped
  refine ⟨(root, start), hat, Nat.le_add_right _ _, ?_⟩
  rw [Nat.add_assoc]
  exact Nat.add_le_add_left hbound start

/-- Slots that have no place are not stored to. -/
theorem take_store {a : Address} {ty : IRType} {target : Nat} (hresolves : p.Resolves m a ty target)
    (h : mem.store? a d = some mem') : mem'.stack.take p.height = mem.stack.take p.height := by
  obtain ⟨whole, rfl, _⟩ := IR.Memory.of_store? h
  obtain ⟨root, start, _, hat, _⟩ := hresolves
  cases hbase : a.base with
  | global | heap => rfl
  | slot i =>
    rw [hbase] at hat
    unfold Places.at? at hat
    split at hat
    case h_2 hne => exact absurd rfl (hne i)
    case h_1 j heq =>
      cases heq
      split at hat
      case isFalse => cases hat
      case isTrue hle => exact List.take_set_of_le hle

/-- A cell that is stored to has what was stored, and the others have what they had. -/
theorem store (htyped : m.Typed kinds) (h : Contents m p mem byte)
    (hapart : ∀ base base' place place', p.at? base = some place → p.at? base' = some place' →
      base ≠ base' → Apart m place place')
    {a : Address} {ty : IRType} {target : Nat} (hresolves : p.Resolves m a ty target)
    (hstore : mem.store? a d = some mem') (hnew : Stored m p byte' ty d target)
    (hbytes : ∀ x, x < target ∨ target + m.sizeOf ty ≤ x → byte' x = byte x) :
    Contents m p mem' byte' := by
  obtain ⟨place, hat, hlow, hhigh⟩ := inside htyped hresolves
  obtain ⟨whole, rfl, hcell, hput⟩ := IR.Memory.of_store? hstore
  have hwhole : Stored m p byte' place.1 whole place.2 := by
    obtain ⟨root, start, offset, hat', hleads, rfl⟩ := hresolves
    cases hat.symm.trans hat'
    rcases hput with ⟨hpath, rfl⟩ | ⟨old, hold, hput⟩
    · rw [hpath] at hleads
      cases hleads
      exact hnew
    · exact (h.cells _ _ _ hat hold).put htyped hleads hput hnew hbytes
  refine ⟨?_, ?_, ?_, fun base place' d' hat' hcell' => ?_⟩
  · cases hbase : a.base <;> simp [IR.Memory.set, h.globals]
  · cases hbase : a.base <;> simp [IR.Memory.set, h.heap]
  · cases hbase : a.base <;> simp [IR.Memory.set, h.stack]
  · by_cases hbase : a.base = base
    · subst hbase
      cases hat.symm.trans hat'
      cases (IR.Memory.cell?_set_self hcell).symm.trans hcell'
      exact hwhole
    · rw [IR.Memory.cell?_set_ne hbase] at hcell'
      refine (h.cells _ _ _ hat' hcell').frame htyped (.refl p) fun x hx hx' => hbytes x ?_
      have := hapart _ _ _ _ hat hat' hbase
      unfold Apart at this
      omega

end Contents

/-- The constants are spared. -/
theorem constant_spared {bounds : StackBounds} {i a low : Nat} {item : IRType × IR.Constant}
    (hdata : m.dataEnd ≤ bounds.floor) (hi : m.globals.length ≤ i)
    (hitem : m.statics[i]? = some item) (ha : m.staticOffsets[i]? = some a) {x : Nat}
    (hx : Inside m (item.1, a) x) : Spared m bounds low x := by
  obtain ⟨_, hhigh⟩ := IR.Module.static_bounds hitem ha
  refine .inl ⟨hx.2.trans_le (hhigh.trans hdata), fun place hplace hin => ?_⟩
  obtain ⟨j, hj⟩ := List.getElem?_of_mem hplace
  obtain ⟨g, hg, hty, hitem', ha'⟩ := IR.Module.of_globalPlaces hj
  have hlt := (List.getElem?_eq_some_iff.mp hg).1
  have horder := IR.Module.static_order (Nat.lt_of_lt_of_le hlt hi) hitem' ha' ha
  obtain ⟨_, hin⟩ := hin
  obtain ⟨hx, _⟩ := hx
  rw [hty] at hin
  simp only at horder hx
  omega

theorem ConstantsStored.frame (htyped : m.Typed kinds) (h : ConstantsStored m p byte)
    (hbefore : p.Before p') {bounds : StackBounds} (hdata : m.dataEnd ≤ bounds.floor) (low : Nat)
    (hbytes : ∀ x, Spared m bounds low x → byte' x = byte x) :
    ConstantsStored m p' byte' := fun i item a hi hitem ha =>
  (h i item a hi hitem ha).frame htyped hbefore fun x hlow hhigh =>
    hbytes x (constant_spared hdata hi hitem ha ⟨hlow, hhigh⟩)

end Contents

end Lowering

end Straightline
