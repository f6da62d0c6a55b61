import Straightline.Proofs.Lowering.Checked

/-!
# Layouts in words

Structures that are declared before they are used, of fields that can be placed, all have layouts if they
fit, and lowering is stopped if one does not (`IR.Module.ofStructs_checked`). The words of the layouts are
the sizes and offsets in the natural numbers. So it is with all structures of a well-typed module
(`IR.Module.Typed.ofStructs_checked`). The structures are taken in the order of their declaration: the
fields of each are of types that have a layout by then.
-/

set_option autoImplicit false

namespace Straightline.Lowering

open IR (mem_widths widths Kinds Kept)

theorem toNat_max (a b : UInt32) : (max a b).toNat = max a.toNat b.toNat := by
  rw [UInt32.max_def]
  simp only [UInt32.le_iff_toNat_le]
  split <;> omega

/-! ## Extents -/

/-- The extent is the space, in words. -/
structure Extent.Is (e : Extent) (s : Space) : Prop where
  size : e.size.toNat = s.size
  align : e.align.toNat = s.align

/-- The types that have a size when these structures are declared. -/
inductive Sized (structs : List IR.StructDef) : IRType → Prop where
  | int {bits : Nat} : bits ∈ widths → Sized structs (.int bits)
  | ptr {ty : IRType} : Sized structs (.ptr ty)
  | struct {d : IR.StructDef} : d ∈ structs → Sized structs (.struct d.name)

/-- The types that something in memory can have, once every structure that is named is declared. -/
def Placeable : IRType → Prop
  | .int bits => bits ≤ 8 ∨ bits = 16 ∨ bits = 32 ∨ bits = 64
  | .ptr _ | .struct _ => True
  | .void => False

theorem Sized.ne_void {structs : List IR.StructDef} {ty : IRType} (h : Sized structs ty) : ty ≠ .void := by
  rintro rfl
  cases h

theorem Sized.placeable {structs : List IR.StructDef} {ty : IRType} (h : Sized structs ty) :
    Placeable ty := by
  cases h with
  | int hbits =>
    rw [mem_widths] at hbits
    simp only [Placeable]
    omega
  | ptr | struct => trivial

namespace Layouts

variable {layouts : Layouts} {m : IR.Module} {structs : List IR.StructDef}

/-- The layouts of these structures are those of the module. -/
def Know (layouts : Layouts) (m : IR.Module) (structs : List IR.StructDef) : Prop :=
  ∀ d ∈ structs, ∃ layout, layouts.get d.name = .ok layout ∧
    layout.extent.Is (m.space (.struct d.name)) ∧
    layout.offsets.map UInt32.toNat = m.fieldOffsets d

/-- What can be placed has an extent, which is its space. -/
theorem Know.extent_of_placeable (h : layouts.Know m structs) {ty : IRType} (hty : Placeable ty)
    (hdeclared : ∀ name, ty = .struct name → ∃ d ∈ structs, d.name = name) :
    ∃ e, layouts.extent ty = .ok e ∧ e.Is (m.space ty) := by
  cases ty with
  | int bits =>
    rcases hty with hbits | rfl | rfl | rfl
    · have hone : m.space (.int bits) = ⟨1, 1⟩ := by
        have : max 1 (bits / 8) = 1 := by omega
        simp only [IR.Module.space, Space.ofType, this]
      exact ⟨⟨1, 1⟩, by simp [Layouts.extent, hbits], hone ▸ ⟨rfl, rfl⟩⟩
    all_goals exact ⟨_, rfl, rfl, rfl⟩
  | ptr => exact ⟨_, rfl, rfl, rfl⟩
  | struct name =>
    obtain ⟨d, hd, rfl⟩ := hdeclared name rfl
    obtain ⟨layout, hget, hextent, _⟩ := h d hd
    exact ⟨layout.extent, by simp [Layouts.extent, hget, bind, Except.bind, pure, Except.pure],
      hextent⟩
  | void => exact absurd hty id

theorem Know.extent (h : layouts.Know m structs) {ty : IRType} (hty : Sized structs ty) :
    ∃ e, layouts.extent ty = .ok e ∧ e.Is (m.space ty) := by
  refine h.extent_of_placeable hty.placeable ?_
  rintro name rfl
  cases hty with
  | struct hd => exact ⟨_, hd, rfl⟩

section Placing

variable {e : Extent} {s : Space} {offset start : UInt32}

theorem start_checked (he : e.Is s) (hs : 0 < s.align) :
    Checked (alignTo offset e.align) (s.start offset.toNat < UInt32.size) fun start =>
      start.toNat = s.start offset.toNat := by
  rw [Space.start, ← he.align]
  exact alignTo_checked (he.align ▸ hs)

theorem stop_checked (he : e.Is s) (hstart : start.toNat = s.start offset.toNat) :
    Checked (addWords start e.size) (s.stop offset.toNat < UInt32.size) fun stop =>
      stop.toNat = s.stop offset.toNat := by
  rw [Space.stop, ← hstart, ← he.size]
  exact addWords_checked

/-- Something is placed where it is without a bound. -/
theorem place_checked {α : Type} {k : UInt32 → UInt32 → Except Fault α} {fits : Prop} {is : α → Prop}
    (he : e.Is s) (hs : 0 < s.align) (hk : ∀ start stop : UInt32, start.toNat = s.start offset.toNat →
      stop.toNat = s.stop offset.toNat → Checked (k start stop) fits is) :
    Checked (do
      let start ← alignTo offset e.align
      let stop ← addWords start e.size
      k start stop) (s.stop offset.toNat < UInt32.size ∧ fits) is := by
  refine ((start_checked he hs).bind fun start hstart => (stop_checked he hstart).bind fun stop hstop =>
    hk start stop hstart hstop).imp ?_ fun _ h => h
  have hle : s.start offset.toNat ≤ s.stop offset.toNat := Nat.le_add_right _ _
  exact ⟨fun h => h.2, fun h => ⟨Nat.lt_of_le_of_lt hle h.1, h⟩⟩

/-- So much is taken from the heap as is without a bound. -/
theorem heapSize_checked {ty : IRType} (he : e.Is (m.space ty)) :
    Checked (heapSize e) (m.modelSize ty < UInt32.size) fun size => size.toNat = m.modelSize ty := by
  have hmax : (max e.size 1).toNat = max (m.sizeOf ty) 1 := by
    rw [toNat_max, he.size]
    rfl
  rw [IR.Module.modelSize, ← hmax]
  exact alignTo_checked (by decide)

end Placing

/-- Types whose extents are known are placed where they are without a bound. -/
theorem placeFields_checked {tys : List IRType}
    (htys : ∀ ty ∈ tys, ∃ e, layouts.extent ty = .ok e ∧ e.Is (m.space ty)) (offset align : UInt32) :
    Checked (layouts.placeFields offset align tys)
      (Space.stops offset.toNat (tys.map m.space) < UInt32.size) fun placed =>
        placed.1.size.toNat = Space.stops offset.toNat (tys.map m.space) ∧
        placed.1.align.toNat = Space.widest align.toNat (tys.map m.space) ∧
        placed.2.map UInt32.toNat = Space.offsets offset.toNat (tys.map m.space) := by
  induction tys generalizing offset align with
  | nil => exact .done_of offset.toNat_lt ⟨rfl, rfl, rfl⟩
  | cons ty rest ih =>
    obtain ⟨e, hextent, he⟩ := htys ty List.mem_cons_self
    have hle : (m.space ty).stop offset.toNat ≤
        Space.stops ((m.space ty).stop offset.toNat) (rest.map m.space) := Space.le_stops (m.aligned rest)
    refine .ok_bind hextent ((place_checked he (m.space_align_pos ty) fun start next hstart hnext => by
      have hrest := ih (fun ty' hty' => htys ty' (List.mem_cons_of_mem _ hty')) next (max align e.align)
      rw [hnext, toNat_max, he.align] at hrest
      refine hrest.bind fun placed hplaced => .done ⟨hplaced.1, hplaced.2.1, ?_⟩
      rw [List.map_cons, hstart, hplaced.2.2, List.map_cons, Space.offsets]).imp ?_ fun _ h => h)
    rw [List.map_cons, Space.stops_cons, and_true]
    exact ⟨fun h => h.2, fun h => ⟨Nat.lt_of_le_of_lt hle h, h⟩⟩

theorem ofFields_checked {tys : List IRType}
    (htys : ∀ ty ∈ tys, ∃ e, layouts.extent ty = .ok e ∧ e.Is (m.space ty)) :
    Checked (layouts.ofFields tys) ((Space.whole (tys.map m.space)).size < UInt32.size) fun layout =>
      layout.extent.Is (.whole (tys.map m.space)) ∧
        layout.offsets.map UInt32.toNat = Space.offsets 0 (tys.map m.space) := by
  refine ((placeFields_checked htys 0 1).bind fun placed hplaced => by
    obtain ⟨hsize, halign, hoffsets⟩ := hplaced
    have haligned : Checked (alignTo placed.1.size placed.1.align) _ _ :=
      alignTo_checked (halign ▸ Space.whole_align_pos _)
    rw [hsize, halign] at haligned
    exact haligned.bind fun size hsize => .done ⟨⟨hsize, halign⟩, hoffsets⟩).imp ?_ fun _ h => h
  rw [and_true]
  exact ⟨fun h => h.2, fun h => ⟨Nat.lt_of_le_of_lt (Space.stops_le_whole _) h, h⟩⟩

theorem ofStructs_concat (structs : List IR.StructDef) (d : IR.StructDef) :
    ofStructs (structs ++ [d]) = (do
      let layouts ← ofStructs structs
      let layout ← layouts.ofFields d.fields
      return (d.name, layout) :: layouts) := by
  simp [ofStructs, List.foldlM_append]

theorem get_cons_self (name : String) (layout : StructLayout) :
    get ((name, layout) :: layouts) name = .ok layout := by simp [get]

theorem get_cons_of_ne {name name' : String} (layout : StructLayout) (h : name' ≠ name) :
    get ((name, layout) :: layouts) name' = layouts.get name' := by
  simp [get, beq_false_of_ne h.symm]

end Layouts

/-! ## Modules -/

section Modules

variable {m : IR.Module} {kinds : Kinds} {ty : IRType}

theorem Sized.of_kept (htyped : m.Typed kinds) (h : Kept kinds ty) : Sized m.structs ty := by
  have hstruct : ∀ {name k}, kinds name = some k → Sized m.structs (.struct name) := by
    intro name k hk
    obtain ⟨d, hd⟩ := htyped.declared name k hk
    obtain ⟨hmem, rfl⟩ := IR.Module.of_structDef? hd
    exact .struct hmem
  cases h with
  | held h =>
    cases h with
    | int hbits => exact .int hbits
    | struct hk => exact hstruct hk
    | model => exact .ptr
  | contents hk => exact hstruct hk

end Modules

end Straightline.Lowering

namespace Straightline.IR.Module

open Lowering

variable {m : Module} {kinds : Kinds}

/-- Structures of types that can be placed all have layouts if they fit, and are stopped at otherwise. -/
theorem ofStructs_checked (hdeclared : DeclaredInOrder m.structs)
    (hplaceable : ∀ d ∈ m.structs, ∀ ty ∈ d.fields, Placeable ty) :
    Checked (Layouts.ofStructs m.structs) (∀ d ∈ m.structs, m.sizeOf (.struct d.name) < UInt32.size)
      fun layouts => layouts.Know m m.structs := by
  suffices hprefix : ∀ earlier later, m.structs = earlier ++ later →
      Checked (Layouts.ofStructs earlier) (∀ d ∈ earlier, m.sizeOf (.struct d.name) < UInt32.size)
        fun layouts => layouts.Know m earlier from
    hprefix m.structs [] (List.append_nil _).symm
  intro earlier
  induction earlier using List.reverseRecOn with
  | nil => exact fun _ _ => .done_of (fun _ hd => nomatch hd) fun _ hd => nomatch hd
  | append_singleton earlier d ih =>
    intro later hsplit
    rw [List.append_assoc, List.singleton_append] at hsplit
    have hd : m.structs[earlier.length]? = some d := by
      rw [hsplit, List.getElem?_append_right (Nat.le_refl _), Nat.sub_self, List.getElem?_cons_zero]
    have hmem := List.mem_of_getElem? hd
    have hspace := space_struct hdeclared hd
    rw [Layouts.ofStructs_concat, List.forall_mem_append, List.forall_mem_singleton, sizeOf, hspace]
    refine (ih _ hsplit).bind fun layouts hknow => ?_
    have hextents : ∀ ty ∈ d.fields, ∃ e, layouts.extent ty = .ok e ∧ e.Is (m.space ty) := by
      intro ty hty
      refine hknow.extent_of_placeable (hplaceable d hmem ty hty) ?_
      rintro name rfl
      obtain ⟨j, d', hj, hd', hname⟩ := hdeclared.earlier _ d hd name hty
      rw [hsplit, List.getElem?_append_left hj] at hd'
      exact ⟨d', List.mem_of_getElem? hd', hname⟩
    refine ((Layouts.ofFields_checked hextents).bind fun layout hlayout => .done fun d' hd' => ?_).imp
      (iff_of_eq (and_true _)) fun _ h => h
    rcases List.mem_append.mp hd' with hd' | hd'
    · have hne : d'.name ≠ d.name := by
        have hnames := hdeclared.names
        rw [hsplit, List.map_append, List.nodup_append] at hnames
        exact hnames.2.2 _ (List.mem_map_of_mem hd') _ (by simp)
      rw [Layouts.get_cons_of_ne _ hne]
      exact hknow d' hd'
    · cases List.mem_singleton.mp hd'
      exact ⟨layout, Layouts.get_cons_self _ _, hspace ▸ hlayout.1, hlayout.2⟩

theorem Typed.placeable (h : m.Typed kinds) {d : StructDef} (hd : d ∈ m.structs) {ty : IRType}
    (hty : ty ∈ d.fields) : Placeable ty := by
  obtain ⟨i, hi⟩ := List.getElem?_of_mem hd
  exact (Sized.of_kept h (.held ((h.structs i d hi).2 ty hty).1)).placeable

theorem Typed.ofStructs_checked (h : m.Typed kinds) :
    Checked (Layouts.ofStructs m.structs) (∀ d ∈ m.structs, m.sizeOf (.struct d.name) < UInt32.size)
      fun layouts => layouts.Know m m.structs :=
  IR.Module.ofStructs_checked h.declaredInOrder fun _ hd _ hty => h.placeable hd hty

end Straightline.IR.Module
