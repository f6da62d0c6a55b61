import Mathlib.Algebra.GroupWithZero.Divisibility
import Mathlib.Algebra.GroupWithZero.Nat
import Mathlib.Order.Bounds.Defs
import Straightline.Proofs.Lowering.Inversion
import Straightline.Proofs.Lowering.Layouts

/-!
# The rules of C

A structure is laid out as C lays it out (`StructLayout.FollowsCRules`): each field at the next multiple
of its alignment, the whole aligned like the field of the largest alignment, and its size rounded up to
that. The alignments are powers of two, so a larger one is a multiple of a smaller one; that is why what
is deeper inside is aligned wherever the whole is (`Layouts.Leads.aligned`).

The rules are said of the words that lowering computes. They are proved of the sizes without a bound, which
these words are wherever there is a layout (`layouts_follow_c_rules`).
-/

set_option autoImplicit false

namespace Straightline

/-- A list of steps that each come to a result of this kind comes to such results. -/
theorem Except.mapM_related {ε α β : Type} {R : β → α → Prop} {f : α → Except ε β} {l : List α}
    (h : ∀ a ∈ l, ∃ b, f a = .ok b ∧ R b a) : ∃ bs, l.mapM f = .ok bs ∧ List.Forall₂ R bs l := by
  induction l with
  | nil => exact ⟨[], rfl, .nil⟩
  | cons a rest ih =>
    obtain ⟨b, hb, hr⟩ := h a List.mem_cons_self
    obtain ⟨bs, hbs, hrs⟩ := ih fun a' ha' => h a' (List.mem_cons_of_mem _ ha')
    refine ⟨b :: bs, ?_, .cons hr hrs⟩
    rw [List.mapM_cons, hb]
    simp [hbs, bind, Except.bind, pure, Except.pure]

/-! ## Multiples -/

theorem dvd_roundUp (n align : Nat) : align ∣ roundUp n align := Nat.dvd_mul_left _ _

/-- Rounding up gives the least multiple. -/
theorem isLeast_roundUp {n align : Nat} (h : 0 < align) :
    IsLeast {k | align ∣ k ∧ n ≤ k} (roundUp n align) := by
  refine ⟨⟨dvd_roundUp n align, le_roundUp h⟩, ?_⟩
  rintro k ⟨⟨quotient, rfl⟩, hle⟩
  unfold roundUp
  rw [Nat.mul_comm align quotient]
  apply Nat.mul_le_mul_right
  rw [Nat.div_le_iff_le_mul h]
  rw [Nat.mul_comm] at hle
  omega

/-- The alignments that there are. -/
def alignments : List Nat := [1, 2, 4, 8]

theorem pos_of_mem_alignments : ∀ a ∈ alignments, 0 < a := by decide

/-- Of two alignments the larger is a multiple of the smaller. -/
theorem dvd_of_mem_alignments : ∀ a ∈ alignments, ∀ b ∈ alignments, a ≤ b → a ∣ b := by decide

/-! ## Spaces -/

namespace Space

variable {s : Space} {spaces : List Space} {offset index start : Nat}

/-- Each is placed where those before it end, or at the next multiple of its alignment. -/
theorem eq_start_of_offsets (hs : spaces[index]? = some s)
    (hstart : (offsets offset spaces)[index]? = some start) :
    start = s.start (stops offset (spaces.take index)) := by
  induction spaces generalizing offset index with
  | nil => simp at hs
  | cons first rest ih =>
    cases index with
    | zero =>
      cases hs
      cases hstart
      rfl
    | succ index =>
      rw [List.take_succ_cons, stops_cons]
      exact ih hs hstart

theorem stops_take_succ (hs : spaces[index]? = some s) :
    stops offset (spaces.take (index + 1)) = s.stop (stops offset (spaces.take index)) := by
  rw [List.take_succ_eq_append_getElem (List.getElem?_eq_some_iff.mp hs).1, stops_append,
    (List.getElem?_eq_some_iff.mp hs).2]
  rfl

theorem le_widest_of_mem {align : Nat} (hs : s ∈ spaces) : s.align ≤ widest align spaces := by
  induction spaces generalizing align with
  | nil => cases hs
  | cons first rest ih =>
    rcases List.mem_cons.mp hs with rfl | hs
    · exact (Nat.le_max_right _ _).trans le_widest
    · exact ih hs

theorem widest_eq_or_mem (align : Nat) (spaces : List Space) :
    widest align spaces = align ∨ ∃ s ∈ spaces, s.align = widest align spaces := by
  induction spaces generalizing align with
  | nil => exact .inl rfl
  | cons first rest ih =>
    change widest (max align first.align) rest = _ ∨
      ∃ s ∈ first :: rest, s.align = widest (max align first.align) rest
    rcases ih (max align first.align) with h | ⟨s, hs, h⟩
    · rw [h]
      rcases Nat.le_total align first.align with hle | hle
      · exact .inr ⟨first, List.mem_cons_self, (Nat.max_eq_right hle).symm⟩
      · exact .inl (Nat.max_eq_left hle)
    · exact .inr ⟨s, List.mem_cons_of_mem _ hs, h⟩

/-- The largest alignment is one of them, if there are any. -/
theorem exists_widest (h : Aligned spaces) (hne : spaces ≠ []) :
    ∃ s ∈ spaces, s.align = widest 1 spaces := by
  rcases widest_eq_or_mem 1 spaces with hone | hmem
  · obtain ⟨s, hs⟩ := List.exists_mem_of_ne_nil spaces hne
    have hpos := h s hs
    have hle : s.align ≤ widest 1 spaces := le_widest_of_mem hs
    exact ⟨s, hs, by omega⟩
  · exact hmem

theorem whole_align_mem (h : ∀ s ∈ spaces, s.align ∈ alignments) :
    (whole spaces).align ∈ alignments := by
  change widest 1 spaces ∈ alignments
  rcases widest_eq_or_mem 1 spaces with hone | ⟨s, hs, halign⟩
  · rw [hone]
    exact List.mem_cons_self
  · rw [← halign]
    exact h s hs

theorem ofType_align_mem {structs : String → Space} (h : ∀ name, (structs name).align ∈ alignments)
    {ty : IRType} (hty : Lowering.Placeable ty) : (ofType structs ty).align ∈ alignments := by
  cases ty with
  | int bits =>
    rcases hty with hbits | rfl | rfl | rfl
    · have hone : max 1 (bits / 8) = 1 := by omega
      simp [ofType, hone, alignments]
    all_goals simp [ofType, alignments]
  | ptr => exact (by decide : 4 ∈ alignments)
  | struct name => exact h name
  | void => exact absurd hty id

theorem ofStructs_align_mem {structs : List IR.StructDef}
    (h : ∀ d ∈ structs, ∀ ty ∈ d.fields, Lowering.Placeable ty) (name : String) :
    (ofStructs structs name).align ∈ alignments := by
  induction structs using List.reverseRecOn generalizing name with
  | nil => exact List.mem_cons_self
  | append_singleton structs d ih =>
    have hstructs := ih fun d' hd' => h d' (List.mem_append_left _ hd')
    rw [ofStructs_concat]
    split
    · refine whole_align_mem fun s hs => ?_
      obtain ⟨ty, hty, rfl⟩ := List.mem_map.mp hs
      exact ofType_align_mem hstructs (h d (by simp) ty hty)
    · exact hstructs name

end Space

namespace Lowering

open IR (DeclaredInOrder StructDef)

/-! ## One structure -/

namespace StructLayout

/-- Where the field before this one ends; where the structure begins, if there is none. -/
def endBefore (layout : StructLayout) (fields : List Extent) : (index : Nat) → Nat
  | 0 => 0
  | index + 1 =>
    match layout.offsets[index]?, fields[index]? with
    | some start, some field => start.toNat + field.size.toNat
    | _, _ => 0

/-- The rules of C for a structure of such fields. -/
structure FollowsCRules (layout : StructLayout) (fields : List Extent) : Prop where
  count : layout.offsets.length = fields.length
  least : ∀ {index : Nat} {field : Extent} {start : UInt32}, fields[index]? = some field →
    layout.offsets[index]? = some start →
    IsLeast {n | field.align.toNat ∣ n ∧ layout.endBefore fields index ≤ n} start.toNat
  apart : ∀ {index later : Nat} {field : Extent} {start start' : UInt32}, index < later →
    fields[index]? = some field → layout.offsets[index]? = some start →
    layout.offsets[later]? = some start' → start.toNat + field.size.toNat ≤ start'.toNat
  inside : ∀ {index : Nat} {field : Extent} {start : UInt32}, fields[index]? = some field →
    layout.offsets[index]? = some start →
    start.toNat + field.size.toNat ≤ layout.extent.size.toNat
  empty : fields = [] → layout.extent.align.toNat = 1
  greatest : fields ≠ [] →
    IsGreatest {a | ∃ field ∈ fields, field.align.toNat = a} layout.extent.align.toNat
  align : layout.extent.align.toNat ∈ alignments
  size : IsLeast {n | layout.extent.align.toNat ∣ n ∧ layout.endBefore fields fields.length ≤ n}
    layout.extent.size.toNat

variable {layout : StructLayout} {fields : List Extent} {spaces : List Space}

theorem offset_of_field (hoffsets : layout.offsets.map UInt32.toNat = Space.offsets 0 spaces)
    {index : Nat} {start : UInt32} (hstart : layout.offsets[index]? = some start) :
    (Space.offsets 0 spaces)[index]? = some start.toNat := by
  rw [← hoffsets, List.getElem?_map, hstart]
  rfl

/-- What is before a field ends where it does without a bound. -/
theorem endBefore_eq (hfields : List.Forall₂ Extent.Is fields spaces)
    (hoffsets : layout.offsets.map UInt32.toNat = Space.offsets 0 spaces) {index : Nat}
    (hindex : index ≤ fields.length) :
    layout.endBefore fields index = Space.stops 0 (spaces.take index) := by
  cases index with
  | zero => rfl
  | succ index =>
    have hcount := congrArg List.length hoffsets
    rw [List.length_map, Space.length_offsets, ← hfields.length_eq] at hcount
    have hfield := List.getElem?_eq_getElem hindex
    obtain ⟨s, hs, his⟩ := forall₂_getElem? hfields hfield
    have hstart := List.getElem?_eq_getElem (l := layout.offsets) (i := index) (by omega)
    rw [Space.stops_take_succ hs, Space.stop,
      ← Space.eq_start_of_offsets hs (offset_of_field hoffsets hstart), ← his.size]
    simp only [endBefore, hstart, hfield]

/-- A layout that is the whole of its fields without a bound follows the rules. -/
theorem followsCRules (hfields : List.Forall₂ Extent.Is fields spaces)
    (haligns : ∀ s ∈ spaces, s.align ∈ alignments) (hextent : layout.extent.Is (.whole spaces))
    (hoffsets : layout.offsets.map UInt32.toNat = Space.offsets 0 spaces) :
    layout.FollowsCRules fields := by
  have haligned : Space.Aligned spaces := fun s hs => pos_of_mem_alignments _ (haligns s hs)
  have hwhole : layout.extent.align.toNat = Space.widest 1 spaces := hextent.align
  constructor
  case count =>
    have hcount := congrArg List.length hoffsets
    rwa [List.length_map, Space.length_offsets, ← hfields.length_eq] at hcount
  case least =>
    intro index field start hfield hstart
    obtain ⟨s, hs, his⟩ := forall₂_getElem? hfields hfield
    have hle := Nat.le_of_lt (List.getElem?_eq_some_iff.mp hfield).1
    rw [endBefore_eq hfields hoffsets hle, his.align,
      Space.eq_start_of_offsets hs (offset_of_field hoffsets hstart)]
    exact isLeast_roundUp (haligned s (List.mem_of_getElem? hs))
  case apart =>
    intro index later field start start' hlt hfield hstart hstart'
    obtain ⟨s, hs, his⟩ := forall₂_getElem? hfields hfield
    rw [his.size]
    exact Space.offsets_disjoint haligned hlt hs (offset_of_field hoffsets hstart)
      (offset_of_field hoffsets hstart')
  case inside =>
    intro index field start hfield hstart
    obtain ⟨s, hs, his⟩ := forall₂_getElem? hfields hfield
    obtain ⟨_, hstop⟩ := Space.offsets_bounds haligned hs (offset_of_field hoffsets hstart)
    rw [his.size, hextent.size]
    exact hstop.trans (Space.stops_le_whole _)
  case empty =>
    rintro rfl
    cases hfields
    exact hwhole
  case greatest =>
    intro hne
    rw [hwhole]
    constructor
    -- The alignment of the whole is that of a widest field, and there is one as there are fields.
    · have hspaces : spaces ≠ [] := by
        rintro rfl
        exact hne (List.forall₂_nil_right_iff.mp hfields)
      obtain ⟨s, hs, halign⟩ := Space.exists_widest haligned hspaces
      obtain ⟨index, hindex⟩ := List.getElem?_of_mem hs
      obtain ⟨field, hfield, his⟩ := forall₂_getElem? hfields.flip hindex
      exact ⟨field, List.mem_of_getElem? hfield, his.align.trans halign⟩
    · rintro _ ⟨field, hfield, rfl⟩
      obtain ⟨index, hindex⟩ := List.getElem?_of_mem hfield
      obtain ⟨s, hs, his⟩ := forall₂_getElem? hfields hindex
      rw [his.align]
      exact Space.le_widest_of_mem (List.mem_of_getElem? hs)
  case align =>
    rw [hextent.align]
    exact Space.whole_align_mem haligns
  case size =>
    have htake : spaces.take fields.length = spaces := by
      rw [hfields.length_eq, List.take_length]
    rw [endBefore_eq hfields hoffsets (Nat.le_refl _), htake, hextent.size, hextent.align]
    exact isLeast_roundUp (Space.whole_align_pos spaces)

end StructLayout

/-! ## Structures within structures -/

namespace Layouts

variable {layouts : Layouts} {structs : List StructDef} {m : IR.Module}

/-- A path of numbers of fields leads from a type to one inside it, so many bytes behind its
beginning. -/
inductive Leads (layouts : Layouts) (structs : List StructDef) :
    IRType → List Nat → IRType → Nat → Prop where
  | here {ty : IRType} : Leads layouts structs ty [] ty 0
  | field {d : StructDef} {layout : StructLayout} {index offset : Nat} {start : UInt32}
      {ty ty' : IRType} {path : List Nat} : d ∈ structs → layouts.get d.name = .ok layout →
      d.fields[index]? = some ty → layout.offsets[index]? = some start →
      Leads layouts structs ty path ty' offset →
      Leads layouts structs (.struct d.name) (index :: path) ty' (start.toNat + offset)

/-- The extent of a field of a structure that is declared. -/
theorem Know.field (hknow : layouts.Know m m.structs) (hdeclared : DeclaredInOrder m.structs)
    (hplaceable : ∀ d ∈ m.structs, ∀ ty ∈ d.fields, Placeable ty) {d : StructDef}
    (hd : d ∈ m.structs) {ty : IRType} (hty : ty ∈ d.fields) :
    ∃ e, layouts.extent ty = .ok e ∧ e.Is (m.space ty) := by
  obtain ⟨i, hi⟩ := List.getElem?_of_mem hd
  refine hknow.extent_of_placeable (hplaceable d hd ty hty) ?_
  rintro name rfl
  obtain ⟨j, d', _, hd', hname⟩ := hdeclared.earlier i d hi name hty
  exact ⟨d', List.mem_of_getElem? hd', hname⟩

/-- The extents of the fields of a structure that is declared. -/
theorem Know.fields (hknow : layouts.Know m m.structs) (hdeclared : DeclaredInOrder m.structs)
    (hplaceable : ∀ d ∈ m.structs, ∀ ty ∈ d.fields, Placeable ty) {d : StructDef}
    (hd : d ∈ m.structs) :
    ∃ fields, d.fields.mapM layouts.extent = .ok fields ∧
      List.Forall₂ Extent.Is fields (d.fields.map m.space) := by
  obtain ⟨fields, hfields, hspaces⟩ :=
    Except.mapM_related fun _ hty => hknow.field hdeclared hplaceable hd hty
  exact ⟨fields, hfields, List.forall₂_map_right_iff.mpr hspaces⟩

/-- Each structure follows the rules. -/
theorem Know.followsCRules (hknow : layouts.Know m m.structs)
    (hdeclared : DeclaredInOrder m.structs)
    (hplaceable : ∀ d ∈ m.structs, ∀ ty ∈ d.fields, Placeable ty) {d : StructDef}
    (hd : d ∈ m.structs) :
    ∃ layout fields, layouts.get d.name = .ok layout ∧ d.fields.mapM layouts.extent = .ok fields ∧
      layout.FollowsCRules fields := by
  obtain ⟨layout, hget, hextent, hoffsets⟩ := hknow d hd
  obtain ⟨fields, hfields, hspaces⟩ := hknow.fields hdeclared hplaceable hd
  obtain ⟨i, hi⟩ := List.getElem?_of_mem hd
  refine ⟨layout, fields, hget, hfields, ?_⟩
  refine StructLayout.followsCRules hspaces (fun s hs => ?_)
    (IR.Module.space_struct hdeclared hi ▸ hextent) hoffsets
  obtain ⟨ty, hty, rfl⟩ := List.mem_map.mp hs
  exact Space.ofType_align_mem (Space.ofStructs_align_mem hplaceable) (hplaceable d hd ty hty)

/-- What a path leads to lies in the whole, and is aligned wherever the whole is. -/
theorem Leads.aligned (hknow : layouts.Know m m.structs) (hdeclared : DeclaredInOrder m.structs)
    (hplaceable : ∀ d ∈ m.structs, ∀ ty ∈ d.fields, Placeable ty) {ty ty' : IRType}
    {path : List Nat} {offset : Nat} {e : Extent}
    (h : layouts.Leads m.structs ty path ty' offset) (he : layouts.extent ty = .ok e) :
    ∃ part, layouts.extent ty' = .ok part ∧ offset + part.size.toNat ≤ e.size.toNat ∧
      part.align.toNat ∣ offset ∧ part.align.toNat ∣ e.align.toNat := by
  induction h generalizing e with
  | here => exact ⟨e, he, (Nat.zero_add _).le, dvd_zero _, dvd_refl _⟩
  | @field d layout index offset start ty ty' path hd hget hty hstart _ ih =>
    obtain ⟨layout', fields, hget', hfields, hrules⟩ :=
      hknow.followsCRules hdeclared hplaceable hd
    cases hget.symm.trans hget'
    obtain rfl : layout.extent = e := by
      simpa [Layouts.extent, hget, bind, Except.bind, pure, Except.pure] using he
    obtain ⟨field, hfield, hextent⟩ := forall₂_getElem? (Except.forall₂_of_mapM hfields) hty
    obtain ⟨part, hpart, hsize, hoffset, halign⟩ := ih hextent
    have hmem := List.mem_of_getElem? hfield
    have hinside := hrules.inside hfield hstart
    obtain ⟨hmultiple, _⟩ := (hrules.least hfield hstart).1
    -- The alignment of the field divides that of the structure, since it is no larger.
    have hdvd : field.align.toNat ∣ layout.extent.align.toNat := by
      have hgreatest := hrules.greatest (List.ne_nil_of_mem hmem)
      refine dvd_of_mem_alignments _ ?_ _ hrules.align (hgreatest.2 ⟨field, hmem, rfl⟩)
      obtain ⟨_, hextent', his⟩ :=
        hknow.field hdeclared hplaceable hd (List.mem_of_getElem? hty)
      cases hextent.symm.trans hextent'
      rw [his.align]
      exact Space.ofType_align_mem (Space.ofStructs_align_mem hplaceable)
        (hplaceable d hd ty (List.mem_of_getElem? hty))
    exact ⟨part, hpart, by omega, (Nat.dvd_add_right (halign.trans hmultiple)).mpr hoffset,
      halign.trans hdvd⟩

/-- A declaration comes to a layout only if all of its fields can be placed. -/
theorem placeable_of_extent {ty : IRType} {e : Extent} (h : layouts.extent ty = .ok e) :
    Placeable ty := by
  cases ty with
  | int bits =>
    unfold Layouts.extent at h
    simp only [Placeable]
    by_contra hne
    simp only [not_or] at hne
    obtain ⟨hsmall, hne⟩ := hne
    simp [hsmall, hne] at h
  | ptr | struct => trivial
  | void => cases h

theorem extent_of_placeFields {tys : List IRType} {offset align : UInt32}
    {placed : Extent × List UInt32} (h : layouts.placeFields offset align tys = .ok placed) :
    ∀ ty ∈ tys, ∃ e, layouts.extent ty = .ok e := by
  induction tys generalizing offset align placed with
  | nil => exact fun ty hty => absurd hty List.not_mem_nil
  | cons first rest ih =>
    obtain ⟨e, hextent, h⟩ := Except.bind_ok h
    obtain ⟨start, _, h⟩ := Except.bind_ok h
    obtain ⟨next, _, h⟩ := Except.bind_ok h
    obtain ⟨placed', hplace, _⟩ := Except.bind_ok h
    exact List.forall_mem_cons.mpr ⟨⟨e, hextent⟩, ih hplace⟩

theorem placeable_of_ofStructs (h : Layouts.ofStructs structs = .ok layouts) :
    ∀ d ∈ structs, ∀ ty ∈ d.fields, Placeable ty := by
  induction structs using List.reverseRecOn generalizing layouts with
  | nil => exact fun d hd => absurd hd List.not_mem_nil
  | append_singleton structs d ih =>
    rw [Layouts.ofStructs_concat] at h
    obtain ⟨earlier, hearlier, h⟩ := Except.bind_ok h
    obtain ⟨layout, hlayout, _⟩ := Except.bind_ok h
    obtain ⟨placed, hplace, _⟩ := Except.bind_ok hlayout
    intro d' hd' ty hty
    rcases List.mem_append.mp hd' with hd' | hd'
    · exact ih hearlier d' hd' ty hty
    · cases List.mem_singleton.mp hd'
      obtain ⟨e, hextent⟩ := extent_of_placeFields hplace ty hty
      exact placeable_of_extent hextent

end Layouts

end Lowering

open Lowering (Layouts Placeable)

/-- Structures of distinct names, each of fields that name only earlier ones, have layouts exactly if every
field is of a type that can be placed. If no size reaches `2 ^ 32`, these layouts follow the rules of C, and
whatever lies inside a structure, at any depth, is aligned wherever the structure is. -/
theorem layouts_follow_c_rules {structs : List IR.StructDef}
    (hdeclared : IR.DeclaredInOrder structs)
    (hfits : ∀ d ∈ structs, (Space.ofStructs structs d.name).size < UInt32.size) :
    ((∃ layouts, Layouts.ofStructs structs = .ok layouts) ↔
      ∀ d ∈ structs, ∀ ty ∈ d.fields, Placeable ty) ∧
    ∀ layouts, Layouts.ofStructs structs = .ok layouts → ∀ d ∈ structs,
      ∃ layout fields, layouts.get d.name = .ok layout ∧
        d.fields.mapM layouts.extent = .ok fields ∧ layout.FollowsCRules fields ∧
        ∀ {path ty offset}, layouts.Leads structs (.struct d.name) path ty offset →
          ∃ part, layouts.extent ty = .ok part ∧
            offset + part.size.toNat ≤ layout.extent.size.toNat ∧
            ∀ base, layout.extent.align.toNat ∣ base → part.align.toNat ∣ base + offset := by
  -- Any module with these structures will do.
  let m : IR.Module := { name := "", structs }
  refine ⟨⟨?_, ?_⟩, ?_⟩
  case refine_1 =>
    rintro ⟨layouts, hlayouts⟩
    exact Layouts.placeable_of_ofStructs hlayouts
  case refine_2 =>
    intro hplaceable
    have hchecked := m.ofStructs_checked hdeclared hplaceable
    obtain ⟨layouts, hlayouts, _⟩ := hchecked.ok hfits
    exact ⟨layouts, hlayouts⟩
  case refine_3 =>
    intro layouts hlayouts d hd
    have hplaceable := Layouts.placeable_of_ofStructs hlayouts
    have hchecked := m.ofStructs_checked hdeclared hplaceable
    have hknow : layouts.Know m m.structs := (hchecked.of_ok hlayouts).2
    obtain ⟨layout, fields, hget, hfields, hrules⟩ :=
      hknow.followsCRules hdeclared hplaceable hd
    refine ⟨layout, fields, hget, hfields, hrules, fun {path ty offset} hleads => ?_⟩
    have hextent : layouts.extent (.struct d.name) = .ok layout.extent := by
      simp [Layouts.extent, hget, bind, Except.bind, pure, Except.pure]
    obtain ⟨part, hpart, hinside, hoffset, halign⟩ :=
      Layouts.Leads.aligned hknow hdeclared hplaceable hleads hextent
    exact ⟨part, hpart, hinside, fun base hbase => (Nat.dvd_add_right (halign.trans hbase)).mpr hoffset⟩

/-- A point, and a structure that begins with one. -/
def pointing : List IR.StructDef :=
  [⟨"P", [.int 32, .int 32]⟩, ⟨"Q", [.struct "P", .int 16, .int 64]⟩]

theorem pointing_declaredInOrder : IR.DeclaredInOrder pointing where
  names := by decide
  earlier := by
    intro i d hd name hname
    match i, hd with
    | 0, rfl => simp at hname
    | 1, rfl =>
      obtain rfl : name = "P" := by simpa using hname
      exact ⟨0, _, Nat.one_pos, rfl, rfl⟩

/-- In it the number of 64 bits lies at the next multiple of eight, and both numbers of the point are
aligned wherever the whole is. -/
theorem layouts_follow_c_rules_pointing :
    ∃ layouts layout, Layouts.ofStructs pointing = .ok layouts ∧ layouts.get "Q" = .ok layout ∧
      layout = ⟨⟨24, 8⟩, [0, 8, 16]⟩ ∧ layout.FollowsCRules [⟨8, 4⟩, ⟨2, 2⟩, ⟨8, 8⟩] ∧
      ∀ base, 8 ∣ base → 4 ∣ base + 4 := by
  have hlayouts : Layouts.ofStructs pointing =
      .ok [("Q", ⟨⟨24, 8⟩, [0, 8, 16]⟩), ("P", ⟨⟨8, 4⟩, [0, 4]⟩)] := by decide
  obtain ⟨_, hrules⟩ := layouts_follow_c_rules pointing_declaredInOrder (by decide)
  obtain ⟨layout, fields, hget, hfields, hfollows, haligned⟩ :=
    hrules _ hlayouts ⟨"Q", [.struct "P", .int 16, .int 64]⟩ (by decide)
  cases hget
  cases hfields
  refine ⟨_, _, hlayouts, rfl, rfl, hfollows, ?_⟩
  -- The path leads to the point, and from there to its second number.
  obtain ⟨part, hpart, _, hbase⟩ := haligned
    (@Layouts.Leads.field _ _ _ _ 0 _ _ _ _ _ (by decide) rfl rfl rfl
      (@Layouts.Leads.field _ _ ⟨"P", [.int 32, .int 32]⟩ _ 1 _ _ _ _ _ (by decide) rfl rfl rfl .here))
  cases hpart
  exact hbase

end Straightline
