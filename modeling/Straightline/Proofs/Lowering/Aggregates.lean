import Straightline.Proofs.Lowering.Constants
import Straightline.Proofs.Lowering.Storing
import Straightline.Proofs.Lowering.Total

/-!
# Constants and aggregates

A structure of constants is encoded when the module is lowered, and one of other values is put together when
it runs, by storing numbers and copying the structures among its fields. Both lay down the same bytes: where
a number lies at any depth (`Leaf`) are the bytes of that number, and the load for its type gives it back
(`ReadsBack`). What is between the numbers may differ.

The fields of an aggregate may have come to be in hand in any way (`InHand`). A structure among them only has
to read back as the constant; that its bytes are then those of the constant is what a load determines
(`bytes_eq_of_signed`).
-/

set_option autoImplicit false

namespace Straightline

namespace Lowering

open IR (Canonical Constant Datum Kinds StructDef Value mem_widths widths)
open Wasm (Engine Instance Instr Invoke Pushes Runs Val bytesAt ofBytes)

/-- A number in a constant, with its type and its offset, which is the sum of those on the way to it. -/
inductive Leaf (layouts : Layouts) (structs : List StructDef) :
    IRType → Constant → IRType → Int → Nat → Prop where
  | scalar {bits : Nat} {n : Int} : Leaf layouts structs (.int bits) (.int n) (.int bits) n 0
  | field {d : StructDef} {layout : StructLayout} {index offset : Nat} {start : UInt32}
      {ty leaf : IRType} {values : List Constant} {c : Constant} {n : Int} : d ∈ structs →
      layouts.get d.name = .ok layout → d.fields[index]? = some ty →
      layout.offsets[index]? = some start → values[index]? = some c →
      Leaf layouts structs ty c leaf n offset →
      Leaf layouts structs (.struct d.name) (.struct values) leaf n (start.toNat + offset)

/-- From bytes in memory the load for its type gives back each number of a constant. -/
def ReadsBack (layouts : Layouts) (m : IR.Module) (s : Instance) (ty : IRType) (c : Constant)
    (a : Nat) : Prop :=
  ∀ {leaf : IRType} {n : Int} {offset : Nat}, Leaf layouts m.structs ty c leaf n offset →
    a + offset < UInt32.size ∧ ∃ code v, loadScalar leaf = .ok code ∧ v.type = valType leaf ∧
      v.signed = n ∧ ∀ (engine : Engine) (invoke : Invoke) (locals stack : List Val) (address : UInt32),
        address.toNat = a + offset →
        Runs engine invoke code ⟨s, locals, .i32 address :: stack⟩ ⟨s, locals, v :: stack⟩

variable {layouts : Layouts} {m : IR.Module} {kinds : Kinds} {p : Places} {byte : Nat → UInt8}
variable {s : Instance} {ty leaf : IRType} {c : Constant} {n : Int} {a offset : Nat}

/-! ## Numbers -/

/-- The load of an integer reads all of its bytes. -/
theorem loadScalar_int (m : IR.Module) {bits : Nat} (hbits : bits ∈ widths) :
    ∃ access : Wasm.Load, loadScalar (.int bits) = .ok [.load access 0] ∧
      access.width = m.sizeOf (.int bits) := by
  rcases mem_widths.mp hbits with rfl | rfl | rfl | rfl | rfl <;> exact ⟨_, rfl, rfl⟩

theorem sizeOf_int_pos (m : IR.Module) (bits : Nat) : 0 < m.sizeOf (.int bits) :=
  Nat.lt_of_lt_of_le Nat.one_pos (Nat.le_max_left _ _)

/-- What a load gives is determined. -/
theorem runs_load_unique {access : Wasm.Load} {address : UInt32} {v : Val} {engine : Engine}
    {invoke : Invoke} {locals stack : List Val}
    (h : Runs engine invoke [.load access 0] ⟨s, locals, .i32 address :: stack⟩
      ⟨s, locals, v :: stack⟩)
    (hroom : address.toNat + access.width ≤ s.memory.size) :
    v = access.value (ofBytes (bytesAt s.memory.byte address.toNat access.width)) := by
  have hload : Runs engine invoke [.load access 0] ⟨s, locals, .i32 address :: stack⟩ _ :=
    .load (by rw [UInt32.toNat_zero]; omega)
  simpa using h.symm.trans hload

/-- No address behind the end of memory is needed. -/
theorem size_le_of_pages (h : s.memory.pages ≤ Wasm.maxPages) : s.memory.size ≤ UInt32.size := by
  unfold Wasm.Memory.size Wasm.pageBytes UInt32.size
  unfold Wasm.maxPages at h
  omega

/-! ## Constants that are stored -/

theorem getElem?_data {cs : List Constant} {index : Nat} (hc : cs[index]? = some c) :
    (Constant.data cs)[index]? = some c.datum := by
  induction cs generalizing index with
  | nil => cases hc
  | cons first rest ih =>
    cases index with
    | zero =>
      cases hc
      rfl
    | succ index => exact ih hc

theorem length_data {tys : List IRType} {cs : List Constant} (h : Constant.FitAll m tys cs) :
    (Constant.data cs).length = tys.length := by
  induction tys generalizing cs with
  | nil =>
    cases h
    rfl
  | cons first rest ih =>
    cases h with
    | cons _ hrest => rw [Constant.data, List.length_cons, List.length_cons, ih hrest]

/-- The offset of a field in a structure. -/
theorem offset_of_know (htyped : m.Typed kinds) (hknow : layouts.Know m m.structs) {d : StructDef}
    (hd : d ∈ m.structs) {layout : StructLayout} (hget : layouts.get d.name = .ok layout) {index : Nat}
    {start : UInt32} (hty : d.fields[index]? = some ty) (hstart : layout.offsets[index]? = some start) :
    (m.fieldOffsets d)[index]? = some start.toNat ∧
      start.toNat + m.sizeOf ty ≤ m.sizeOf (.struct d.name) := by
  obtain ⟨layout', hget', _, hoffsets⟩ := hknow d hd
  cases hget.symm.trans hget'
  have hoffset : (m.fieldOffsets d)[index]? = some start.toNat := by
    rw [← hoffsets, List.getElem?_map, hstart]
    rfl
  exact ⟨hoffset, field_bound htyped (IR.Module.structDef?_of_mem htyped.names hd) hty hoffset⟩

/-- Where a constant is stored, each of its numbers has its bytes. -/
theorem Leaf.bytes (htyped : m.Typed kinds) (hknow : layouts.Know m m.structs)
    (h : Leaf layouts m.structs ty c leaf n offset) (hfits : c.Fits m ty)
    (hstored : Stored m p byte ty c.datum a) :
    ∃ bits, leaf = .int bits ∧ bits ∈ widths ∧ Canonical bits n ∧
      offset + m.sizeOf leaf ≤ m.sizeOf ty ∧
      bytesAt byte (a + offset) (m.sizeOf leaf) = littleEndian n (m.sizeOf leaf) := by
  induction h generalizing a with
  | @scalar bits n =>
    cases hfits with
    | int hbits hn =>
      obtain ⟨n', hnumbered, hbytes⟩ := hstored.scalar_inv rfl
      rw [Constant.datum] at hnumbered
      cases hnumbered
      exact ⟨bits, rfl, hbits, hn, (Nat.zero_add _).le, hbytes⟩
  | @field d layout index offset start ty leaf values c n hd hget hty hstart hc hleaf ih =>
    have hdef := IR.Module.structDef?_of_mem htyped.names hd
    obtain ⟨hoffset, hbound⟩ := offset_of_know htyped hknow hd hget hty hstart
    cases hfits with
    | struct hdef' hall =>
      cases hdef.symm.trans hdef'
      obtain ⟨c', hc', hfits⟩ := forall₂_getElem? hall.forall₂ hty
      cases hc.symm.trans hc'
      rw [Constant.datum] at hstored
      cases hstored with
      | scalar hn => cases hn
      | struct hdef' hlength hfields =>
        cases hdef.symm.trans hdef'
        obtain ⟨bits, hbits, hmem, hn, hinside, hbytes⟩ := ih hfits
          (hfields index ty start.toNat _ hty hoffset (getElem?_data hc))
        rw [Nat.add_assoc] at hbytes
        exact ⟨bits, hbits, hmem, hn, by omega, hbytes⟩

/-- So each of them is read back. -/
theorem ReadsBack.of_stored (htyped : m.Typed kinds) (hknow : layouts.Know m m.structs)
    (p : Places) (hfits : c.Fits m ty)
    (hpages : s.memory.pages ≤ Wasm.maxPages) (hroom : a + m.sizeOf ty ≤ s.memory.size)
    (hstored : Stored m p s.memory.byte ty c.datum a) : ReadsBack layouts m s ty c a := by
  intro leaf n offset hleaf
  obtain ⟨bits, rfl, hbits, hn, hinside, hbytes⟩ := hleaf.bytes htyped hknow hfits hstored
  have hpos := sizeOf_int_pos m bits
  have hlimit := size_le_of_pages hpages
  obtain ⟨access, hcode, hwidth⟩ := loadScalar_int m hbits
  have hnumbered : Numbered (fun _ _ _ => False) (.int bits) (.int n) n := .int hbits hn
  obtain ⟨access', hcode', _, hvalue⟩ := value_load (m := m) hnumbered hcode
  cases hcode'
  refine ⟨by omega, _, word (.int bits) n, hcode, type_word bits n, signed_word hbits hn,
    fun engine invoke locals stack address haddress => ?_⟩
  have hload : Runs engine invoke [.load access 0] ⟨s, locals, .i32 address :: stack⟩ _ :=
    .load (by rw [UInt32.toNat_zero]; omega)
  rwa [UInt32.toNat_zero, Nat.add_zero, hwidth, haddress, hbytes, hvalue] at hload

/-- A field of what is read back is read back. -/
theorem ReadsBack.field {d : StructDef} {layout : StructLayout} {values : List Constant} {index : Nat}
    {start : UInt32} (h : ReadsBack layouts m s (.struct d.name) (.struct values) a)
    (hd : d ∈ m.structs) (hget : layouts.get d.name = .ok layout) (hty : d.fields[index]? = some ty)
    (hstart : layout.offsets[index]? = some start) (hc : values[index]? = some c) :
    ReadsBack layouts m s ty c (a + start.toNat) := by
  intro leaf n offset hleaf
  rw [Nat.add_assoc]
  exact h (.field hd hget hty hstart hc hleaf)

mutual

/-- Where every number of a constant is read back, the constant is stored. -/
theorem ReadsBack.stored (htyped : m.Typed kinds) (hknow : layouts.Know m m.structs) (p : Places)
    {ty : IRType} {c : Constant} (hfits : c.Fits m ty) {a : Nat}
    (hroom : a + m.sizeOf ty ≤ s.memory.size) (h : ReadsBack layouts m s ty c a) :
    Stored m p s.memory.byte ty c.datum a :=
  match hfits with
  | @Constant.Fits.int _ bits n hbits hn => by
    obtain ⟨hlt, code, v, hcode, _, hsigned, hruns⟩ := h .scalar
    obtain ⟨access, hcode', hwidth⟩ := loadScalar_int m hbits
    cases hcode.symm.trans hcode'
    -- It is read back in every run, so also in one of this engine.
    have haddress : (UInt32.ofNat a).toNat = a := Nat.mod_eq_of_lt hlt
    have hrun := hruns (fun _ => true) (fun _ _ => throw .invalid) [] [] (UInt32.ofNat a) haddress
    have hv := runs_load_unique hrun (by rw [haddress, hwidth]; exact hroom)
    rw [haddress] at hv
    have hbytes := bytes_eq_of_signed Wasm.length_bytesAt (hv ▸ hsigned)
    rw [hwidth] at hbytes
    exact .scalar (.int hbits hn) hbytes
  | @Constant.Fits.struct _ name d values hd hall => by
    obtain ⟨hmem, rfl⟩ := IR.Module.of_structDef? hd
    obtain ⟨layout, hget, _, hoffsets⟩ := hknow d hmem
    refine .struct hd (length_data hall) fun index ty start field hty hstart hfield => ?_
    have hoffset : (layout.offsets.map UInt32.toNat)[index]? = some start := by
      rw [hoffsets, hstart]
    rw [List.getElem?_map, Option.map_eq_some_iff] at hoffset
    obtain ⟨start, hword, rfl⟩ := hoffset
    obtain ⟨_, hbound⟩ := offset_of_know htyped hknow hmem hget hty hword
    obtain ⟨c, hc, _⟩ := forall₂_getElem? hall.forall₂ hty
    cases hfield.symm.trans (getElem?_data hc)
    exact ReadsBack.storedAll htyped hknow p hall hty hc (by omega)
      (h.field hmem hget hty hword hc)

/-- So is each of several. -/
theorem ReadsBack.storedAll (htyped : m.Typed kinds) (hknow : layouts.Know m m.structs) (p : Places)
    {tys : List IRType} {cs : List Constant} (hall : Constant.FitAll m tys cs) {index : Nat}
    {ty : IRType} {c : Constant} {a : Nat} (hty : tys[index]? = some ty) (hc : cs[index]? = some c)
    (hroom : a + m.sizeOf ty ≤ s.memory.size) (h : ReadsBack layouts m s ty c a) :
    Stored m p s.memory.byte ty c.datum a :=
  match hall, index, hty, hc with
  | .cons hfits _, 0, rfl, rfl => ReadsBack.stored htyped hknow p hfits hroom h
  | .cons _ hall, _ + 1, hty, hc => ReadsBack.storedAll htyped hknow p hall hty hc hroom h

end

/-! ## Aggregates -/

/-- The word is what a value has in hand that is this constant: its number, or the address from which a
structure is read back, in memory and apart from what lies from `low` up to `high`. -/
inductive InHand (layouts : Layouts) (m : IR.Module) (s : Instance) (low high : Nat) :
    IRType → Constant → Val → Prop where
  | scalar {bits : Nat} {n : Int} {v : Val} : v.type = valType (.int bits) → v.signed = n →
      InHand layouts m s low high (.int bits) (.int n) v
  | struct {name : String} {values : List Constant} {a : UInt32} :
      a.toNat + m.sizeOf (.struct name) ≤ s.memory.size →
      a.toNat + m.sizeOf (.struct name) ≤ low ∨ high ≤ a.toNat →
      ReadsBack layouts m s (.struct name) (.struct values) a.toNat →
      InHand layouts m s low high (.struct name) (.struct values) (.i32 a)

/-- The code of an aggregate is about to put these constants together, in the slot at `target`. -/
structure Assembles (layouts : Layouts) (m : IR.Module) (ctx : FunctionContext) (s : Instance)
    (locals : List Val) (id : Nat) (name : String) (fields : List Value) (values : List Constant)
    (place : Nat) (target : UInt32) : Prop where
  laid : ctx.layouts = layouts
  slot : ∃ base slot, locals[ctx.frame.base]? = some (.i32 base) ∧ ctx.frame.slot? id = some slot ∧
    target = base + slot
  place : ctx.frame.result? id = some place ∧ place < locals.length
  pages : s.memory.pages ≤ Wasm.maxPages
  room : target.toNat + m.sizeOf (.struct name) ≤ s.memory.size
  inHand : List.Forall₂ (fun v c => ∃ w, (∀ push, ctx.pushValue v = .ok push → Pushes push locals w) ∧
      InHand layouts m s target.toNat (target.toNat + m.sizeOf (.struct name)) v.ty c w) fields values

variable {ctx : FunctionContext} {locals : List Val} {id place : Nat} {d : StructDef}
variable {fields : List Value} {values : List Constant} {target : UInt32} {code : List Instr}

/-- Nothing in hand has an address that is not in memory, since no constant has one. -/
theorem lasting_of_fits {v : Value} (hfits : c.Fits m v.ty) (p : Places) {n : Int}
    (h : Numbered (p.Resolves m) v.ty c.datum n) : Numbered p.Lasting v.ty c.datum n := by
  generalize v.ty = ty at hfits h
  cases hfits with
  | int hbits hn =>
    rw [Constant.datum] at h ⊢
    cases h
    exact .int hbits hn
  | struct => cases h

theorem InHand.ready (htyped : m.Typed kinds) (hknow : layouts.Know m m.structs)
    (hlayouts : ctx.layouts = layouts) (p : Places) {low high : Nat} {v : Value} {w : Val}
    (h : InHand layouts m s low high v.ty c w) (hfits : c.Fits m v.ty)
    (hpushes : ∀ push, ctx.pushValue v = .ok push → Pushes push locals w) :
    Ready ctx m p s.memory.byte (fun x => x < low ∨ high ≤ x) s.memory.size locals v c.datum := by
  constructor
  case held =>
    intro push hpush
    refine ⟨w, ?_, hpushes push hpush, fun a hstruct hw => ?_⟩
    · generalize v.ty = ty at h hfits
      cases h with
      | scalar htype hsigned =>
        rw [Constant.datum, eq_word_of_signed htype hsigned]
        cases hfits with
        | int hbits hn => exact .scalar (.int hbits hn)
      | struct hroom happart hreads =>
        exact .struct (hreads.stored htyped hknow p hfits hroom) fun x hlow hhigh => by omega
    · generalize v.ty = ty at h hstruct
      cases h with
      | scalar => cases hstruct
      | struct hroom =>
        cases hw
        exact hroom
  case lasting => exact fun n hn => lasting_of_fits hfits p hn
  case extent =>
    intro e he
    obtain ⟨e', he', his⟩ := hknow.extent (.of_fits hfits)
    cases (hlayouts ▸ he).symm.trans he'
    exact his.size

theorem ready_all (htyped : m.Typed kinds) (hknow : layouts.Know m m.structs)
    (hlayouts : ctx.layouts = layouts) (p : Places) {low high : Nat}
    (h : List.Forall₂ (fun v c => ∃ w, (∀ push, ctx.pushValue v = .ok push → Pushes push locals w) ∧
      InHand layouts m s low high v.ty c w) fields values)
    (hfits : Constant.FitAll m (fields.map Value.ty) values) :
    List.Forall₂ (Ready ctx m p s.memory.byte (fun x => x < low ∨ high ≤ x) s.memory.size locals)
      fields (Constant.data values) := by
  induction h with
  | nil => exact .nil
  | cons hv _ ih =>
    obtain ⟨w, hpushes, hw⟩ := hv
    cases hfits with
    | cons hfits hrest =>
      exact .cons (hw.ready htyped hknow hlayouts p hfits hpushes) (ih hrest)

/-- What the code of an aggregate leaves in its slot is stored there. -/
theorem Assembles.runs (htyped : m.Typed kinds) (hknow : layouts.Know m m.structs) (p : Places)
    (hd : d ∈ m.structs)
    (hfits : (Constant.struct values).Fits m (.struct d.name))
    (h : Assembles layouts m ctx s locals id d.name fields values place target)
    (htypes : fields.map Value.ty = d.fields)
    (hcode : ctx.lowerInst ⟨id, .struct d.name, .aggregate fields⟩ = .ok code) :
    ∃ s', s.Wrote s' target.toNat (target.toNat + m.sizeOf (.struct d.name)) ∧
      Stored m p s'.memory.byte (.struct d.name) (Constant.struct values).datum target.toNat ∧
      ∀ (engine : Engine) (invoke : Invoke), Runs engine invoke code ⟨s, locals, []⟩
        ⟨s', locals.set place (.i32 target), []⟩ := by
  obtain ⟨base, slot, hbase, hslot, rfl⟩ := h.slot
  obtain ⟨hplace, hlt⟩ := h.place
  have hdef := IR.Module.structDef?_of_mem htyped.names hd
  obtain ⟨i, hi⟩ := List.getElem?_of_mem hd
  have hall : Constant.FitAll m d.fields values := by
    cases hfits with
    | struct hdef' hall =>
      cases hdef.symm.trans hdef'
      exact hall
  cases lowered_of_lowerInst hcode with
  | @aggregate _ _ _ layout slot' stores place' hlayout hslot' hstores hplace' =>
    cases hslot.symm.trans hslot'
    cases hplace.symm.trans hplace'
    rw [h.laid] at hlayout
    obtain ⟨layout', hlayout', _, hoffsets⟩ := hknow d hd
    cases hlayout.symm.trans hlayout'
    -- The fields are stored where the structure has them, which is within the slot.
    have hspaces : (fields.map fun v => m.space v.ty) = d.fields.map m.space := by
      rw [← htypes, List.map_map]
      rfl
    have hwhole : Space.stops 0 (fields.map fun v => m.space v.ty) ≤ m.sizeOf (.struct d.name) := by
      rw [hspaces, IR.Module.sizeOf, htyped.space_struct hi]
      exact Space.stops_le_whole _
    have hready := ready_all htyped hknow h.laid p h.inHand (htypes ▸ hall)
    have hroom := h.room
    obtain ⟨s', hwrote, hstored, hruns⟩ := Ready.storesFields htyped hstores hready hbase
      (size_le_of_pages h.pages) (n := 0) (by rw [hspaces]; exact hoffsets) (by omega)
      (fun x hlow hhigh => by omega) rfl fun _ _ => rfl
    refine ⟨s', hwrote.mono (Nat.le_refl _) (by omega), ?_, fun engine invoke => ?_⟩
    · refine .struct hdef (length_data hall) fun index ty start field hty hstart hfield => ?_
      rw [← htypes, List.getElem?_map] at hty
      obtain ⟨v, hv, rfl⟩ := Option.map_eq_some_iff.mp hty
      exact hstored index v start field hv (by rw [hspaces]; exact hstart) hfield
    · exact ((hruns engine invoke).append (runs_frameAddress hbase slot)).append (.localSet hlt)

theorem bytesAt_image {out : List UInt8} {offset width : Nat} (h : offset + width ≤ out.length) :
    bytesAt (imageByte out) offset width = (out.drop offset).take width := by
  have hlength : ((out.drop offset).take width).length = width := by
    rw [List.length_take, List.length_drop]
    omega
  refine (congrArg (bytesAt (imageByte out) offset) hlength.symm).trans
    (Wasm.bytesAt_eq fun i hi => ?_)
  rw [hlength] at hi
  rw [List.getElem?_take_of_lt (by omega), List.getElem?_drop, imageByte, List.getD_eq_getElem?_getD,
    List.getElem?_eq_getElem (by omega)]
  rfl

end Lowering

open Lowering
open IR (Constant Value)
open Wasm (Instance Runs Val bytesAt)

/-- A structure of a program whose structures have layouts, and a constant of it. The constant can be encoded,
and from memory that holds the encoding every number in it is read back. An aggregate of the same values
leaves them in its slot, writes nothing else, and at the offset of each number leaves the very bytes of the
encoding; so every number is read back from there as well, and the aggregate may be a field of another. -/
theorem aggregate_bytes_agree {units : List SourceUnit} {options : CompileOptions} {m : IR.Module}
    (hbuild : (buildModule units options).result = .ok m) {layouts : Layouts}
    (hlayouts : Layouts.ofStructs m.structs = .ok layouts) {d : IR.StructDef} (hd : d ∈ m.structs)
    {values : List Constant} (hfits : (Constant.struct values).Fits m (.struct d.name)) {image : List UInt8}
    (himage : m.sizeOf (.struct d.name) ≤ image.length) :
    ∃ out, encodeConstant layouts m (.struct d.name) 0 image (.struct values) = .ok out ∧
      out.length = image.length ∧
      (∀ {s : Instance} {a : Nat}, s.memory.pages ≤ Wasm.maxPages →
        a + m.sizeOf (.struct d.name) ≤ s.memory.size →
        (∀ i < m.sizeOf (.struct d.name), out[i]? = some (s.memory.byte (a + i))) →
        ReadsBack layouts m s (.struct d.name) (.struct values) a) ∧
      ∀ {ctx : FunctionContext} {s : Instance} {locals : List Val} {id place : Nat}
        {fields : List Value} {target : UInt32} {code : List Wasm.Instr},
        Assembles layouts m ctx s locals id d.name fields values place target →
        fields.map Value.ty = d.fields →
        ctx.lowerInst ⟨id, .struct d.name, .aggregate fields⟩ = .ok code →
        ∃ s', s.Wrote s' target.toNat (target.toNat + m.sizeOf (.struct d.name)) ∧
          (∀ engine invoke, Runs engine invoke code ⟨s, locals, []⟩
            ⟨s', locals.set place (.i32 target), []⟩) ∧
          (∀ {leaf n offset}, Leaf layouts m.structs (.struct d.name) (.struct values) leaf n offset →
            bytesAt s'.memory.byte (target.toNat + offset) (m.sizeOf leaf) =
              (out.drop offset).take (m.sizeOf leaf)) ∧
          ReadsBack layouts m s' (.struct d.name) (.struct values) target.toNat := by
  obtain ⟨kinds, htyped⟩ := typed_of_buildModule hbuild
  have hknow : layouts.Know m m.structs := (htyped.ofStructs_checked.of_ok hlayouts).2
  -- No constant refers to a model, so where models are does not matter.
  let p : Places := ⟨[], [], 0, []⟩
  obtain ⟨out, hout, hwritten, hencoded⟩ :=
    encodeConstant_ok htyped hknow p hfits 0 image (by omega)
  refine ⟨out, hout, hwritten.length, fun {s a} hpages hroom hbytes => ?_, ?_⟩
  · refine ReadsBack.of_stored htyped hknow p hfits hpages hroom ?_
    refine hencoded.copy htyped (.refl p) fun i hi => ?_
    rw [Nat.zero_add, imageByte, List.getD_eq_getElem?_getD, hbytes i hi]
    rfl
  · intro ctx s locals id place fields target code hassembles htypes hcode
    obtain ⟨s', hwrote, hstored, hruns⟩ := hassembles.runs htyped hknow p hd hfits htypes hcode
    refine ⟨s', hwrote, hruns, fun {leaf n offset} hleaf => ?_, ?_⟩
    · obtain ⟨_, _, _, _, hinside, hbytes⟩ := hleaf.bytes htyped hknow hfits hstored
      obtain ⟨_, _, _, _, _, hbytes'⟩ := hleaf.bytes htyped hknow hfits hencoded
      rw [hbytes, ← hbytes', Nat.zero_add]
      exact bytesAt_image (by rw [hwritten.length]; omega)
    · exact ReadsBack.of_stored htyped hknow p hfits
        (hwrote.pages.trans_le hassembles.pages) (hassembles.room.trans_eq hwrote.size.symm) hstored

/-- A function that puts a line together from a pair that it is given. -/
def lining : SourceUnit where
  name := "lining"
  bytes := ("Pair: struct = (a: Int8, b: Int64)\nLine: struct = (start: Pair, flag: Bool, n: Int16)\n" ++
    "make: (p: Pair, n: Int16) -> Line = \x7b\n  return Line(p, true, n)\n\x7d\n"
    ).toList.map Char.toUInt8

/-- What its code is made from. -/
def liningContext : FunctionContext :=
  ⟨[("Line", ⟨⟨24, 8⟩, [0, 16, 18]⟩), ("Pair", ⟨⟨16, 8⟩, [0, 8]⟩)], {},
    ⟨[(0, 0), (2, 16), (3, 32)], 64, 2, [(0, 3), (2, 4), (3, 5)], [.i32, .i32, .i32, .i32]⟩⟩

/-- The instruction, with the pair as it was loaded. -/
def liningFields : List Value :=
  [⟨.inst 2, .struct "Pair"⟩, .ofInt (.int 1) 1, ⟨.param 1, .int 16⟩]

/-- The locals before it, with the pair at 144, behind a frame at 128. -/
def liningLocals : List Val :=
  [.i32 0, .i32 (UInt32.ofInt (-2)), .i32 128, .i32 128, .i32 144, .i32 0]

def liningPair : List Constant := [.int (-3), .int 5]

def liningLine : List Constant := [.struct liningPair, .int 1, .int (-2)]

/-- The numbers of the pair, eight bytes of which are copied, and the number of two bytes at the end of the
line have the same bytes as in the constant. -/
theorem aggregate_bytes_agree_lining :
    ∃ m out s s' code, (buildModule [lining] {}).result = .ok m ∧
      encodeConstant liningContext.layouts m (.struct "Line") 0 (List.replicate 24 0)
        (.struct liningLine) = .ok out ∧
      liningContext.lowerInst ⟨3, .struct "Line", .aggregate liningFields⟩ = .ok code ∧
      (∀ engine invoke, Runs engine invoke code ⟨s, liningLocals, []⟩
        ⟨s', liningLocals.set 5 (.i32 160), []⟩) ∧
      bytesAt s'.memory.byte (160 + 8) 8 = (out.drop 8).take 8 ∧
      bytesAt s'.memory.byte (160 + 18) 2 = (out.drop 18).take 2 := by
  have hcheck : ∃ m, (buildModule [lining] {}).result = .ok m ∧
      Layouts.ofStructs m.structs = .ok liningContext.layouts ∧
      m.structs = [⟨"Pair", [.int 8, .int 64]⟩, ⟨"Line", [.struct "Pair", .int 1, .int 16]⟩] ∧
      m.sizeOf (.struct "Pair") = 16 ∧ m.sizeOf (.struct "Line") = 24 ∧
      ∃ f ∈ m.functions, Frame.ofFunction liningContext.layouts f = .ok liningContext.frame ∧
        ⟨3, .struct "Line", .aggregate liningFields⟩ ∈ f.insts ∧
        ∃ code, liningContext.lowerInst ⟨3, .struct "Line", .aggregate liningFields⟩ = .ok code := by
    decide +kernel
  obtain ⟨m, hbuild, hlayouts, hstructs, hpair, hline, _, _, _, _, code, hcode⟩ := hcheck
  have hmem : ⟨"Pair", [.int 8, .int 64]⟩ ∈ m.structs := by rw [hstructs]; decide
  have hmem' : ⟨"Line", [.struct "Pair", .int 1, .int 16]⟩ ∈ m.structs := by rw [hstructs]; decide
  have hfits : (Constant.struct liningPair).Fits m (.struct "Pair") := by
    refine .struct (d := ⟨"Pair", [.int 8, .int 64]⟩) ?_
      (.cons (.int (by decide) ?_) (.cons (.int (by decide) ?_) .nil))
    · rw [IR.Module.structDef?, hstructs]
      rfl
    all_goals
      unfold IR.Canonical
      decide
  have hfits' : (Constant.struct liningLine).Fits m (.struct "Line") := by
    refine .struct (d := ⟨"Line", [.struct "Pair", .int 1, .int 16]⟩) ?_
      (.cons hfits (.cons (.int (by decide) ?_) (.cons (.int (by decide) ?_) .nil)))
    · rw [IR.Module.structDef?, hstructs]
      rfl
    all_goals
      unfold IR.Canonical
      decide
  -- First the pair is put in memory as it is encoded.
  obtain ⟨pair, _, hlength, hreads, _⟩ := aggregate_bytes_agree hbuild hlayouts hmem hfits
    (show _ ≤ (List.replicate 16 (0 : UInt8)).length by simp only [hpair]; decide)
  obtain ⟨out, hout, _, _, hruns⟩ := aggregate_bytes_agree hbuild hlayouts hmem' hfits'
    (show _ ≤ (List.replicate 24 (0 : UInt8)).length by simp only [hline]; decide)
  let s : Instance := ⟨⟨1, Wasm.overlay (fun _ => 0) 144 pair⟩, [], 0, false⟩
  have hassembles : Assembles liningContext.layouts m liningContext s liningLocals 3 "Line"
      liningFields liningLine 5 160 := by
    have hpages : 1 ≤ Wasm.maxPages := by decide
    have hroom : (160 : UInt32).toNat + 24 ≤ 1 * Wasm.pageBytes := by decide
    have hroom' : (144 : UInt32).toNat + 16 ≤ 1 * Wasm.pageBytes := by decide
    refine ⟨rfl, ⟨128, 32, rfl, rfl, rfl⟩, ⟨rfl, by decide⟩, hpages, hline ▸ hroom,
      .cons ⟨.i32 144, ?_, .struct (hpair ▸ hroom') (.inl (by rw [hpair]; decide)) ?_⟩
        (.cons ⟨.i32 1, ?_, .scalar rfl (by decide)⟩
          (.cons ⟨.i32 (UInt32.ofInt (-2)), ?_, .scalar rfl (by decide)⟩ .nil))⟩
    · rintro _ ⟨⟩ _ _ _ _
      exact .localGet rfl
    · refine hreads hpages (hpair ▸ hroom') fun i hi => ?_
      have hlt : i < pair.length := by
        rw [hlength, List.length_replicate, ← hpair]
        exact hi
      have hbyte : Wasm.overlay (fun _ => 0) 144 pair (144 + i) = pair[i] := Wasm.overlay_inside hlt
      exact (List.getElem?_eq_getElem hlt).trans (congrArg some hbyte.symm)
    · rintro _ ⟨⟩ _ _ _ _
      exact .i32Const
    · rintro _ ⟨⟩ _ _ _ _
      exact .localGet rfl
  obtain ⟨s', _, hrun, hbytes, _⟩ := hruns hassembles rfl hcode
  exact ⟨m, out, s, s', code, hbuild, hout, hcode, hrun,
    hbytes (@Leaf.field _ _ _ _ 0 _ _ _ _ _ _ _ hmem' rfl rfl rfl rfl
      (@Leaf.field _ _ _ _ 1 _ _ _ _ _ _ _ hmem rfl rfl rfl rfl .scalar)),
    hbytes (@Leaf.field _ _ _ _ 2 _ _ _ _ _ _ _ hmem' rfl rfl rfl rfl .scalar)⟩

end Straightline
