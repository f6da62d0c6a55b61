import Straightline.Proofs.Lowering.Layouts
import Straightline.Proofs.Lowering.Representation

/-!
# Constants in bytes

A constant that fits its type can be written, and its bytes are those of the value that it stands for.
What lies around them is left as it was, so that the fields of a structure may be written one after the
other.
-/

set_option autoImplicit false

namespace Straightline.Lowering

open IR (Constant Datum Kinds StructDef)
open Wasm (bytesAt)

/-! ## Images -/

/-- The bytes of an image, and zeros after it. -/
def imageByte (image : List UInt8) (a : Nat) : UInt8 := image.getD a 0

section Images

variable {image bytes : List UInt8} {offset : Nat}

theorem length_overwrite (h : offset + bytes.length ≤ image.length) :
    (overwrite image offset bytes).length = image.length := by
  simp only [overwrite, List.length_append, List.length_take, List.length_drop]
  omega

theorem overwrite_outside (h : offset + bytes.length ≤ image.length) {x : Nat}
    (hx : x < offset ∨ offset + bytes.length ≤ x) :
    imageByte (overwrite image offset bytes) x = imageByte image x := by
  have hlength : (image.take offset).length = offset := List.length_take_of_le (by omega)
  unfold imageByte overwrite
  simp only [List.getD_eq_getElem?_getD]
  congr 1
  rcases hx with hx | hx
  · rw [List.append_assoc, List.getElem?_append_left (by omega), List.getElem?_take_of_lt hx]
  · rw [List.getElem?_append_right (by simp; omega), List.getElem?_drop]
    congr 1
    simp only [List.length_append, hlength]
    omega

theorem bytesAt_overwrite (h : offset + bytes.length ≤ image.length) :
    bytesAt (imageByte (overwrite image offset bytes)) offset bytes.length = bytes := by
  have hlength : (image.take offset).length = offset := List.length_take_of_le (by omega)
  refine Wasm.bytesAt_eq fun i hi => ?_
  have hget : (overwrite image offset bytes)[offset + i]? = some bytes[i] := by
    unfold overwrite
    rw [List.append_assoc, List.getElem?_append_right (by omega), hlength, Nat.add_sub_cancel_left,
      List.getElem?_append_left hi, List.getElem?_eq_getElem hi]
  rw [imageByte, List.getD_eq_getElem?_getD, hget, List.getElem?_eq_getElem hi]
  rfl

end Images

/-! ## Constants -/

/-- Writing has changed only bytes from `offset` up to `stop`. -/
structure WrittenIn (image out : List UInt8) (offset stop : Nat) : Prop where
  length : out.length = image.length
  outside : ∀ x, x < offset ∨ stop ≤ x → imageByte out x = imageByte image x

variable {layouts : Layouts} {m : IR.Module} {kinds : Kinds} {p : Places}

/-- The data of fields, at the offsets that follow `offset`, are stored. -/
def FieldsStored (m : IR.Module) (p : Places) (byte : Nat → UInt8) (tys : List IRType)
    (offset base : Nat) (fields : List Datum) : Prop :=
  ∀ (index : Nat) (ty : IRType) (start : Nat) (field : Datum), tys[index]? = some ty →
    (Space.offsets offset (tys.map m.space))[index]? = some start → fields[index]? = some field →
    Stored m p byte ty field (base + start)

mutual

/-- A constant is written as what it stands for. -/
theorem encodeConstant_ok (htyped : m.Typed kinds) (hknow : layouts.Know m m.structs) (p : Places)
    {ty : IRType} {c : Constant} (h : c.Fits m ty) (offset : Nat) (image : List UInt8)
    (hroom : offset + m.sizeOf ty ≤ image.length) :
    ∃ out, encodeConstant layouts m ty offset image c = .ok out ∧
      WrittenIn image out offset (offset + m.sizeOf ty) ∧
      Stored m p (imageByte out) ty c.datum offset :=
  match h with
  | @Constant.Fits.int _ bits n hbits hn => by
    obtain ⟨e, hextent, he⟩ := hknow.extent (.int hbits)
    have hlength : (littleEndian n e.size.toNat).length = m.sizeOf (.int bits) := by
      rw [Wasm.length_littleEndian, he.size]
      rfl
    rw [← hlength] at hroom ⊢
    refine ⟨overwrite image offset (littleEndian n e.size.toNat), ?_,
      ⟨length_overwrite hroom, fun x hx => overwrite_outside hroom hx⟩,
      .scalar (.int hbits hn) ?_⟩
    · simp [encodeConstant, hextent, bind, Except.bind, pure, Except.pure]
    · rw [← hlength, bytesAt_overwrite hroom, Wasm.length_littleEndian]
  | @Constant.Fits.struct _ name d _ hd hall => by
    obtain ⟨hmem, rfl⟩ := IR.Module.of_structDef? hd
    obtain ⟨layout, hget, _, hoffsets⟩ := hknow d hmem
    obtain ⟨i, hi⟩ := List.getElem?_of_mem hmem
    have hstops : Space.stops 0 (d.fields.map m.space) ≤ m.sizeOf (.struct d.name) := by
      rw [IR.Module.sizeOf, htyped.space_struct hi]
      exact Space.stops_le_whole _
    obtain ⟨out, hout, hwritten, hlength, hfields⟩ :=
      encodeFields_ok htyped hknow p hall offset 0 layout.offsets hoffsets image (by omega)
    refine ⟨out, ?_, ⟨hwritten.length, fun x hx => hwritten.outside x (by omega)⟩,
      .struct hd hlength hfields⟩
    simp [encodeConstant, hget, hd, hout, bind, Except.bind]

/-- So are fields. -/
theorem encodeFields_ok (htyped : m.Typed kinds) (hknow : layouts.Know m m.structs) (p : Places)
    {tys : List IRType} {cs : List Constant} (h : Constant.FitAll m tys cs) (base offset : Nat)
    (offsets : List UInt32)
    (hoffsets : offsets.map UInt32.toNat = Space.offsets offset (tys.map m.space)) (image : List UInt8)
    (hroom : base + Space.stops offset (tys.map m.space) ≤ image.length) :
    ∃ out, encodeFields layouts m base tys offsets image cs = .ok out ∧
      WrittenIn image out (base + offset) (base + Space.stops offset (tys.map m.space)) ∧
      (Constant.data cs).length = tys.length ∧
      FieldsStored m p (imageByte out) tys offset base (Constant.data cs) :=
  match h with
  | .nil => ⟨image, by simp [encodeFields], ⟨rfl, fun _ _ => rfl⟩, rfl, by simp [FieldsStored]⟩
  | @Constant.FitAll.cons _ ty c tys cs hc hcs => by
    cases offsets with
    | nil => simp [Space.offsets] at hoffsets
    | cons first rest =>
      simp only [List.map_cons, Space.offsets, List.cons.injEq, Space.stops_cons] at hoffsets hroom ⊢
      obtain ⟨hfirst, hrest⟩ := hoffsets
      have hstart : offset ≤ (m.space ty).start offset := Space.le_start (m.space_align_pos ty)
      have hstops : (m.space ty).stop offset ≤
          Space.stops ((m.space ty).stop offset) (tys.map m.space) := Space.le_stops (m.aligned tys)
      have hstop : (m.space ty).stop offset = first.toNat + m.sizeOf ty := by rw [hfirst]; rfl
      obtain ⟨image', himage', hwritten', hstored⟩ :=
        encodeConstant_ok htyped hknow p hc (base + first.toNat) image (by omega)
      obtain ⟨out, hout, hwritten, hlength, hfields⟩ :=
        encodeFields_ok htyped hknow p hcs base ((m.space ty).stop offset) rest hrest image'
          (by rw [hwritten'.length]; omega)
      refine ⟨out, ?_, ⟨hwritten.length.trans hwritten'.length, fun x hx => ?_⟩, ?_, ?_⟩
      · simp [encodeFields, himage', hout, bind, Except.bind]
      · rw [hwritten.outside x (by omega), hwritten'.outside x (by omega)]
      · rw [Constant.data, List.length_cons, hlength, List.length_cons]
      · intro index ty' start field hty' hstart' hfield
        cases index with
        | zero =>
          simp only [List.getElem?_cons_zero, Constant.data, Option.some.injEq, List.map_cons,
            Space.offsets] at hty' hstart' hfield
          subst hty' hstart' hfield
          -- The other fields are written behind the first, which stays as it was written.
          rw [← hfirst]
          exact hstored.frame htyped (.refl p) fun x _ hx => hwritten.outside x (by omega)
        | succ index =>
          simp only [List.getElem?_cons_succ, Constant.data, List.map_cons, Space.offsets]
            at hty' hstart' hfield
          exact hfields index ty' start field hty' hstart' hfield

end

end Straightline.Lowering
