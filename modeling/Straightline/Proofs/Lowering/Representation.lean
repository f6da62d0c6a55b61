import Straightline.Proofs.Lowering.Sizes
import Straightline.Proofs.Meaning.Machine
import Straightline.Proofs.Wasm.Bytes

/-!
# How values are represented

The cells of a memory have places among the bytes (`Places`), and what is in a cell is stored at its
place (`Stored`): numbers and addresses of models in little endian, structures field by field, with
nothing said of the bytes between fields. A value in hand is a word: a number or an address as it is, and
a structure as an address at which it is stored (`Represents`), among bytes that nothing writes to as long
as the value is in hand. Which those are is not known here; they are called quiet.

Only globals and models have places that last. Slots have places too while their function is executed,
but no address of one is ever in memory.
-/

set_option autoImplicit false

namespace Straightline.Lowering

open IR (Address Base Canonical Datum Held Kinds StructDef widths)
open Wasm (Val bytesAt)

/-! ## Places -/

/-- The types and addresses of cells: of the globals, of the models, and of the slots of the function
that is executed, below which lie `height` others. -/
structure Places where
  globals : List (IRType × Nat)
  heap : List (IRType × Nat)
  height : Nat := 0
  slots : List (IRType × Nat) := []

namespace Places

variable {p p' : Places} {m : IR.Module} {ty ty' : IRType} {name : String} {d : StructDef}

/-- The place of a cell that outlives calls. -/
def lasting? (p : Places) : Base → Option (IRType × Nat)
  | .global index => p.globals[index]?
  | .heap index => p.heap[index]?
  | .slot _ => none

def at? (p : Places) : Base → Option (IRType × Nat)
  | .slot index => if p.height ≤ index then p.slots[index - p.height]? else none
  | base => p.lasting? base

theorem at?_of_lasting? {base : Base} {place : IRType × Nat} (h : p.lasting? base = some place) :
    p.at? base = some place := by
  cases base with
  | global | heap => exact h
  | slot => cases h

/-- The same globals, and at least the same models. -/
structure Before (p p' : Places) : Prop where
  globals : p'.globals = p.globals
  heap : p.heap <+: p'.heap

theorem Before.refl (p : Places) : p.Before p := ⟨rfl, List.prefix_refl _⟩

theorem Before.trans {p'' : Places} (h : p.Before p') (h' : p'.Before p'') : p.Before p'' :=
  ⟨h'.globals.trans h.globals, h.heap.trans h'.heap⟩

theorem Before.lasting? (h : p.Before p') {base : Base} {place : IRType × Nat}
    (hbase : p.lasting? base = some place) : p'.lasting? base = some place := by
  cases base with
  | global => exact (congrArg (fun l => l[_]?) h.globals).trans hbase
  | heap =>
    obtain ⟨more, hmore⟩ := h.heap
    simp only [Places.lasting?] at hbase ⊢
    rw [← hmore, List.getElem?_append_left (List.getElem?_eq_some_iff.mp hbase).1]
    exact hbase
  | slot => cases hbase

/-- The same cells, and maybe more. -/
structure Extends (p p' : Places) : Prop extends p.Before p' where
  height : p'.height = p.height
  slots : p.slots <+: p'.slots

theorem Extends.refl (p : Places) : p.Extends p := ⟨.refl p, rfl, List.prefix_refl _⟩

theorem Extends.at? (h : p.Extends p') {base : Base} {place : IRType × Nat}
    (hbase : p.at? base = some place) : p'.at? base = some place := by
  cases base with
  | global index => exact h.toBefore.lasting? (show p.lasting? (.global index) = _ from hbase)
  | heap index => exact h.toBefore.lasting? (show p.lasting? (.heap index) = _ from hbase)
  | slot index =>
    obtain ⟨more, hmore⟩ := h.slots
    simp only [Places.at?] at hbase ⊢
    rw [h.height]
    split at hbase
    case isFalse => cases hbase
    case isTrue hle =>
      rw [if_pos hle, ← hmore, List.getElem?_append_left (List.getElem?_eq_some_iff.mp hbase).1]
      exact hbase

/-- A path leads from a type to that of a field of a field, so many bytes behind its beginning. -/
inductive Leads (m : IR.Module) : IRType → List Nat → IRType → Nat → Prop where
  | nil {ty : IRType} : Leads m ty [] ty 0
  | cons {name : String} {d : StructDef} {index start offset : Nat} {ty ty' : IRType}
      {path : List Nat} : m.structDef? name = some d → d.fields[index]? = some ty →
      (m.fieldOffsets d)[index]? = some start → Leads m ty path ty' offset →
      Leads m (.struct name) (index :: path) ty' (start + offset)

theorem Leads.concat {path : List Nat} {offset index start : Nat}
    (h : Leads m ty path (.struct name) offset) (hd : m.structDef? name = some d)
    (hfield : d.fields[index]? = some ty') (hstart : (m.fieldOffsets d)[index]? = some start) :
    Leads m ty (path ++ [index]) ty' (offset + start) := by
  generalize hname : IRType.struct name = inner at h
  induction h with
  | nil =>
    subst hname
    rw [Nat.add_comm]
    exact .cons hd hfield hstart .nil
  | cons hd' hfield' hstart' _ ih =>
    rw [Nat.add_assoc]
    exact .cons hd' hfield' hstart' (ih hname)

/-- The address is that of bytes for a value of type `ty`. -/
def Resolves (p : Places) (m : IR.Module) (a : Address) (ty : IRType) (target : Nat) : Prop :=
  ∃ root base offset, p.at? a.base = some (root, base) ∧ Leads m root a.path ty offset ∧
    target = base + offset

/-- The address is that of a whole cell that outlives calls. -/
def Lasting (p : Places) (a : Address) (ty : IRType) (target : Nat) : Prop :=
  p.lasting? a.base = some (ty, target) ∧ a.path = []

theorem Lasting.resolves {a : Address} {target : Nat} (h : p.Lasting a ty target) :
    p.Resolves m a ty target :=
  ⟨ty, target, 0, at?_of_lasting? h.1, h.2 ▸ .nil, rfl⟩

theorem Resolves.mono {a : Address} {target : Nat} (h : p.Resolves m a ty target)
    (hextends : p.Extends p') : p'.Resolves m a ty target := by
  obtain ⟨root, base, offset, hat, hleads, htarget⟩ := h
  exact ⟨root, base, offset, hextends.at? hat, hleads, htarget⟩

theorem Lasting.mono {a : Address} {target : Nat} (h : p.Lasting a ty target)
    (hbefore : p.Before p') : p'.Lasting a ty target := ⟨hbefore.lasting? h.1, h.2⟩

end Places

/-! ## Numbers -/

/-- The number that stands for a value that is no structure. What addresses point to is said by
`points`. -/
inductive Numbered (points : Address → IRType → Nat → Prop) : IRType → Datum → Int → Prop where
  | int {bits : Nat} {n : Int} : bits ∈ widths → Canonical bits n →
      Numbered points (.int bits) (.int n) n
  | ptr {ty : IRType} {a : Address} {target : Nat} : points a ty target → target < UInt32.size →
      Numbered points (.ptr ty) (.ptr a) target

theorem Numbered.imp {points points' : Address → IRType → Nat → Prop} {ty : IRType} {d : Datum}
    {n : Int} (h : Numbered points ty d n)
    (himp : ∀ a ty' target, ty = .ptr ty' → points a ty' target → points' a ty' target) :
    Numbered points' ty d n := by
  cases h with
  | int hbits hn => exact .int hbits hn
  | ptr hpoints hlt => exact .ptr (himp _ _ _ rfl hpoints) hlt

/-! ## Bytes -/

/-- The value is in the bytes from an address on. -/
inductive Stored (m : IR.Module) (p : Places) (byte : Nat → UInt8) :
    IRType → Datum → Nat → Prop where
  | scalar {ty : IRType} {d : Datum} {n : Int} {a : Nat} : Numbered p.Lasting ty d n →
      bytesAt byte a (m.sizeOf ty) = littleEndian n (m.sizeOf ty) → Stored m p byte ty d a
  | struct {name : String} {d : StructDef} {fields : List Datum} {a : Nat} :
      m.structDef? name = some d → fields.length = d.fields.length →
      (∀ (index : Nat) (ty : IRType) (start : Nat) (field : Datum), d.fields[index]? = some ty →
        (m.fieldOffsets d)[index]? = some start → fields[index]? = some field →
        Stored m p byte ty field (a + start)) →
      Stored m p byte (.struct name) (.struct fields) a

/-- The word for a number. -/
def word (ty : IRType) (n : Int) : Val :=
  if ty = .int 64 then .i64 (UInt64.ofInt n) else .i32 (UInt32.ofInt n)

/-- The word that a value in hand is; of a structure, the address of quiet bytes. -/
inductive Represents (m : IR.Module) (p : Places) (byte : Nat → UInt8) (quiet : Nat → Prop) :
    IRType → Datum → Val → Prop where
  | scalar {ty : IRType} {d : Datum} {n : Int} : Numbered (p.Resolves m) ty d n →
      Represents m p byte quiet ty d (word ty n)
  | struct {name : String} {d : Datum} {a : UInt32} : Stored m p byte (.struct name) d a.toNat →
      (∀ x, a.toNat ≤ x → x < a.toNat + m.sizeOf (.struct name) → quiet x) →
      Represents m p byte quiet (.struct name) d (.i32 a)

/-- The words that as many values in hand are. -/
inductive RepresentAll (m : IR.Module) (p : Places) (byte : Nat → UInt8) (quiet : Nat → Prop) :
    List IRType → List Datum → List Val → Prop where
  | nil : RepresentAll m p byte quiet [] [] []
  | cons {ty : IRType} {d : Datum} {v : Val} {tys : List IRType} {ds : List Datum} {vs : List Val} :
      Represents m p byte quiet ty d v → RepresentAll m p byte quiet tys ds vs →
      RepresentAll m p byte quiet (ty :: tys) (d :: ds) (v :: vs)

/-! ## Fields -/

section Fields

variable {m : IR.Module} {kinds : Kinds} {name : String} {d : StructDef} {ty ty' : IRType}
variable {index index' start start' : Nat}

theorem length_fieldOffsets (m : IR.Module) (d : StructDef) :
    (m.fieldOffsets d).length = d.fields.length := by
  rw [IR.Module.fieldOffsets, Space.length_offsets, List.length_map]

/-- A field lies in its structure. -/
theorem field_bound (h : m.Typed kinds) (hd : m.structDef? name = some d)
    (hty : d.fields[index]? = some ty) (hstart : (m.fieldOffsets d)[index]? = some start) :
    start + m.sizeOf ty ≤ m.sizeOf (.struct name) := by
  obtain ⟨hmem, rfl⟩ := IR.Module.of_structDef? hd
  obtain ⟨i, hi⟩ := List.getElem?_of_mem hmem
  have hspace : (d.fields.map m.space)[index]? = some (m.space ty) := by
    rw [List.getElem?_map, hty]
    rfl
  obtain ⟨_, hstop⟩ := Space.offsets_bounds (m.aligned d.fields) hspace hstart
  rw [IR.Module.sizeOf, IR.Module.sizeOf, h.space_struct hi]
  exact hstop.trans (Space.stops_le_whole _)

/-- Two fields have no byte in common. -/
theorem fields_apart (hne : index ≠ index') (hty : d.fields[index]? = some ty)
    (hstart : (m.fieldOffsets d)[index]? = some start) (hty' : d.fields[index']? = some ty')
    (hstart' : (m.fieldOffsets d)[index']? = some start') :
    start + m.sizeOf ty ≤ start' ∨ start' + m.sizeOf ty' ≤ start := by
  have hspace : ∀ {i : Nat} {t : IRType}, d.fields[i]? = some t → (d.fields.map m.space)[i]? = some (m.space t) := by
    intro i t ht
    rw [List.getElem?_map, ht]
    rfl
  rcases Nat.lt_or_gt_of_ne hne with hlt | hlt
  · exact Or.inl (Space.offsets_disjoint (m.aligned _) hlt (hspace hty) hstart hstart')
  · exact Or.inr (Space.offsets_disjoint (m.aligned _) hlt (hspace hty') hstart' hstart)

/-- The offset of a field. -/
theorem fieldOffset_of_field (hty : d.fields[index]? = some ty) :
    ∃ start, (m.fieldOffsets d)[index]? = some start := by
  have hlt := (List.getElem?_eq_some_iff.mp hty).1
  exact ⟨_, List.getElem?_eq_getElem (by rwa [length_fieldOffsets])⟩

/-- Where a path leads lies in what it leads into. -/
theorem Places.Leads.bound (h : m.Typed kinds) {path : List Nat} {offset : Nat}
    (hleads : Places.Leads m ty path ty' offset) : offset + m.sizeOf ty' ≤ m.sizeOf ty := by
  induction hleads with
  | nil => exact Nat.le_of_eq (Nat.zero_add _)
  | cons hd hty hstart _ ih =>
    have := field_bound h hd hty hstart
    omega

end Fields

/-! ## What is stored -/

namespace Stored

variable {m : IR.Module} {kinds : Kinds} {p p' : Places} {byte byte' : Nat → UInt8}
variable {ty ty' root : IRType} {d : Datum} {a a' : Nat}

theorem scalar_inv (h : Stored m p byte ty d a) (hty : ty.isStruct = false) :
    ∃ n, Numbered p.Lasting ty d n ∧
      bytesAt byte a (m.sizeOf ty) = littleEndian n (m.sizeOf ty) := by
  cases h with
  | scalar hn hat => exact ⟨_, hn, hat⟩
  | struct => cases hty

/-- What is stored is also where its bytes are copied. -/
theorem copy (htyped : m.Typed kinds) (h : Stored m p byte ty d a) (hbefore : p.Before p')
    (hbytes : ∀ i < m.sizeOf ty, byte' (a' + i) = byte (a + i)) :
    Stored m p' byte' ty d a' := by
  induction h generalizing a' with
  | scalar hn hat =>
    exact .scalar (hn.imp fun _ _ _ _ h => h.mono hbefore) ((Wasm.bytesAt_congr hbytes).trans hat)
  | struct hd hlength _ ih =>
    refine .struct hd hlength fun index ty start field hty hstart hfield => ?_
    refine ih index ty start field hty hstart hfield fun i hi => ?_
    have hbound := field_bound htyped hd hty hstart
    rw [Nat.add_assoc, Nat.add_assoc]
    exact hbytes (start + i) (by omega)

/-- What is stored stays, as long as its bytes do. -/
theorem frame (htyped : m.Typed kinds) (h : Stored m p byte ty d a) (hbefore : p.Before p')
    (hbytes : ∀ x, a ≤ x → x < a + m.sizeOf ty → byte' x = byte x) : Stored m p' byte' ty d a :=
  h.copy htyped hbefore fun i hi => hbytes (a + i) (by omega) (by omega)

/-- A part of what is stored is stored where the path leads. -/
theorem part {path : List Nat} {offset : Nat} {whole : Datum}
    (h : Stored m p byte root whole a) (hleads : Places.Leads m root path ty offset)
    (hpart : whole.at? path = some d) : Stored m p byte ty d (a + offset) := by
  induction hleads generalizing whole a with
  | nil =>
    rw [Datum.at?] at hpart
    cases hpart
    exact h
  | @cons name d' index start offset ty ty' path hd hty hstart _ ih =>
    cases h with
    | scalar hn => cases hn
    | @struct _ d'' fields _ hd'' _ hfields =>
      cases hd.symm.trans hd''
      rw [Datum.at?] at hpart
      split at hpart
      case h_2 => cases hpart
      case h_1 field hfield =>
        rw [← Nat.add_assoc]
        exact ih (hfields index ty start field hty hstart hfield) hpart

/-- Where a part is put in, and nothing else is written, the rest stays. -/
theorem put (htyped : m.Typed kinds) {path : List Nat} {offset : Nat} {whole whole' new : Datum}
    (h : Stored m p byte root whole a) (hleads : Places.Leads m root path ty offset)
    (hput : whole.put? path new = some whole') (hnew : Stored m p byte' ty new (a + offset))
    (hbytes : ∀ x, x < a + offset ∨ a + offset + m.sizeOf ty ≤ x → byte' x = byte x) :
    Stored m p byte' root whole' a := by
  induction hleads generalizing whole whole' a with
  | nil =>
    rw [Datum.put?] at hput
    cases hput
    exact hnew
  | @cons name d' index start offset ty ty' path hd hty hstart hleads ih =>
    cases h with
    | scalar hn => cases hn
    | @struct _ d'' fields _ hd'' hlength hfields =>
      cases hd.symm.trans hd''
      rw [Datum.put?] at hput
      split at hput
      case h_2 => cases hput
      case h_1 field hfield =>
        obtain ⟨field', hfield', rfl⟩ := Option.map_eq_some_iff.mp hput
        refine .struct hd ((List.length_set ..).trans hlength) fun j tyj startj fieldj htyj hstartj
          hfieldj => ?_
        by_cases hj : j = index
        · subst hj
          cases hty.symm.trans htyj
          cases hstart.symm.trans hstartj
          rw [List.getElem?_set_self (List.getElem?_eq_some_iff.mp hfield).1] at hfieldj
          cases hfieldj
          rw [← Nat.add_assoc] at hnew hbytes
          exact ih (hfields j ty start field hty hstart hfield) hfield' hnew hbytes
        · rw [List.getElem?_set_ne (Ne.symm hj)] at hfieldj
          refine (hfields j tyj startj fieldj htyj hstartj hfieldj).frame htyped (.refl p)
            fun x hlow hhigh => hbytes x ?_
          have hapart := fields_apart (Ne.symm hj) hty hstart htyj hstartj
          have hbound := hleads.bound htyped
          omega

end Stored

/-! ## Words -/

section Words

variable {m : IR.Module} {kinds : Kinds} {p p' : Places} {byte byte' : Nat → UInt8}
variable {quiet quiet' : Nat → Prop} {ty : IRType} {d : Datum} {v : Val}

namespace Represents

/-- The type of the word is that of a local for such values. -/
theorem type_eq (h : Represents m p byte quiet ty d v) : v.type = valType ty := by
  cases h with
  | @scalar _ _ n hn =>
    unfold word
    cases hn with
    | int =>
      simp only [IRType.int.injEq, valType]
      split <;> rfl
    | ptr => rfl
  | struct => rfl

theorem scalar_inv (h : Represents m p byte quiet ty d v) (hty : ty.isStruct = false) :
    ∃ n, Numbered (p.Resolves m) ty d n ∧ v = word ty n := by
  cases h with
  | scalar hn => exact ⟨_, hn, rfl⟩
  | struct => cases hty

theorem struct_inv (h : Represents m p byte quiet ty d v) (hty : ty.isStruct = true) :
    ∃ a : UInt32, v = .i32 a ∧ Stored m p byte ty d a.toNat ∧
      ∀ x, a.toNat ≤ x → x < a.toNat + m.sizeOf ty → quiet x := by
  cases h with
  | scalar hn => cases hn <;> cases hty
  | struct hstored hquiet => exact ⟨_, rfl, hstored, hquiet⟩

/-- A value stays in hand as long as quiet bytes are quiet. -/
theorem mono (htyped : m.Typed kinds) (h : Represents m p byte quiet ty d v) (hbefore : p.Before p')
    (hpoints : ∀ a ty' target, ty = .ptr ty' → p.Resolves m a ty' target → p'.Resolves m a ty' target)
    (hbytes : ∀ x, quiet x → byte' x = byte x) (hquiet : ∀ x, quiet x → quiet' x) :
    Represents m p' byte' quiet' ty d v := by
  cases h with
  | scalar hn => exact .scalar (hn.imp hpoints)
  | struct hstored hall =>
    exact .struct (hstored.frame htyped hbefore fun x hlow hhigh => hbytes x (hall x hlow hhigh))
      fun x hlow hhigh => hquiet x (hall x hlow hhigh)

/-- A value stays in hand while more cells come to be. -/
theorem extend (htyped : m.Typed kinds) (h : Represents m p byte quiet ty d v)
    (hextends : p.Extends p') (hbytes : ∀ x, quiet x → byte' x = byte x)
    (hquiet : ∀ x, quiet x → quiet' x) : Represents m p' byte' quiet' ty d v :=
  h.mono htyped hextends.toBefore (fun _ _ _ _ hr => hr.mono hextends) hbytes hquiet

end Represents

namespace RepresentAll

variable {tys : List IRType} {ds : List Datum} {vs : List Val}

theorem types_eq (h : RepresentAll m p byte quiet tys ds vs) :
    vs.map Val.type = tys.map valType := by
  induction h with
  | nil => rfl
  | cons hv _ ih => rw [List.map_cons, List.map_cons, hv.type_eq, ih]

theorem getElem? (h : RepresentAll m p byte quiet tys ds vs) {i : Nat} (hty : tys[i]? = some ty) :
    ∃ d v, ds[i]? = some d ∧ vs[i]? = some v ∧ Represents m p byte quiet ty d v := by
  induction h generalizing i with
  | nil => cases hty
  | @cons _ d v _ _ _ hv _ ih =>
    cases i with
    | zero =>
      cases hty
      exact ⟨d, v, rfl, rfl, hv⟩
    | succ i => exact ih hty

end RepresentAll

end Words

end Straightline.Lowering
