import Straightline.Proofs.Lowering.Fragments
import Straightline.Proofs.Lowering.Representation

/-!
# Storing values

What the code does that writes values in hand to memory, one at an address or several at the offsets of
fields. It is enough that their words are pushed and that what they stand for lies in quiet bytes
(`Ready`): nothing is said of how they came to be in hand.
-/

set_option autoImplicit false

namespace Straightline.Lowering

open IR (Datum Kinds Value)
open Wasm (Engine Instance Instr Invoke Pushes Runs Val)

variable {ctx : FunctionContext} {m : IR.Module} {kinds : Kinds} {p : Places}
variable {quiet : Nat → Prop} {s s' : Instance} {locals : List Val} {v : Value} {d : Datum}
variable {code : List Instr}

/-- A value is in hand and can be stored. Its word is pushed; if it is a structure, its bytes are in memory;
and if it is an address, it may be in memory as well. -/
structure Ready (ctx : FunctionContext) (m : IR.Module) (p : Places) (byte : Nat → UInt8)
    (quiet : Nat → Prop) (size : Nat) (locals : List Val) (v : Value) (d : Datum) : Prop where
  held : ∀ push, ctx.pushValue v = .ok push → ∃ w, Represents m p byte quiet v.ty d w ∧
    Pushes push locals w ∧ ∀ a, v.ty.isStruct = true → w = .i32 a → a.toNat + m.sizeOf v.ty ≤ size
  lasting : ∀ n, Numbered (p.Resolves m) v.ty d n → Numbered p.Lasting v.ty d n
  extent : ∀ e, ctx.layouts.extent v.ty = .ok e → e.size.toNat = m.sizeOf v.ty

/-- A value is stored at the address on the operand stack, whatever has been written to bytes that are not
quiet. -/
theorem Ready.stores (htyped : m.Typed kinds)
    (h : Ready ctx m p s.memory.byte quiet s.memory.size locals v d) {offset : UInt32}
    (hstores : Stores ctx v offset code) (hlimit : s.memory.size ≤ UInt32.size)
    (hsize : s'.memory.size = s.memory.size)
    (hsame : ∀ x, quiet x → s'.memory.byte x = s.memory.byte x) (address : UInt32)
    (hroom : address.toNat + offset.toNat + m.sizeOf v.ty ≤ s.memory.size) :
    ∃ s'', s'.Wrote s'' (address.toNat + offset.toNat)
        (address.toNat + offset.toNat + m.sizeOf v.ty) ∧
      Stored m p s''.memory.byte v.ty d (address.toNat + offset.toNat) ∧
      ∀ (engine : Engine) (invoke : Invoke) (stack : List Val),
        Runs engine invoke code ⟨s', locals, .i32 address :: stack⟩ ⟨s'', locals, stack⟩ := by
  cases hstores with
  | @struct push e hstruct hpush he =>
    obtain ⟨w, hw, hpushes, hsource⟩ := h.held push hpush
    have hwidth := h.extent e he
    obtain ⟨source, rfl, hstored, hquiet⟩ := hw.struct_inv hstruct
    have hsource := hsource source hstruct rfl
    -- The sum may wrap only if nothing is copied.
    have hwrap : (address + offset).toNat ≤ address.toNat + offset.toNat := by
      rw [UInt32.toNat_add]
      exact Nat.mod_le _ _
    have htarget : 0 < m.sizeOf v.ty → (address + offset).toNat = address.toNat + offset.toNat :=
      fun hpos => toNat_add32 (by omega)
    obtain ⟨s'', hwrote, hcopied, hruns⟩ := runs_copy (s := s') e.size source (address + offset)
      (by rw [hwidth, hsize]; exact hsource) (by rw [hwidth, hsize]; omega)
    rw [hwidth] at hwrote hcopied
    refine ⟨s'', ⟨hwrote.globals, hwrote.pages, fun x hx => hwrote.bytes x (by omega)⟩, ?_,
      fun engine invoke stack => ?_⟩
    · refine hstored.copy htyped (.refl p) fun i hi => ?_
      rw [← htarget (by omega), hcopied i hi, hsame _ (hquiet _ (by omega) (by omega))]
    · exact ((runs_addOffset address offset).append (hpushes engine invoke s' _)).append
        (hruns engine invoke locals stack)
  | @scalar push store hstruct hpush hstore =>
    obtain ⟨w, hw, hpushes, _⟩ := h.held push hpush
    obtain ⟨n, hn, rfl⟩ := hw.scalar_inv hstruct
    obtain ⟨access, rfl, htype, hbytes⟩ := bytes_store (m := m) hn hstore
    have hwidth : access.width = m.sizeOf v.ty := by
      have hlength := congrArg List.length hbytes
      rwa [Wasm.length_bytesOf, Wasm.length_littleEndian] at hlength
    refine ⟨s'.write (address.toNat + offset.toNat) (littleEndian n (m.sizeOf v.ty)), ?_, ?_,
      fun engine invoke stack => ?_⟩
    · have hwrote := Instance.Wrote.write s' (address.toNat + offset.toNat)
        (littleEndian n (m.sizeOf v.ty))
      rwa [Wasm.length_littleEndian] at hwrote
    · refine .scalar (h.lasting n hn) ?_
      have hat : Wasm.bytesAt
          (Wasm.overlay s'.memory.byte (address.toNat + offset.toNat) (littleEndian n (m.sizeOf v.ty)))
          (address.toNat + offset.toNat) (littleEndian n (m.sizeOf v.ty)).length =
            littleEndian n (m.sizeOf v.ty) := Wasm.bytesAt_overlay
      rwa [Wasm.length_littleEndian] at hat
    · rw [← hbytes]
      exact (hpushes engine invoke s' _).append
        (.store htype (by rw [hwidth, hsize]; exact hroom))

/-- Fields are stored one after the other in a slot that is not quiet. -/
theorem Ready.storesFields (htyped : m.Typed kinds) {slot base : UInt32} {fields : List Value}
    {offsets : List UInt32} {data : List Datum} (hstores : StoresFields ctx slot fields offsets code)
    (hready : List.Forall₂ (Ready ctx m p s.memory.byte quiet s.memory.size locals) fields data)
    (hbase : locals[ctx.frame.base]? = some (.i32 base)) (hlimit : s.memory.size ≤ UInt32.size)
    {n : Nat} (hoffsets : offsets.map UInt32.toNat = Space.offsets n (fields.map fun v => m.space v.ty))
    (hroom : (base + slot).toNat + Space.stops n (fields.map fun v => m.space v.ty) ≤ s.memory.size)
    (hloud : ∀ x, (base + slot).toNat + n ≤ x →
      x < (base + slot).toNat + Space.stops n (fields.map fun v => m.space v.ty) → ¬quiet x)
    (hsize : s'.memory.size = s.memory.size)
    (hsame : ∀ x, quiet x → s'.memory.byte x = s.memory.byte x) :
    ∃ s'', s'.Wrote s'' ((base + slot).toNat + n)
        ((base + slot).toNat + Space.stops n (fields.map fun v => m.space v.ty)) ∧
      (∀ (i : Nat) (v : Value) (start : Nat) (d : Datum), fields[i]? = some v →
        (Space.offsets n (fields.map fun v => m.space v.ty))[i]? = some start → data[i]? = some d →
        Stored m p s''.memory.byte v.ty d ((base + slot).toNat + start)) ∧
      ∀ (engine : Engine) (invoke : Invoke),
        Runs engine invoke code ⟨s', locals, []⟩ ⟨s'', locals, []⟩ := by
  induction hstores generalizing data n s' with
  | nil => exact ⟨s', .refl _ _ _, fun _ _ _ _ hi => by simp at hi, fun _ _ => .nil⟩
  | short => cases hoffsets
  | @cons v fields offset offsets store others hstore _ ih =>
    cases hready with
    | @cons _ d _ ds hv hds =>
    simp only [List.map_cons, Space.offsets, List.cons.injEq, Space.stops_cons] at hoffsets hroom hloud ⊢
    obtain ⟨hoffset, hoffsets⟩ := hoffsets
    have hstart : n ≤ offset.toNat := hoffset ▸ Space.le_start (m.space_align_pos v.ty)
    have hstop : (m.space v.ty).stop n = offset.toNat + m.sizeOf v.ty := by rw [hoffset]; rfl
    have haligned : Space.Aligned (fields.map fun v => m.space v.ty) := by
      intro space hspace
      obtain ⟨v, _, rfl⟩ := List.mem_map.mp hspace
      exact m.space_align_pos v.ty
    have hend : (m.space v.ty).stop n ≤ _ := Space.le_stops haligned
    obtain ⟨s₁, hwrote, hstored, hruns⟩ := hv.stores htyped hstore hlimit hsize hsame (base + slot)
      (by omega)
    -- The field was stored to bytes that are not quiet, so the others are still in hand.
    obtain ⟨s₂, hwrote', hstored', hruns'⟩ := ih hds hoffsets hroom
      (fun x hlow hhigh => hloud x (by omega) hhigh) (hwrote.size.trans hsize) fun x hx => by
        refine (hwrote.bytes x ?_).trans (hsame x hx)
        by_contra hin
        exact hloud x (by omega) (by omega) hx
    refine ⟨s₂, (hwrote.mono (by omega) (by omega)).trans (hwrote'.mono (by omega) (Nat.le_refl _)),
      fun i v' start d' hv' hi hd' => ?_, fun engine invoke => ?_⟩
    · cases i with
      | zero =>
        cases hv'
        cases hd'
        obtain rfl : offset.toNat = start := hoffset.trans (Option.some.inj hi)
        exact hstored.frame htyped (.refl p) fun x hlow hhigh => hwrote'.bytes x (.inl (by omega))
      | succ i => exact hstored' i v' start d' hv' hi hd'
    · exact ((runs_frameAddress hbase slot).append (hruns engine invoke [])).append
        (hruns' engine invoke)

end Straightline.Lowering
