import Straightline.Proofs.Lowering.Execution
import Straightline.Proofs.Lowering.Overflow
import Straightline.Proofs.Safety.Contents

/-!
# What compiled programs do

The instance of a lowered module starts with the constants of the globals where the globals are, and with
nothing on the heap. Between two calls from outside the memory that the module means and that of the
instance go together (`AtRest`). They do so at the start, and every call that means something leaves them
so, with a word for the result of the call, unless memory is refused (`lowered_calls_agree`).

What a caller from outside hands over has to stay as it is during the call. It is free to use what lies
between the static data and the lowest frame.
-/

set_option autoImplicit false

namespace Straightline

namespace Lowering

open IR (Datum Kinds)
open Wasm (Engine Instance Segment Val overlay)

/-! ## Segments -/

section Segments

variable {byte : Nat → UInt8} {segments : List Segment} {s : Segment}

/-- The first of two segments ends before the second begins. -/
def Precedes (s s' : Segment) : Prop := s.offset.toNat + s.bytes.length ≤ s'.offset.toNat

/-- What lies in no segment stays as it was. -/
theorem overlays_outside {x : Nat}
    (h : ∀ s ∈ segments, x < s.offset.toNat ∨ s.offset.toNat + s.bytes.length ≤ x) :
    segments.foldl (fun byte s => overlay byte s.offset.toNat s.bytes) byte x = byte x := by
  induction segments generalizing byte with
  | nil => rfl
  | cons first rest ih =>
    rw [List.foldl_cons, ih fun s hs => h s (List.mem_cons_of_mem _ hs)]
    exact Wasm.overlay_outside (h first List.mem_cons_self)

/-- Segments that follow one another are all there. -/
theorem overlays_inside (horder : segments.Pairwise Precedes) (hs : s ∈ segments) {i : Nat}
    (hi : i < s.bytes.length) :
    segments.foldl (fun byte s => overlay byte s.offset.toNat s.bytes) byte (s.offset.toNat + i) =
      s.bytes[i] := by
  induction segments generalizing byte with
  | nil => cases hs
  | cons first rest ih =>
    rw [List.pairwise_cons] at horder
    rw [List.foldl_cons]
    rcases List.mem_cons.mp hs with rfl | hs
    · rw [overlays_outside, Wasm.overlay_inside hi]
      intro later hlater
      have hbefore : s.offset.toNat + s.bytes.length ≤ later.offset.toNat := horder.1 later hlater
      exact .inl (by omega)
    · exact ih horder.2 hs

end Segments

/-! ## The instance at the start -/

/-- The places at the start: those of the globals. -/
def Places.start (m : IR.Module) : Places := { globals := m.globalPlaces, heap := [] }

section Start

variable {m : IR.Module} {kinds : Kinds} {layouts : Layouts} {data : DataImage}
variable {wasm : Wasm.Module}

namespace LoweredModule

/-- Where a constant was put there is its segment. -/
theorem segment (h : LoweredModule m layouts data wasm) {i a : Nat} {item : IRType × IR.Constant}
    (hitem : m.statics[i]? = some item) (ha : m.staticOffsets[i]? = some a) :
    ∃ s, wasm.data[i]? = some s ∧ IsSegment m item a s := by
  have hplaced : (m.statics.zip m.staticOffsets)[i]? = some (item, a) :=
    List.getElem?_zip_eq_some.mpr ⟨hitem, ha⟩
  rw [h.written]
  exact forall₂_getElem? h.placed.segments hplaced

theorem segments_length (h : LoweredModule m layouts data wasm) :
    wasm.data.length = m.statics.length := by
  have hlength := h.placed.segments.length_eq
  rw [List.length_zip, Space.length_offsets, List.length_map, Nat.min_self] at hlength
  rw [h.written]
  exact hlength.symm

/-- The segments follow one another. -/
theorem segments_order (h : LoweredModule m layouts data wasm) : wasm.data.Pairwise Precedes := by
  refine List.pairwise_iff_getElem.mpr fun i j hi hj hij => ?_
  have hoffsets : m.staticOffsets.length = m.statics.length := by
    rw [IR.Module.staticOffsets, Space.length_offsets, List.length_map]
  have hplace : ∀ {k : Nat} (hk : k < wasm.data.length), ∃ item a, m.statics[k]? = some item ∧
      m.staticOffsets[k]? = some a ∧ IsSegment m item a wasm.data[k] := by
    intro k hk
    rw [h.segments_length] at hk
    have hitem := List.getElem?_eq_getElem hk
    have ha := List.getElem?_eq_getElem (hoffsets ▸ hk)
    obtain ⟨s, hs, hsegment⟩ := h.segment hitem ha
    obtain ⟨_, rfl⟩ := List.getElem?_eq_some_iff.mp hs
    exact ⟨_, _, hitem, ha, hsegment⟩
  obtain ⟨item, a, hitem, ha, hsegment⟩ := hplace hi
  obtain ⟨item', b, _, hb, hsegment'⟩ := hplace hj
  rw [Precedes, hsegment.offset, hsegment.length, hsegment'.offset]
  exact IR.Module.static_order hij hitem ha hb

/-- Where a constant was put it is stored at the start. -/
theorem stored (h : LoweredModule m layouts data wasm) (htyped : m.Typed kinds) (p : Places) {i a : Nat}
    {item : IRType × IR.Constant} (hitem : m.statics[i]? = some item)
    (ha : m.staticOffsets[i]? = some a) :
    Stored m p wasm.instantiate.memory.byte item.1 item.2.datum a := by
  obtain ⟨s, hs, hsegment⟩ := h.segment hitem ha
  refine (hsegment.stored p).copy htyped (.refl p) fun x hx => ?_
  have hlt : x < s.bytes.length := hsegment.length ▸ hx
  rw [Nat.zero_add, ← hsegment.offset]
  refine (overlays_inside h.segments_order (List.mem_of_getElem? hs) hlt).trans ?_
  rw [imageByte, List.getD_eq_getElem?_getD, List.getElem?_eq_getElem hlt]
  rfl

end LoweredModule

/-- Between two calls from outside: no slots, and the stack pointer is where the stack ends. -/
structure AtRest (m : IR.Module) (kinds : Kinds) (bounds : StackBounds) (p : Places) (mem : IR.Memory)
    (s : Instance) (hp : UInt32) : Prop where
  world : ∃ sp : UInt32, sp.toNat = bounds.top ∧ World m kinds bounds bounds.top p mem s sp hp
  slots : p.slots = []

/-- The memory of the module and that of the instance go together at the start. -/
theorem LoweredModule.atRest (h : LoweredModule m layouts data wasm) (htyped : m.Typed kinds)
    {top : UInt32} (hglobals : wasm.globals = [top, top]) (hpages : wasm.pages = initialPages top)
    {floor : Nat} (hfloor : m.dataEnd ≤ floor) (htop : floor ≤ top.toNat) :
    AtRest m kinds ⟨floor, top.toNat⟩ (.start m) m.memory wasm.instantiate top := by
  obtain ⟨hmax, hcovers⟩ := initialPages_bounds top
  refine ⟨⟨top, rfl, ?_, ⟨?_, rfl, rfl, fun base place d hat hcell => ?_⟩, fun i item a _ hitem ha =>
    h.stored htyped _ hitem ha, hglobals, ?_, ?_⟩, rfl⟩
  · exact ⟨rfl, nofun, .nil, nofun, .nil, hfloor, htop, Nat.le_refl _, Nat.le_refl _, Nat.le_refl _⟩
  · have hoffsets : m.globals.length ≤ m.staticOffsets.length := by
      rw [IR.Module.staticOffsets, Space.length_offsets, IR.Module.statics, List.length_map,
        List.length_append, List.length_map]
      omega
    rw [Places.start, IR.Module.globalPlaces, List.length_zip, List.length_map, Nat.min_eq_left hoffsets]
    exact List.length_map _
  · cases base with
    | global i =>
      obtain ⟨g, hg, hty, hitem, ha⟩ := IR.Module.of_globalPlaces hat
      have hcell : (m.globals.map fun g => some g.init.datum)[i]? = some (some d) := hcell
      rw [List.getElem?_map, hg] at hcell
      cases hcell
      rw [hty]
      exact h.stored htyped _ hitem ha
    | heap | slot => cases hcell
  · change top.toNat ≤ wasm.pages * Wasm.pageBytes
    rw [hpages]
    exact hcovers
  · change wasm.pages ≤ Wasm.maxPages
    rw [hpages]
    exact hmax

end Start

/-! ## Sizes -/

/-- Structures of one field at least take space. -/
theorem solid_of_fields {m : IR.Module} {kinds : Kinds} (htyped : m.Typed kinds)
    (hfields : ∀ d ∈ m.structs, d.fields ≠ []) : Solid m := by
  have hsize : ∀ (i : Nat) (d : IR.StructDef), m.structs[i]? = some d →
      m.sizeOf (.struct d.name) ≠ 0 := by
    intro i
    induction i using Nat.strongRecOn with
    | ind i ih =>
      intro d hd
      obtain ⟨ty, htys⟩ := List.exists_mem_of_ne_nil _ (hfields d (List.mem_of_getElem? hd))
      obtain ⟨index, hindex⟩ := List.getElem?_of_mem htys
      obtain ⟨start, hstart⟩ := fieldOffset_of_field (m := m) hindex
      have hbound := field_bound htyped
        (IR.Module.structDef?_of_mem htyped.names (List.mem_of_getElem? hd)) hindex hstart
      have hfield : m.sizeOf ty ≠ 0 := by
        obtain ⟨hheld, hearlier⟩ := (htyped.structs i d hd).2 ty htys
        cases hheld with
        | int => exact Nat.ne_of_gt (Nat.lt_of_lt_of_le Nat.one_pos (Nat.le_max_left _ _))
        | model => exact Nat.succ_ne_zero 3
        | struct =>
          obtain ⟨j, d', hj, hd', rfl⟩ := hearlier _ rfl
          exact ih j hj d' hd'
      omega
  intro d hd
  obtain ⟨i, hi⟩ := List.getElem?_of_mem hd
  exact hsize i d hi

end Lowering

/-! ## Calls from outside -/

open Lowering (AtRest Gives Places RepresentAll Spared StackBounds pageSize)

/-- The code of a program does what its module means. If every structure has a field, then the memory of the
module and that of the instance go together at the start, whatever room is left below the frames, and every
call takes them from where they go together to where they do so again.
A call on words for its arguments, which means something with calls nested less than `depth` deep and whose
frames and models have room, either stops where memory is refused or gives a word for its result. In
between all cells are stored at their places, globals and models among them, where the models that there
were have the places they had. -/
theorem lowered_calls_agree {units : List SourceUnit} {options : CompileOptions} {m : IR.Module}
    {stackPages : Nat} {wasm : Wasm.Module} (hbuild : (buildModule units options).result = .ok m)
    (hfields : ∀ d ∈ m.structs, d.fields ≠ [])
    (hlower : Lowering.lowerModule m stackPages = .ok wasm) :
    ∃ (kinds : IR.Kinds) (top : UInt32), m.Typed kinds ∧
      top.toNat = m.dataEnd + stackPages * pageSize.toNat ∧
      ∀ floor, m.dataEnd ≤ floor → floor ≤ top.toNat →
        AtRest m kinds ⟨floor, top.toNat⟩ (.start m) m.memory wasm.instantiate top ∧
        ∀ {depth : Nat} {id : IR.FunctionId} {f : IR.Function} {args : List IR.Datum}
          {words : List Wasm.Val} {mem mem' : IR.Memory} {p : Places} {s : Wasm.Instance} {hp : UInt32}
          {result : Option IR.Datum} (engine : Wasm.Engine),
          AtRest m kinds ⟨floor, top.toNat⟩ p mem s hp → m.function? id = some f →
          RepresentAll m p s.memory.byte (Spared m ⟨floor, top.toNat⟩ top.toNat) f.params args words →
          m.callWithin depth id args mem = .ok result mem' →
          floor + (m.usageWithin depth id args mem).stack ≤ top.toNat →
          hp.toNat + (m.usageWithin depth id args mem).heap < UInt32.size →
          (∃ s', wasm.callWithin engine depth id words.reverse s = .error .unreachable s' ∧
            s'.refused = true) ∨
          ∃ out s' p' hp', wasm.callWithin engine depth id words.reverse s = .ok out s' ∧
            AtRest m kinds ⟨floor, top.toNat⟩ p' mem' s' hp' ∧ p.Before p' ∧
            Gives m p' s'.memory.byte (· < top.toNat) f.ret result out := by
  obtain ⟨kinds, htyped⟩ := typed_of_buildModule hbuild
  have hsolid := Lowering.solid_of_fields htyped hfields
  obtain ⟨layouts, data, hlowered, hroom, ⟨top, htop, hglobals, hpages⟩, _⟩ :=
    Lowering.LoweredModule.of_lowerModule htyped hlower
  refine ⟨kinds, top, htyped, htop, fun floor hfloor htop => ⟨hlowered.atRest htyped hglobals hpages
    hfloor htop, ?_⟩⟩
  intro depth id f args words mem mem' p s hp result engine ⟨⟨sp, hsp, hworld⟩, hslots⟩ hf hwords hcall
    hstack hheap
  have hsp : sp = top := UInt32.toNat_inj.mp hsp
  subst hsp
  have hsim := hlowered.simulates htyped hsolid ⟨floor, sp.toNat⟩ engine depth hf hworld hslots
    hwords hcall hstack (Nat.le_refl _) hheap []
  rw [List.append_nil] at hsim
  refine hsim.imp_right ?_
  rintro ⟨out, s', p', hp', hinvoke, hleaves, hgives⟩
  rw [List.append_nil] at hinvoke
  exact ⟨out, s', p', hp', hinvoke, ⟨⟨sp, rfl, hleaves.world⟩, hleaves.slots⟩, hleaves.before, hgives⟩

/-- The main function of a program calls another on a constant. Whatever the engine does, the code gives
the number that is meant, or stops where memory is refused. -/
theorem lowered_calls_agree_pairing :
    ∃ m wasm, (buildModule [pairing] {}).result = .ok m ∧ m.Fits ∧ (∀ d ∈ m.structs, d.fields ≠ []) ∧
      Lowering.lowerModule m 16 = .ok wasm ∧
      (∃ mem', m.callWithin 2 1 [] m.memory = .ok (some (.int 4)) mem') ∧
      ∀ engine, (∃ s', wasm.callWithin engine 2 1 [] wasm.instantiate = .error .unreachable s' ∧
          s'.refused = true) ∨
        ∃ s', wasm.callWithin engine 2 1 [] wasm.instantiate = .ok [.i64 4] s' := by
  have hcheck : ∃ m, (buildModule [pairing] {}).result = .ok m ∧ m.Fits ∧
      (∀ d ∈ m.structs, d.fields ≠ []) ∧
      (∃ f, m.function? 1 = some f ∧ f.params = [] ∧ f.ret = .int 64) ∧
      (m.usageWithin 2 1 [] m.memory).stack ≤ 1048576 ∧
      m.dataEnd + (m.usageWithin 2 1 [] m.memory).heap < 4000000000 ∧
      (∃ d mem, m.callWithin 2 1 [] m.memory = .ok d mem ∧ d = some (.int 4)) ∧
      ∃ wasm, Lowering.lowerModule m 16 = .ok wasm := by decide +kernel
  obtain ⟨m, hbuild, hfits, hfields, hmain, hstack, hheap, hmeans, wasm, hlower⟩ := hcheck
  obtain ⟨f, hf, hparams, hret⟩ := hmain
  obtain ⟨_, mem', hmeans, rfl⟩ := hmeans
  refine ⟨m, wasm, hbuild, hfits, hfields, hlower, ⟨mem', hmeans⟩, fun engine => ?_⟩
  obtain ⟨kinds, top, htyped, htop, hcalls⟩ := lowered_calls_agree hbuild hfields hlower
  rw [show 16 * pageSize.toNat = 1048576 from rfl] at htop
  obtain ⟨hstart, hcalls⟩ := hcalls m.dataEnd (Nat.le_refl _) (by omega)
  have hnone : RepresentAll m (.start m) wasm.instantiate.memory.byte
      (Spared m ⟨m.dataEnd, top.toNat⟩ top.toNat) f.params [] [] := hparams ▸ .nil
  refine (hcalls engine hstart hf hnone hmeans (by omega)
    (by unfold UInt32.size; omega)).imp_right ?_
  rintro ⟨out, s', p', hp', hinvoke, _, _, hgives⟩
  rw [hret] at hgives
  cases hgives with
  | value hw =>
    cases hw with
    | scalar hn =>
      cases hn
      exact ⟨s', hinvoke⟩

/-- What is made of so many of the same. -/
def madeOf (name : String) (count : Nat) (value : String) : List UInt8 :=
  latin name ++ listed (List.replicate count (latin value))

/-- A model of 131040 bytes is made, as structures are nested in it four deep. -/
def filling : SourceUnit where
  name := "filling"
  bytes := latin "one: Int64 = 1\ntwo: Int64 = 2\n" ++ fieldsOf "A" "struct" 13 "Int64" ++
    fieldsOf "B" "struct" 7 "A" ++ fieldsOf "C" "struct" 5 "B" ++ fieldsOf "D" "struct" 6 "C" ++
    fieldsOf "E" "model" 6 "D" ++ latin "main: () -> E = \x7b\n" ++ madeOf "  a: A = A" 13 "one" ++
    madeOf "  b: B = B" 7 "a" ++ madeOf "  c: C = C" 5 "b" ++ madeOf "  d: D = D" 6 "c" ++
    madeOf "  return E" 6 "d" ++ latin "\x7d\n"

/-- Where the stack takes all but two of the pages, that model ends at `2 ^ 32` and does not run past it. The
call means something and its frame fits. But the heap pointer has no word for where the model ends and wraps
to zero, so the last page is not asked for, and storing the model traps where it is not there. -/
theorem lowered_calls_agree_fails_filling :
    ∃ m wasm top, (buildModule [filling] {}).result = .ok m ∧ m.Fits ∧ (∀ d ∈ m.structs, d.fields ≠ []) ∧
      Lowering.lowerModule m 65534 = .ok wasm ∧ wasm.globals = [top, top] ∧
      (∃ d mem', m.callWithin 1 0 [] m.memory = .ok d mem') ∧
      m.dataEnd + (m.usageWithin 1 0 [] m.memory).stack ≤ top.toNat ∧
      top.toNat + (m.usageWithin 1 0 [] m.memory).heap = UInt32.size ∧
      ∃ s', wasm.callWithin (fun _ => true) 1 0 [] wasm.instantiate = .error .outOfBounds s' ∧
        s'.refused = false := by
  have hcheck : ∃ m, (buildModule [filling] {}).result = .ok m ∧ m.Fits ∧
      (∀ d ∈ m.structs, d.fields ≠ []) ∧
      (∃ d mem', m.callWithin 1 0 [] m.memory = .ok d mem' ∧ d.isSome) ∧
      m.dataEnd + (m.usageWithin 1 0 [] m.memory).stack ≤ (4294836256 : UInt32).toNat ∧
      (4294836256 : UInt32).toNat + (m.usageWithin 1 0 [] m.memory).heap = UInt32.size ∧
      ∃ wasm, Lowering.lowerModule m 65534 = .ok wasm ∧ wasm.globals = [4294836256, 4294836256] ∧
        ∃ trap s', wasm.callWithin (fun _ => true) 1 0 [] wasm.instantiate = .error trap s' ∧
          trap = .outOfBounds ∧ s'.refused = false := by decide +kernel
  obtain ⟨m, hbuild, hfits, hfields, ⟨d, mem', hmeans, _⟩, hstack, hheap, wasm, hlower, hglobals, _, s',
    htrap, rfl, hgiven⟩ := hcheck
  exact ⟨m, wasm, 4294836256, hbuild, hfits, hfields, hlower, hglobals, ⟨d, mem', hmeans⟩, hstack, hheap,
    s', htrap, hgiven⟩

end Straightline
