import Straightline.Proofs.Lowering.Cells
import Straightline.Proofs.Lowering.Fragments

/-!
# Memories and instances

How the memory of a module and its instance go together (`World`): cells have places and are stored there,
and the pointers lie where the frames and the heap end. Every write keeps that, as long as it goes to a
cell or to bytes of a frame that belong to none. A callee starts in the world of its caller without the
slots, and leaves one that the caller can go on in.
-/

set_option autoImplicit false

namespace Straightline.Lowering

open IR (Address Base Datum Held Kinds)
open Wasm (Instance)

/-! ## Worlds -/

/-- With one more slot. -/
def Places.addSlot (p : Places) (place : IRType × Nat) : Places :=
  { p with slots := p.slots ++ [place] }

/-- With one more model. -/
def Places.addModel (p : Places) (place : IRType × Nat) : Places :=
  { p with heap := p.heap ++ [place] }

/-- With no slot of its own, above so many others. -/
def Places.above (p : Places) (height : Nat) : Places := { p with height, slots := [] }

section Adding

variable {p : Places} {place place' : IRType × Nat} {base : Base}

theorem Places.extends_addSlot (p : Places) (place : IRType × Nat) : p.Extends (p.addSlot place) :=
  ⟨⟨rfl, List.prefix_refl _⟩, rfl, List.prefix_append _ _⟩

theorem Places.extends_addModel (p : Places) (place : IRType × Nat) : p.Extends (p.addModel place) :=
  ⟨⟨rfl, List.prefix_append _ _⟩, rfl, List.prefix_refl _⟩

theorem Places.at?_addSlot_self :
    (p.addSlot place).at? (.slot (p.height + p.slots.length)) = some place := by
  change (if p.height ≤ p.height + p.slots.length then
    (p.slots ++ [place])[p.height + p.slots.length - p.height]? else none) = _
  rw [if_pos (Nat.le_add_right _ _), Nat.add_sub_cancel_left, List.getElem?_concat_length]

theorem Places.at?_addModel_self : (p.addModel place).at? (.heap p.heap.length) = some place :=
  List.getElem?_concat_length

theorem Places.of_at?_addSlot (h : (p.addSlot place).at? base = some place') :
    p.at? base = some place' ∨ base = .slot (p.height + p.slots.length) := by
  cases base with
  | global | heap => exact .inl h
  | slot i =>
    change (if p.height ≤ i then (p.slots ++ [place])[i - p.height]? else none) = _ at h
    simp only [Places.at?]
    split at h
    case isFalse => cases h
    case isTrue hle =>
      rw [if_pos hle]
      rcases of_getElem?_concat h with h | ⟨hi, _⟩
      · exact .inl h
      · exact .inr (congrArg Base.slot (by omega))

theorem Places.of_at?_addModel (h : (p.addModel place).at? base = some place') :
    p.at? base = some place' ∨ base = .heap p.heap.length := by
  cases base with
  | global | slot => exact .inl h
  | heap i =>
    rcases of_getElem?_concat (show (p.heap ++ [place])[i]? = some place' from h) with h | ⟨hi, _⟩
    · exact .inl h
    · exact .inr (congrArg Base.heap hi)

end Adding

/-- A memory and an instance that go together. The stack pointer is `sp`, the slots end at `high`,
and the heap at `hp`. -/
structure World (m : IR.Module) (kinds : Kinds) (bounds : StackBounds) (high : Nat) (p : Places)
    (mem : IR.Memory) (s : Instance) (sp hp : UInt32) : Prop where
  laid : p.Laid m kinds bounds sp.toNat high hp.toNat
  contents : Contents m p mem s.memory.byte
  constants : ConstantsStored m p s.memory.byte
  globals : s.globals = [sp, hp]
  room : hp.toNat ≤ s.memory.size
  pages : s.memory.pages ≤ Wasm.maxPages

namespace World

variable {m : IR.Module} {kinds : Kinds} {bounds : StackBounds} {high : Nat} {p : Places}
variable {mem : IR.Memory} {s : Instance} {sp hp : UInt32}

theorem pages_pos (h : World m kinds bounds high p mem s sp hp) : 0 < s.memory.pages := by
  have hstop : nullGuard.toNat ≤ m.dataStop := Space.le_stops (m.aligned_constants _)
  have hend : m.dataStop ≤ m.dataEnd := le_roundUp (by decide)
  have hguard : 0 < nullGuard.toNat := by decide
  have hroom := h.room
  have := h.laid.data
  have := h.laid.bottom
  have := h.laid.frame
  have := h.laid.stack
  have := h.laid.heap
  by_contra hzero
  rw [Wasm.Memory.size, Nat.eq_zero_of_not_pos hzero, Nat.zero_mul] at hroom
  omega

/-- Whatever is written between the slots of a frame, nothing that matters is touched. -/
theorem scribble (htyped : m.Typed kinds) (h : World m kinds bounds high p mem s sp hp) {s' : Instance}
    {start stop : Nat} (hwrote : s.Wrote s' start stop) (hlow : sp.toNat ≤ start) (hhigh : stop ≤ high)
    (hslots : ∀ place ∈ p.slots, place.2 + m.sizeOf place.1 ≤ start ∨ stop ≤ place.2) :
    World m kinds bounds high p mem s' sp hp where
  laid := h.laid
  contents := by
    refine h.contents.frame htyped fun base place hat x ⟨hx, hx'⟩ => hwrote.bytes x ?_
    have := h.laid.data
    have := h.laid.bottom
    have := h.laid.stack
    rcases h.laid.region hat with ⟨_, _, _, _, _, _, _, _, _, hend⟩ | ⟨_, _, _, hfirst, _⟩ |
      ⟨_, _, _, hi, _⟩
    · omega
    · omega
    · have := hslots place (List.mem_of_getElem? hi)
      omega
  constants := by
    refine h.constants.frame htyped (.refl p) h.laid.data high fun x hx => ?_
    have := h.laid.data
    have := h.laid.bottom
    refine hwrote.bytes x ?_
    rcases hx with ⟨hx, _⟩ | ⟨hx, _⟩ <;> omega
  globals := hwrote.globals.trans h.globals
  room := by rw [hwrote.size]; exact h.room
  pages := by rw [hwrote.pages]; exact h.pages

/-- A value is written where it is stored to. -/
theorem store (htyped : m.Typed kinds) (h : World m kinds bounds high p mem s sp hp) {mem' : IR.Memory}
    {s' : Instance} {a : Address} {ty : IRType} {d : Datum} {target : Nat}
    (hwrote : s.Wrote s' target (target + m.sizeOf ty)) (hresolves : p.Resolves m a ty target)
    (hstore : mem.store? a d = some mem') (hnew : Stored m p s'.memory.byte ty d target) :
    World m kinds bounds high p mem' s' sp hp where
  laid := h.laid
  contents := h.contents.store htyped (fun _ _ _ _ => h.laid.apart) hresolves hstore hnew hwrote.bytes
  constants := by
    obtain ⟨place, hat, hlow, hhigh⟩ := Contents.inside htyped hresolves
    refine h.constants.frame htyped (.refl p) h.laid.data high fun x hx => hwrote.bytes x ?_
    by_contra hin
    exact h.laid.not_spared hat ⟨by omega, by omega⟩ hx
  globals := hwrote.globals.trans h.globals
  room := by rw [hwrote.size]; exact h.room
  pages := by rw [hwrote.pages]; exact h.pages

/-- There is one more slot, in which nothing is. -/
theorem alloca (htyped : m.Typed kinds) (h : World m kinds bounds high p mem s sp hp) {ty : IRType}
    {a : Nat} (hheld : Held kinds ty) (hlow : sp.toNat ≤ a) (hhigh : a + m.sizeOf ty ≤ high)
    (hslots : ∀ place ∈ p.slots, Apart m place (ty, a)) :
    World m kinds bounds high (p.addSlot (ty, a)) { mem with stack := mem.stack ++ [none] } s sp hp where
  laid := by
    refine { h.laid with slots := fun place hplace => ?_, slotsApart := ?_ }
    · rcases List.mem_append.mp hplace with hplace | hplace
      · exact h.laid.slots place hplace
      · cases List.mem_singleton.mp hplace
        exact ⟨hheld, hlow, hhigh⟩
    · refine List.pairwise_append.mpr ⟨h.laid.slotsApart, List.pairwise_singleton _ _, ?_⟩
      intro place hplace place' hplace'
      rw [List.mem_singleton.mp hplace']
      exact hslots place hplace
  contents := by
    refine ⟨h.contents.globals, h.contents.heap, ?_, fun base place d hat hcell => ?_⟩
    · simp [Places.addSlot, h.contents.stack, Nat.add_assoc]
    · obtain ⟨hcell, hnew⟩ := IR.Memory.cell?_of_addSlot hcell
      rcases Places.of_at?_addSlot hat with hat | hbase
      · exact (h.contents.cells base place d hat hcell).frame htyped (p.extends_addSlot _).toBefore
          fun _ _ _ => rfl
      · exact absurd (hbase.trans (congrArg Base.slot h.contents.stack.symm)) hnew
  constants := h.constants.frame htyped (p.extends_addSlot _).toBefore h.laid.data high
    fun _ _ => rfl
  globals := h.globals
  room := h.room
  pages := h.pages

/-- There is one more model, in which nothing is, and memory has grown with the heap. -/
theorem heapAlloc (htyped : m.Typed kinds) (h : World m kinds bounds high p mem s sp hp) {name : String}
    (hname : kinds name = some .model) {s' : Instance} {hp' : UInt32}
    (hglobals : s'.globals = [sp, hp']) (hsize : hp.toNat + m.sizeOf (.struct name) ≤ hp'.toNat)
    (hroom : hp'.toNat ≤ s'.memory.size) (hpages : s'.memory.pages ≤ Wasm.maxPages)
    (hbytes : ∀ x < s.memory.size, s'.memory.byte x = s.memory.byte x) :
    World m kinds bounds high (p.addModel (.struct name, hp.toNat))
      { mem with heap := mem.heap ++ [none] } s' sp hp' where
  laid := by
    have := h.laid.heap
    refine { h.laid with models := fun place hplace => ?_, modelsApart := ?_, heap := by omega }
    · rcases List.mem_append.mp hplace with hplace | hplace
      · obtain ⟨hname, hlow, hhigh⟩ := h.laid.models place hplace
        exact ⟨hname, hlow, by omega⟩
      · cases List.mem_singleton.mp hplace
        exact ⟨⟨name, hname, rfl⟩, h.laid.heap, hsize⟩
    · refine List.pairwise_append.mpr ⟨h.laid.modelsApart, List.pairwise_singleton _ _, ?_⟩
      intro place hplace place' hplace'
      rw [List.mem_singleton.mp hplace']
      exact .inl (h.laid.models place hplace).2.2
  contents := by
    refine ⟨h.contents.globals, ?_, h.contents.stack, fun base place d hat hcell => ?_⟩
    · simp [Places.addModel, h.contents.heap]
    · obtain ⟨hcell, hnew⟩ := IR.Memory.cell?_of_addModel hcell
      rcases Places.of_at?_addModel hat with hat | hbase
      · have hroom := h.room
        have hbound := h.laid.bound hat
        exact (h.contents.cells base place d hat hcell).frame htyped (p.extends_addModel _).toBefore
          fun x _ hx => hbytes x (by omega)
      · exact absurd (hbase.trans (congrArg Base.heap h.contents.heap.symm)) hnew
  constants := by
    refine h.constants.frame htyped (p.extends_addModel _).toBefore h.laid.data bounds.top
      fun x hx => hbytes x ?_
    have := h.laid.data
    have := h.laid.bottom
    have := h.laid.frame
    have := h.laid.stack
    have := h.laid.heap
    have := h.room
    rcases hx with ⟨hx, _⟩ | ⟨_, hx⟩ <;> omega
  globals := hglobals
  room := hroom
  pages := hpages

/-! ## Calls -/

theorem of_at?_above {p : Places} {height : Nat} {base : Base} {place : IRType × Nat}
    (h : (p.above height).at? base = some place) :
    p.lasting? base = some place := by
  cases base with
  | global | heap => exact h
  | slot i =>
    change (if height ≤ i then none else none) = some place at h
    rw [ite_self] at h
    cases h

theorem before_above (p : Places) (height : Nat) : p.Before (p.above height) :=
  ⟨rfl, List.prefix_refl _⟩

/-- A callee sees no slots. -/
theorem enter (htyped : m.Typed kinds) (h : World m kinds bounds high p mem s sp hp) :
    World m kinds bounds sp.toNat (p.above mem.stack.length) mem s sp hp where
  laid := { h.laid with
    slots := fun _ hplace => absurd hplace List.not_mem_nil
    slotsApart := .nil
    frame := Nat.le_refl _
    stack := h.laid.frame.trans h.laid.stack }
  contents := ⟨h.contents.globals, h.contents.heap, rfl, fun base place d hat hcell =>
    (h.contents.cells base place d (Places.at?_of_lasting? (of_at?_above hat)) hcell).frame htyped
      (before_above p _) fun _ _ _ => rfl⟩
  constants := h.constants.frame htyped (before_above p _) h.laid.data high fun _ _ => rfl
  globals := h.globals
  room := h.room
  pages := h.pages

/-- A frame is taken. -/
theorem lower (h : World m kinds bounds high p mem s sp hp) {base : UInt32} (hlow : bounds.floor ≤ base.toNat)
    (hhigh : base.toNat ≤ sp.toNat) :
    World m kinds bounds high p mem (withStack s base) base hp where
  laid := { h.laid with
    slots := fun place hplace => by
      obtain ⟨hheld, hstart, hstop⟩ := h.laid.slots place hplace
      exact ⟨hheld, hhigh.trans hstart, hstop⟩
    bottom := hlow
    frame := hhigh.trans h.laid.frame }
  contents := h.contents
  constants := h.constants
  globals := withStack_globals h.globals base
  room := h.room
  pages := h.pages

/-- A frame is given back, and what was in its slots is gone. -/
theorem leave (htyped : m.Typed kinds) (h : World m kinds bounds high p mem s sp hp) {sp' : UInt32}
    (hsp : sp'.toNat = high) :
    World m kinds bounds high (p.above p.height) { mem with stack := mem.stack.take p.height }
      (withStack s sp') sp' hp where
  laid := { h.laid with
    slots := fun _ hplace => absurd hplace List.not_mem_nil
    slotsApart := .nil
    bottom := hsp ▸ h.laid.bottom.trans h.laid.frame
    frame := Nat.le_of_eq hsp }
  contents := by
    refine ⟨h.contents.globals, h.contents.heap, ?_, fun base place d hat hcell => ?_⟩
    · have := h.contents.stack
      simp only [List.length_take, Places.above, List.length_nil]
      omega
    · have hlasting := of_at?_above hat
      refine (h.contents.cells base place d (Places.at?_of_lasting? hlasting) ?_).frame htyped
        (before_above p _) fun _ _ _ => rfl
      cases base with
      | global | heap => exact hcell
      | slot => cases hlasting
  constants := h.constants.frame htyped (before_above p _) h.laid.data high fun _ _ => rfl
  globals := withStack_globals h.globals sp'
  room := h.room
  pages := h.pages

/-- A caller goes on: its slots are as they were, and the globals and models as the callee left them. -/
theorem resume (htyped : m.Typed kinds) (h : World m kinds bounds high p mem s sp hp) {p' : Places}
    {mem' : IR.Memory} {s' : Instance} {hp' : UInt32}
    (h' : World m kinds bounds sp.toNat p' mem' s' sp hp') (hstack : mem'.stack = mem.stack)
    (hbytes : ∀ x, Spared m bounds sp.toNat x → s'.memory.byte x = s.memory.byte x)
    (hbefore : p.Before p') :
    World m kinds bounds high { p with heap := p'.heap } mem' s' sp hp' where
  laid := { h'.laid with
    globals := h.laid.globals
    slots := h.laid.slots
    slotsApart := h.laid.slotsApart
    frame := h.laid.frame
    stack := h.laid.stack }
  contents := by
    have hback : p'.Before { p with heap := p'.heap } := ⟨hbefore.globals.symm, List.prefix_refl _⟩
    have hforth : p.Before { p with heap := p'.heap } := ⟨rfl, hbefore.heap⟩
    -- Globals and models come from the world that the callee left, slots from the one before the call.
    refine ⟨?_, h'.contents.heap, ?_, fun base place d hat hcell => ?_⟩
    · rw [h'.contents.globals, hbefore.globals]
    · rw [hstack, h.contents.stack]
    · have hlast : p'.lasting? base = some place →
          Stored m { p with heap := p'.heap } s'.memory.byte place.1 d place.2 := fun hlast =>
        (h'.contents.cells base place d (Places.at?_of_lasting? hlast) hcell).frame htyped hback
          fun _ _ _ => rfl
      cases base with
      | global i => exact hlast ((congrArg (fun l => l[i]?) hbefore.globals).trans hat)
      | heap i => exact hlast hat
      | slot i =>
        have hat : p.at? (.slot i) = some place := hat
        have hcell : mem.cell? (.slot i) = some (some d) := by
          simp only [IR.Memory.cell?] at hcell ⊢
          rwa [hstack] at hcell
        refine (h.contents.cells _ _ _ hat hcell).frame htyped hforth fun x hx hx' => hbytes x ?_
        rcases h.laid.region hat with ⟨_, _, he, _⟩ | ⟨_, he, _⟩ | ⟨_, _, _, _, hlow, hhigh⟩
        · cases he
        · cases he
        · have := h.laid.stack
          exact .inr ⟨by omega, by omega⟩
  constants := h'.constants.frame htyped ⟨hbefore.globals.symm, List.prefix_refl _⟩ h.laid.data high
    fun _ _ => rfl
  globals := h'.globals
  room := h'.room
  pages := h'.pages

end World

end Straightline.Lowering
