import Straightline.Proofs.Lowering.Modules
import Straightline.Proofs.Lowering.Storing
import Straightline.Proofs.Lowering.Usage
import Straightline.Proofs.Lowering.Valid
import Straightline.Proofs.Lowering.World

/-!
# Functions while they are executed

An activation is one call of a function, with what there was when it began. Between two instructions
(`Activation.At`) the memory and the instance go together, every parameter and every result so far is
represented by its local, and the slots of the `alloca`s so far are cells.

The bytes that nothing writes to from now on are quiet: what was spared when the call began, and the slots
into which an instruction has put a structure. So a structure in hand stays what it is, whatever is stored
meanwhile. What an instruction does is put together from what it does to the world and from the result that
it puts into its local (`Activation.At.next`).
-/

set_option autoImplicit false

namespace Straightline.Lowering

open IR (Address Datum Held Inst Kept Kinds Op Results Value)
open Wasm (Config Engine Instance Instr Invoke Reaches Runs Val)

/-- A call of a function. -/
structure Activation where
  ctx : FunctionContext
  f : IR.Function
  args : List Datum
  bounds : StackBounds
  /-- The stack pointer before the frame was taken. -/
  caller : UInt32
  /-- The slots of the callers. -/
  below : List (Option Datum)
  /-- Places and bytes when the call began. -/
  places : Places
  byte : Nat → UInt8

namespace Activation

/-- The address of the frame. -/
def base (a : Activation) : UInt32 := a.caller - a.ctx.frame.size

/-- Where an instruction keeps what it keeps. -/
def Slot (a : Activation) (inst : Inst) (place : IRType × Nat) : Prop :=
  storedType? inst = some place.1 ∧ ∃ offset, a.ctx.frame.slot? inst.id = some offset ∧
    place.2 = a.base.toNat + offset.toNat

/-- The bytes of the structures that instructions have put into the frame. -/
def Scratch (a : Activation) (m : IR.Module) (before : List Inst) (x : Nat) : Prop :=
  ∃ inst ∈ before, ∃ start, a.Slot inst (inst.ty, start) ∧ Inside m (inst.ty, start) x

/-- The bytes that nothing writes to from now on until the function returns. -/
def Quiet (a : Activation) (m : IR.Module) (before : List Inst) (x : Nat) : Prop :=
  Spared m a.bounds a.caller.toNat x ∨ a.Scratch m before x

/-- The function is one of the module that is executed, and there was room for its frame. -/
structure Proper (a : Activation) (m : IR.Module) (kinds : Kinds) : Prop where
  suits : a.ctx.Suits m kinds a.f
  solid : Solid m
  room : a.ctx.frame.size.toNat ≤ a.caller.toNat

/-- The instructions `before` have been executed. -/
structure At (a : Activation) (m : IR.Module) (kinds : Kinds) (before : List Inst)
    (results : Results) (mem : IR.Memory) (p : Places) (s : Instance) (locals : List Val)
    (hp : UInt32) : Prop where
  world : World m kinds a.bounds a.caller.toNat p mem s a.base hp
  height : p.height = a.below.length
  below : mem.stack.take p.height = a.below
  slots : ∀ place ∈ p.slots, ∃ inst ∈ before, a.Slot inst place ∧ inst.ty = .ptr place.1
  places : a.places.Before p
  spared : ∀ x, Spared m a.bounds a.caller.toNat x → s.memory.byte x = a.byte x
  types : locals.map Val.type = a.f.params.map valType ++ a.ctx.frame.locals
  framed : a.ctx.frame.size ≠ 0 → locals[a.ctx.frame.base]? = some (.i32 a.base)
  params : ∀ (i : Nat) (ty : IRType), a.f.params[i]? = some ty →
    ∃ d v, a.args[i]? = some d ∧ locals[i]? = some v ∧
      Represents m p s.memory.byte (a.Quiet m before) ty d v
  results : ∀ (i : Nat) (inst : Inst), before[i]? = some inst → inst.ty ≠ .void →
    ∃ d v place, results i = some d ∧ a.ctx.frame.result? i = some place ∧
      locals[place]? = some v ∧ Represents m p s.memory.byte (a.Quiet m before) inst.ty d v

variable {a : Activation} {m : IR.Module} {kinds : Kinds} {before rest : List Inst} {inst : Inst}
variable {results : Results} {mem mem' : IR.Memory} {p p' : Places} {s s' : Instance}
variable {locals : List Val} {hp hp' : UInt32} {engine : Engine} {invoke : Invoke}

theorem quiet_more {x : Nat} (more : List Inst) (h : a.Quiet m before x) :
    a.Quiet m (before ++ more) x := by
  refine h.imp_right ?_
  rintro ⟨inst, hinst, hscratch⟩
  exact ⟨inst, List.mem_append_left _ hinst, hscratch⟩

/-- After the frame comes the one of the caller. -/
theorem base_add : a.base + a.ctx.frame.size = a.caller := UInt32.sub_add_cancel _ _

/-! ## Slots -/

namespace Proper

theorem toNat_base (h : a.Proper m kinds) :
    a.base.toNat + a.ctx.frame.size.toNat = a.caller.toNat := by
  have hle : a.ctx.frame.size ≤ a.caller := UInt32.le_iff_toNat_le.mpr h.room
  have hroom := h.room
  rw [base, UInt32.toNat_sub_of_le _ _ hle]
  omega

/-- An instruction that was executed is one of the function, and another than the next. -/
theorem earlier (h : a.Proper m kinds) (hsplit : a.f.insts = before ++ inst :: rest) {other : Inst}
    (hother : other ∈ before) : other ∈ a.f.insts ∧ other.id ≠ inst.id := by
  obtain ⟨i, hi⟩ := List.getElem?_of_mem hother
  obtain ⟨hmem, hid⟩ := h.suits.earlier hsplit hi
  have hchain := h.suits.function.chain
  rw [hsplit] at hchain
  have hlt := (List.getElem?_eq_some_iff.mp hi).1
  refine ⟨hmem, ?_⟩
  rw [hid, hchain.typed.1, List.nil_append]
  exact Nat.ne_of_lt hlt

theorem slot_bound (h : a.Proper m kinds) (hinst : inst ∈ a.f.insts) {place : IRType × Nat}
    (hslot : a.Slot inst place) :
    a.base.toNat ≤ place.2 ∧ place.2 + m.sizeOf place.1 ≤ a.caller.toNat := by
  obtain ⟨hstored, offset, hoffset, hplace⟩ := hslot
  have hbound := h.suits.frame.slot_bound h.suits.function hinst hstored hoffset
  have hbase := h.toNat_base
  omega

/-- The address of a slot that the code finds. -/
theorem slot (h : a.Proper m kinds) (hinst : inst ∈ a.f.insts) {ty : IRType}
    (hstored : storedType? inst = some ty) {offset : UInt32}
    (hoffset : a.ctx.frame.slot? inst.id = some offset) :
    a.Slot inst (ty, (a.base + offset).toNat) := by
  have hbound := h.suits.frame.slot_bound h.suits.function hinst hstored hoffset
  have hbase := h.toNat_base
  have hlt := a.caller.toNat_lt
  exact ⟨hstored, offset, hoffset, toNat_add32 (by unfold UInt32.size; omega)⟩

/-- The slots of two instructions have no byte in common. -/
theorem slots_apart (h : a.Proper m kinds) {inst' : Inst} (hinst : inst ∈ a.f.insts)
    (hinst' : inst' ∈ a.f.insts) (hne : inst.id ≠ inst'.id) {place place' : IRType × Nat}
    (hslot : a.Slot inst place) (hslot' : a.Slot inst' place') : Apart m place place' := by
  obtain ⟨hstored, offset, hoffset, hplace⟩ := hslot
  obtain ⟨hstored', offset', hoffset', hplace'⟩ := hslot'
  have := h.suits.frame.slots_apart h.suits.function hinst hstored hinst' hstored' hne hoffset hoffset'
  unfold Apart
  omega

end Proper

/-! ## Between two instructions -/

namespace At

/-- Quiet bytes are spared by callees. -/
theorem spared_of_quiet (ha : a.Proper m kinds) (h : a.At m kinds before results mem p s locals hp)
    (hsplit : a.f.insts = before ++ inst :: rest) {x : Nat} (hx : a.Quiet m before x) :
    Spared m a.bounds a.base.toNat x := by
  have hbase := ha.toNat_base
  have hstack := h.world.laid.stack
  rcases hx with (hdata | ⟨hcaller, htop⟩) | ⟨other, hother, start, hslot, hlow, hhigh⟩
  · exact .inl hdata
  · exact .inr ⟨by omega, htop⟩
  · obtain ⟨hfirst, hlast⟩ := ha.slot_bound (ha.earlier hsplit hother).1 hslot
    exact .inr ⟨hfirst.trans hlow, hhigh.trans_le (hlast.trans hstack)⟩

theorem quiet_lt (ha : a.Proper m kinds) (h : a.At m kinds before results mem p s locals hp)
    (hsplit : a.f.insts = before ++ inst :: rest) {x : Nat} (hx : a.Quiet m before x) : x < a.bounds.top := by
  have := h.world.laid.bottom
  have := h.world.laid.frame
  have := h.world.laid.stack
  rcases h.spared_of_quiet ha hsplit hx with ⟨hdata, _⟩ | ⟨_, htop⟩
  · omega
  · exact htop

/-- No cell is quiet. -/
theorem cell_not_quiet (ha : a.Proper m kinds) (h : a.At m kinds before results mem p s locals hp)
    (hsplit : a.f.insts = before ++ inst :: rest) {b : IR.Base} {place : IRType × Nat}
    (hat : p.at? b = some place) {x : Nat} (hx : Inside m place x) : ¬a.Quiet m before x := by
  rintro (hspared | ⟨other, hother, start, hslot, hin⟩)
  · exact h.world.laid.not_spared hat hx hspared
  · have hmem := (ha.earlier hsplit hother).1
    obtain ⟨hfirst, hlast⟩ := ha.slot_bound hmem hslot
    have := h.world.laid.data
    have := h.world.laid.bottom
    have := h.world.laid.stack
    obtain ⟨hx, hx'⟩ := hx
    obtain ⟨hin, hin'⟩ := hin
    simp only at hfirst hlast hin hin'
    rcases h.world.laid.region hat with ⟨_, _, _, _, _, _, _, _, _, hend⟩ | ⟨_, _, _, hstart, _⟩ |
      ⟨_, _, _, hi, _⟩
    · omega
    · omega
    · obtain ⟨inst', hinst', hslot', hty⟩ := h.slots place (List.mem_of_getElem? hi)
      have hmem' := (ha.earlier hsplit hinst').1
      have hne : other.id ≠ inst'.id := by
        intro hid
        obtain rfl := List.inj_on_of_nodup_map ha.suits.function.nodup_ids hmem hmem' hid
        have hself : IRType.ptr place.1 = place.1 :=
          hty.symm.trans (Option.some.inj (hslot.1.symm.trans hslot'.1))
        exact absurd (congrArg sizeOf hself) (by simp)
      have := ha.slots_apart hmem hmem' hne hslot hslot'
      unfold Apart at this
      simp only at this
      omega

/-- The slot of the next instruction is not quiet. -/
theorem slot_not_quiet (ha : a.Proper m kinds) (h : a.At m kinds before results mem p s locals hp)
    (hsplit : a.f.insts = before ++ inst :: rest) {place : IRType × Nat} (hslot : a.Slot inst place)
    {x : Nat} (hx : Inside m place x) : ¬a.Quiet m before x := by
  have hmem : inst ∈ a.f.insts := hsplit ▸ by simp
  obtain ⟨hfirst, hlast⟩ := ha.slot_bound hmem hslot
  have := h.world.laid.bottom
  obtain ⟨hx, hx'⟩ := hx
  rintro ((⟨hdata, _⟩ | ⟨hcaller, _⟩) | ⟨other, hother, start, hscratch, hin, hin'⟩)
  · omega
  · omega
  · obtain ⟨hmem', hne⟩ := ha.earlier hsplit hother
    have := ha.slots_apart hmem' hmem hne hscratch hslot
    unfold Apart at this
    simp only at this hin hin'
    omega

end At

/-! ## One instruction more -/

/-- What the next instruction leaves in the results and in the locals. -/
inductive Gains (a : Activation) (m : IR.Module) (before : List Inst) (inst : Inst)
    (results : Results) (p : Places) (byte : Nat → UInt8) (locals : List Val) :
    Option Datum → List Val → Prop where
  | nothing {d : Option Datum} : inst.ty = .void →
      Gains a m before inst results p byte locals d locals
  | value {d : Datum} {v : Val} {place : Nat} : inst.ty ≠ .void →
      a.ctx.frame.result? inst.id = some place →
      Represents m p byte (a.Quiet m (before ++ [inst])) inst.ty d v →
      Gains a m before inst results p byte locals (some d) (locals.set place v)

/-- No local is changed but that of the result. -/
theorem Gains.getElem?_ne {p : Places} {byte : Nat → UInt8} {locals' : List Val} {d : Option Datum}
    (h : Gains a m before inst results p byte locals d locals') {i : Nat}
    (hi : ∀ place, a.ctx.frame.result? inst.id = some place → i ≠ place) : locals'[i]? = locals[i]? := by
  cases h with
  | nothing => rfl
  | value _ hplace => exact List.getElem?_set_ne (hi _ hplace).symm

/-- The local of the result gets a word of the type that it has. -/
theorem Gains.types_eq {p : Places} {byte : Nat → UInt8} {locals' : List Val} {d : Option Datum}
    (h : Gains a m before inst results p byte locals d locals') (ha : a.Proper m kinds)
    (hinst : inst ∈ a.f.insts)
    (htypes : locals.map Val.type = a.f.params.map valType ++ a.ctx.frame.locals) :
    locals'.map Val.type = a.f.params.map valType ++ a.ctx.frame.locals := by
  cases h with
  | nothing => exact htypes
  | value hvoid hplace hv =>
    obtain ⟨place', hplace', _, htype⟩ := ha.suits.frame.result ha.suits.function hinst hvoid
    cases hplace.symm.trans hplace'
    obtain ⟨hlt, heq⟩ := List.getElem?_eq_some_iff.mp htype
    rw [List.map_set, htypes, hv.type_eq, ← heq]
    exact List.set_getElem_self hlt

namespace At

/-- The local of a result is none of the parameters, not that of the frame, and there. -/
theorem place_bounds (ha : a.Proper m kinds) (h : a.At m kinds before results mem p s locals hp)
    {id place : Nat} (hplace : a.ctx.frame.result? id = some place) :
    a.f.params.length + a.ctx.frame.baseLocals.length ≤ place ∧ place < locals.length := by
  have hlength := congrArg List.length h.types
  rw [List.length_map, List.length_append, List.length_map] at hlength
  rw [hlength]
  exact ha.suits.frame.numbered.result_bounds hplace

/-- After an instruction that keeps quiet bytes as they are, everything is as it was before, and its
result is there. -/
theorem next (ha : a.Proper m kinds) (h : a.At m kinds before results mem p s locals hp)
    (hsplit : a.f.insts = before ++ inst :: rest) {locals' : List Val} {d : Option Datum}
    (hworld : World m kinds a.bounds a.caller.toNat p' mem' s' a.base hp') (hextends : p.Extends p')
    (hstack : mem'.stack.take p.height = mem.stack.take p.height)
    (hslots : ∀ place ∈ p'.slots, place ∈ p.slots ∨ a.Slot inst place ∧ inst.ty = .ptr place.1)
    (hbytes : ∀ x, a.Quiet m before x → s'.memory.byte x = s.memory.byte x)
    (hgains : Gains a m before inst results p' s'.memory.byte locals d locals') :
    a.At m kinds (before ++ [inst]) (results.set inst.id d) mem' p' s' locals' hp' := by
  have hmem : inst ∈ a.f.insts := hsplit ▸ by simp
  have hkeep : ∀ {ty d v}, Represents m p s.memory.byte (a.Quiet m before) ty d v →
      Represents m p' s'.memory.byte (a.Quiet m (before ++ [inst])) ty d v := fun hv =>
    hv.extend ha.suits.typed hextends hbytes fun _ => quiet_more [inst]
  have hid : inst.id = before.length := by
    have hchain := ha.suits.function.chain
    rw [hsplit] at hchain
    exact hchain.typed.1
  have hlocals : ∀ i, (∀ place, a.ctx.frame.result? inst.id = some place → i ≠ place) →
      locals'[i]? = locals[i]? := fun _ => hgains.getElem?_ne
  have hbounds : ∀ place, a.ctx.frame.result? inst.id = some place →
      a.f.params.length + a.ctx.frame.baseLocals.length ≤ place ∧ place < locals.length :=
    fun _ hplace => h.place_bounds ha hplace
  constructor
  case world => exact hworld
  case height => exact hextends.height.trans h.height
  case below => rw [hextends.height, hstack, h.below]
  case places => exact h.places.trans hextends.toBefore
  case spared => exact fun x hx => (hbytes x (.inl hx)).trans (h.spared x hx)
  case slots =>
    intro place hplace
    rcases hslots place hplace with hplace | hplace
    · obtain ⟨inst', hinst', hslot⟩ := h.slots place hplace
      exact ⟨inst', List.mem_append_left _ hinst', hslot⟩
    · exact ⟨inst, List.mem_append_right _ (List.mem_singleton_self _), hplace⟩
  case types => exact hgains.types_eq ha hmem h.types
  case framed =>
    intro hsize
    refine (hlocals _ fun place hplace => ?_).trans (h.framed hsize)
    have hlow := (hbounds place hplace).1
    rw [Frame.baseLocals, if_neg hsize, List.length_singleton] at hlow
    rw [ha.suits.frame.base]
    omega
  case params =>
    intro i ty hty
    obtain ⟨d, v, hd, hv, hrepresents⟩ := h.params i ty hty
    have hlt := (List.getElem?_eq_some_iff.mp hty).1
    refine ⟨d, v, hd, (hlocals i fun place hplace => ?_).trans hv, hkeep hrepresents⟩
    have := (hbounds place hplace).1
    omega
  case results =>
    intro i inst' hinst' hvoid
    rcases of_getElem?_concat hinst' with hinst' | ⟨hi, rfl⟩
    · obtain ⟨d', v, place, hd, hplace, hv, hrepresents⟩ := h.results i inst' hinst' hvoid
      have hlt := (List.getElem?_eq_some_iff.mp hinst').1
      have hne : i ≠ inst.id := by omega
      refine ⟨d', v, place, ?_, hplace, (hlocals place fun place' hplace' he => ?_).trans hv,
        hkeep hrepresents⟩
      · rw [Results.set, if_neg hne, hd]
      · subst he
        exact hne (ha.suits.frame.numbered.results_apart hplace hplace')
    · obtain rfl : i = inst'.id := hi.trans hid.symm
      cases hgains with
      | nothing hnone => exact absurd hnone hvoid
      | value _ hplace hv =>
        have hlt := (hbounds _ hplace).2
        exact ⟨_, _, _, if_pos rfl, hplace, List.getElem?_set_self hlt, hv⟩

end At

end Activation

end Straightline.Lowering
