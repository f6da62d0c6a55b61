import Straightline.Proofs.Lowering.Operands
import Straightline.Proofs.Meaning.Computed

/-!
# Instructions

What the code of one instruction does is what the instruction means: it leaves the world of the memory that
the instruction leaves, and the word of what the instruction computes in the local of its result. There is
one theorem for each kind of instruction but calls and returns.
-/

set_option autoImplicit false

namespace Straightline.Lowering.Activation

open IR (Address Computed Datum Held Inst Kept Kinds Op Results Value operand)
open Wasm (Config Engine Instance Instr Invoke Pushes Reaches Runs Val)

/-- The instructions `before` have been executed, nothing is on the operand stack, and the heap does not
end above `limit`. -/
def Arrives (a : Activation) (m : IR.Module) (kinds : Kinds) (before : List Inst) (results : Results)
    (mem : IR.Memory) (limit : Nat) (c : Config) : Prop :=
  c.stack = [] ∧ ∃ p hp, a.At m kinds before results mem p c.inst c.locals hp ∧ hp.toNat ≤ limit

namespace At

variable {a : Activation} {m : IR.Module} {kinds : Kinds} {before rest : List Inst} {inst : Inst}
variable {results : Results} {mem mem' : IR.Memory} {p p' : Places} {s s' s'' : Instance}
variable {locals : List Val} {hp hp' : UInt32} {engine : Engine} {invoke : Invoke}
variable {v : Value} {d : Datum} {w : Val} {code : List Instr} {place : Nat}

/-! ## Results -/

/-- A result is put into its local. -/
theorem put (ha : a.Proper m kinds) (h : a.At m kinds before results mem p s locals hp)
    (hsplit : a.f.insts = before ++ inst :: rest) (hvoid : inst.ty ≠ .void)
    (hplace : a.ctx.frame.result? inst.id = some place)
    (hw : Represents m p s.memory.byte (a.Quiet m before) inst.ty d w) :
    a.At m kinds (before ++ [inst]) (results.set inst.id (some d)) mem p s (locals.set place w) hp :=
  h.next ha hsplit h.world (.refl p) rfl (fun _ => .inl) (fun _ _ => rfl)
    (.value hvoid hplace (hw.extend ha.suits.typed (.refl p) (fun _ _ => rfl) fun _ =>
      quiet_more [inst]))

/-- A structure is put into its slot, and the address of that into its local. -/
theorem putStruct (ha : a.Proper m kinds) (h : a.At m kinds before results mem p s locals hp)
    (hsplit : a.f.insts = before ++ inst :: rest) (hstruct : inst.ty.isStruct = true)
    (hstored : storedType? inst = some inst.ty)
    (hworld : World m kinds a.bounds a.caller.toNat p' mem' s' a.base hp') (hextends : p.Extends p')
    (hslots : p'.slots = p.slots) (hstack : mem'.stack.take p.height = mem.stack.take p.height)
    (hbytes : ∀ x, a.Quiet m before x → s'.memory.byte x = s.memory.byte x) {slot : UInt32}
    (hslot : a.ctx.frame.slot? inst.id = some slot)
    (hplace : a.ctx.frame.result? inst.id = some place)
    (hwrote : s'.Wrote s'' (a.base + slot).toNat ((a.base + slot).toNat + m.sizeOf inst.ty))
    (hnew : Stored m p' s''.memory.byte inst.ty d (a.base + slot).toNat) :
    a.At m kinds (before ++ [inst]) (results.set inst.id (some d)) mem' p' s''
      (locals.set place (.i32 (a.base + slot))) hp' := by
  have hmem : inst ∈ a.f.insts := hsplit ▸ by simp
  have hown := ha.slot hmem hstored hslot
  obtain ⟨hlow, hhigh⟩ := ha.slot_bound hmem hown
  have hvoid : inst.ty ≠ .void := by
    intro he
    rw [he] at hstruct
    cases hstruct
  have hapart : ∀ place ∈ p'.slots, place.2 + m.sizeOf place.1 ≤ (a.base + slot).toNat ∨
      (a.base + slot).toNat + m.sizeOf inst.ty ≤ place.2 := by
    intro place hplace
    obtain ⟨other, hother, hslot', _⟩ := h.slots place (hslots ▸ hplace)
    obtain ⟨hmem', hne⟩ := ha.earlier hsplit hother
    exact ha.slots_apart hmem' hmem hne hslot' hown
  refine h.next ha hsplit (hworld.scribble ha.suits.typed hwrote hlow hhigh hapart) hextends hstack
    (fun place hplace => .inl (hslots ▸ hplace)) (fun x hx => ?_) (.value hvoid hplace ?_)
  · refine (hwrote.bytes x ?_).trans (hbytes x hx)
    by_contra hin
    exact h.slot_not_quiet ha hsplit hown ⟨by simp only; omega, by simp only; omega⟩ hx
  · cases hty : inst.ty with
    | void | int | ptr =>
      rw [hty] at hstruct
      cases hstruct
    | struct name =>
      rw [hty] at hnew
      refine .struct hnew fun x hx hx' => .inr ⟨inst, by simp, _, hown, ?_⟩
      rw [hty]
      exact ⟨hx, hx'⟩

/-! ## Storage -/

theorem alloca (ha : a.Proper m kinds) (h : a.At m kinds before results mem p s locals hp)
    {id : Nat} {ty : IRType} {name : Option String}
    (hsplit : a.f.insts = before ++ ⟨id, .ptr ty, .alloca ty name⟩ :: rest)
    (hop : Op.Typed m kinds a.f before (.ptr ty) (.alloca ty name)) (hheld : Held kinds ty)
    {slot : UInt32} (hslot : a.ctx.frame.slot? id = some slot)
    (hplace : a.ctx.frame.result? id = some place) {limit : Nat} (hlimit : hp.toNat ≤ limit) :
    Reaches engine invoke (a.ctx.frameAddress slot ++ [.localSet place]) ⟨s, locals, []⟩
      (a.Arrives m kinds (before ++ [⟨id, .ptr ty, .alloca ty name⟩])
        (results.set id (some (.ptr ⟨.slot mem.stack.length, []⟩)))
        { mem with stack := mem.stack ++ [none] } limit) := by
  have hmem : (⟨id, .ptr ty, .alloca ty name⟩ : Inst) ∈ a.f.insts := hsplit ▸ by simp
  have hframed := ha.suits.framed ha.solid hmem hop rfl
  have hown := ha.slot hmem rfl hslot
  obtain ⟨hlow, hhigh⟩ := ha.slot_bound hmem hown
  have hheight : p.height ≤ mem.stack.length := by
    rw [h.world.contents.stack]
    exact Nat.le_add_right _ _
  refine .of_runs ((runs_frameAddress (h.framed hframed) slot).append
    (.localSet (h.place_bounds ha hplace).2)) ⟨rfl, p.addSlot (ty, (a.base + slot).toNat), hp, ?_, hlimit⟩
  refine h.next ha hsplit (h.world.alloca ha.suits.typed hheld hlow hhigh fun place hplace => ?_)
    (p.extends_addSlot _) (List.take_append_of_le_length hheight) (fun place hplace => ?_)
    (fun _ _ => rfl) (.value (by simp) hplace (.of_resolves ⟨ty, _, 0, ?_, .nil, rfl⟩))
  · obtain ⟨other, hother, hslot', _⟩ := h.slots place hplace
    obtain ⟨hmem', hne⟩ := ha.earlier hsplit hother
    exact ha.slots_apart hmem' hmem hne hslot' hown
  · rcases List.mem_append.mp hplace with hplace | hplace
    · exact .inl hplace
    · cases List.mem_singleton.mp hplace
      exact .inr ⟨hown, rfl⟩
  · rw [h.world.contents.stack]
    exact Places.at?_addSlot_self

theorem heapAlloc (ha : a.Proper m kinds) (h : a.At m kinds before results mem p s locals hp)
    {id : Nat} {name : String}
    (hsplit : a.f.insts = before ++ ⟨id, .ptr (.struct name), .heapAlloc (.struct name)⟩ :: rest)
    (hname : kinds name = some .model) {e : Extent}
    (he : a.ctx.layouts.extent (.struct name) = .ok e) {size : UInt32} (hsize : heapSize e = .ok size)
    (hplace : a.ctx.frame.result? id = some place) {limit : Nat}
    (hlimit : hp.toNat + m.modelSize (.struct name) ≤ limit) (hlow : limit < UInt32.size) :
    Reaches engine invoke (heapCode size place) ⟨s, locals, []⟩
      (a.Arrives m kinds (before ++ [⟨id, .ptr (.struct name), .heapAlloc (.struct name)⟩])
        (results.set id (some (.ptr ⟨.heap mem.heap.length, []⟩)))
        { mem with heap := mem.heap ++ [none] } limit) := by
  obtain ⟨e', he', his⟩ := ha.suits.layouts.extent (.of_kept ha.suits.typed (.contents hname))
  cases he.symm.trans he'
  have hsize : size.toNat = m.modelSize (.struct name) :=
    ((Layouts.heapSize_checked his).of_ok hsize).2
  have hsum : (hp + size).toNat = hp.toNat + m.modelSize (.struct name) := by
    rw [toNat_add32 (by omega), hsize]
  refine .after (runs_bump h.world.globals (h.place_bounds ha hplace).2 size) ?_
  refine (reaches_growMemory (s := { s with globals := [a.base, hp + size] }) rfl
    h.world.pages).imp ?_
  rintro ⟨s', locals', stack⟩ ⟨rfl, rfl, hgrown, hpages, hgiven⟩
  have hcovers : (hp + size).toNat ≤ s'.memory.size := by
    rw [Wasm.Memory.size, hpages]
    exact pagesAfter_covers h.world.pages_pos h.world.pages hgiven
  have hspace : m.sizeOf (.struct name) ≤ m.modelSize (.struct name) :=
    (Nat.le_max_left _ 1).trans (le_roundUp (by decide))
  refine ⟨rfl, p.addModel (.struct name, hp.toNat), hp + size, ?_, by omega⟩
  refine h.next ha hsplit (h.world.heapAlloc ha.suits.typed hname hgrown.globals (by omega) hcovers
    hgrown.limit hgrown.bytes) (p.extends_addModel _) rfl (fun _ => .inl) (fun x hx => ?_)
    (.value (by simp) hplace (.of_resolves ⟨.struct name, _, 0, ?_, .nil, rfl⟩))
  · have := h.quiet_lt ha hsplit hx
    have := h.world.laid.heap
    have := h.world.room
    exact hgrown.bytes x (by simp only [Wasm.Memory.size] at this ⊢; omega)
  · rw [h.world.contents.heap]
    exact Places.at?_addModel_self

/-- Bytes that an address stands for are in memory. -/
theorem target_room (ha : a.Proper m kinds) (h : a.At m kinds before results mem p s locals hp)
    {b : Address} {ty : IRType} {target : Nat} (hresolves : p.Resolves m b ty target) :
    target + m.sizeOf ty ≤ hp.toNat := by
  obtain ⟨place, hat, _, hhigh⟩ := Contents.inside ha.suits.typed hresolves
  exact hhigh.trans (h.world.laid.bound hat)

/-- A slot is in memory. -/
theorem slot_room (ha : a.Proper m kinds) (h : a.At m kinds before results mem p s locals hp)
    (hinst : inst ∈ a.f.insts) {place : IRType × Nat} (hslot : a.Slot inst place) :
    place.2 + m.sizeOf place.1 ≤ s.memory.size := by
  obtain ⟨_, hhigh⟩ := ha.slot_bound hinst hslot
  have := h.world.laid.stack
  have := h.world.laid.heap
  have := h.world.room
  omega

theorem store (ha : a.Proper m kinds) (h : a.At m kinds before results mem p s locals hp)
    {id : Nat} {value ptr : Value}
    (hsplit : a.f.insts = before ++ ⟨id, .void, .store value ptr⟩ :: rest)
    (hkept : Kept kinds value.ty) (hvalue : value.Scoped m a.f.params before)
    (hptr : ptr.Scoped m a.f.params before) (hty : ptr.ty = .ptr value.ty) {push store : List Instr}
    (hpush : a.ctx.pushValue ptr = .ok push) (hstores : Stores a.ctx value 0 store) {b : Address}
    (hb : operand a.args results ptr = some (.ptr b)) (hd : operand a.args results value = some d)
    (hstore : mem.store? b d = some mem') {limit : Nat} (hlimit : hp.toNat ≤ limit) :
    Reaches engine invoke (push ++ store) ⟨s, locals, []⟩
      (a.Arrives m kinds (before ++ [⟨id, .void, .store value ptr⟩]) (results.set id none) mem'
        limit) := by
  have hmem : (⟨id, .void, .store value ptr⟩ : Inst) ∈ a.f.insts := hsplit ▸ by simp
  have hoperand : ∀ v ∈ [ptr, value], v ∈ DataImage.operands m := fun v hv =>
    ha.suits.mem_operands hmem hv
  obtain ⟨w, hw, hpush⟩ := h.pushValue ha (hoperand ptr (by simp)) hptr hpush hb
  rw [hty] at hw
  obtain ⟨_, target, ⟨⟩, rfl, hresolves⟩ := hw.ptr_inv
  have hroom := (h.target_room ha hresolves).trans h.world.room
  have hready := h.ready ha hsplit (hoperand value (by simp)) hvalue hkept hd
  obtain ⟨s', hwrote, hnew, hruns⟩ := hready.stores ha.suits.typed hstores h.size_le rfl
    (fun _ _ => rfl) target (by simpa using hroom)
  rw [UInt32.toNat_zero, Nat.add_zero] at hwrote hnew
  refine .of_runs ((hpush engine invoke s []).append (hruns engine invoke [])) ⟨rfl, p, hp, ?_, hlimit⟩
  refine h.next ha hsplit (h.world.store ha.suits.typed hwrote hresolves hstore hnew) (.refl p)
    (Contents.take_store hresolves hstore) (fun _ => .inl) (fun x hx => hwrote.bytes x ?_) (.nothing rfl)
  obtain ⟨place, hat, hlow, hhigh⟩ := Contents.inside ha.suits.typed hresolves
  by_contra hin
  exact h.cell_not_quiet ha hsplit hat ⟨by omega, by omega⟩ hx

theorem load (ha : a.Proper m kinds) (h : a.At m kinds before results mem p s locals hp)
    {id : Nat} {ty : IRType} {ptr : Value} (hsplit : a.f.insts = before ++ ⟨id, ty, .load ptr⟩ :: rest)
    (hheld : Held kinds ty) (hptr : ptr.Scoped m a.f.params before) (hty : ptr.ty = .ptr ty)
    (hstruct : ty.isStruct = false) {push load : List Instr} (hpush : a.ctx.pushValue ptr = .ok push)
    (hload : loadScalar ty = .ok load) (hplace : a.ctx.frame.result? id = some place) {b : Address}
    (hb : operand a.args results ptr = some (.ptr b)) (hd : mem.load? b = some d) {limit : Nat}
    (hlimit : hp.toNat ≤ limit) :
    Reaches engine invoke (push ++ load ++ [.localSet place]) ⟨s, locals, []⟩
      (a.Arrives m kinds (before ++ [⟨id, ty, .load ptr⟩]) (results.set id (some d)) mem limit) := by
  have hmem : (⟨id, ty, .load ptr⟩ : Inst) ∈ a.f.insts := hsplit ▸ by simp
  obtain ⟨w, hw, hpush⟩ :=
    h.pushValue ha (ha.suits.mem_operands hmem (List.mem_singleton_self ptr)) hptr hpush hb
  rw [hty] at hw
  obtain ⟨_, target, ⟨⟩, rfl, hresolves⟩ := hw.ptr_inv
  have hroom := (h.target_room ha hresolves).trans h.world.room
  obtain ⟨n, hn, hat⟩ := (h.world.contents.load hresolves hd).scalar_inv hstruct
  obtain ⟨access, rfl, hwidth, hvalue⟩ := value_load (m := m) hn hload
  have hread : Runs engine invoke [.load access 0] ⟨s, locals, [.i32 target]⟩
      ⟨s, locals, [word ty n]⟩ := by
    rw [← hvalue, ← hat, ← hwidth]
    exact .load (by rw [UInt32.toNat_zero, Nat.add_zero, hwidth]; exact hroom)
  refine .of_runs (((hpush engine invoke s []).append hread).append
    (.localSet (h.place_bounds ha hplace).2)) ⟨rfl, p, hp, ?_, hlimit⟩
  exact h.put ha hsplit hheld.ne_void hplace (.scalar (hn.imp fun _ _ _ _ hl => hl.resolves))

theorem loadStruct (ha : a.Proper m kinds) (h : a.At m kinds before results mem p s locals hp)
    {id : Nat} {ty : IRType} {ptr : Value} (hsplit : a.f.insts = before ++ ⟨id, ty, .load ptr⟩ :: rest)
    (hop : Op.Typed m kinds a.f before ty (.load ptr)) (hheld : Held kinds ty)
    (hptr : ptr.Scoped m a.f.params before) (hty : ptr.ty = .ptr ty) (hstruct : ty.isStruct = true)
    {slot : UInt32} (hslot : a.ctx.frame.slot? id = some slot) {push : List Instr}
    (hpush : a.ctx.pushValue ptr = .ok push) {e : Extent} (he : a.ctx.layouts.extent ty = .ok e)
    (hplace : a.ctx.frame.result? id = some place) {b : Address}
    (hb : operand a.args results ptr = some (.ptr b)) (hd : mem.load? b = some d) {limit : Nat}
    (hlimit : hp.toNat ≤ limit) :
    Reaches engine invoke (a.ctx.frameAddress slot ++ push ++ [.i32Const e.size, .memoryCopy]
        ++ a.ctx.frameAddress slot ++ [.localSet place]) ⟨s, locals, []⟩
      (a.Arrives m kinds (before ++ [⟨id, ty, .load ptr⟩]) (results.set id (some d)) mem limit) := by
  have hmem : (⟨id, ty, .load ptr⟩ : Inst) ∈ a.f.insts := hsplit ▸ by simp
  have hstored : storedType? ⟨id, ty, .load ptr⟩ = some ty := by simp [storedType?, hstruct]
  have hframed := ha.suits.framed ha.solid hmem hop hstored
  obtain ⟨e', he', his⟩ := ha.suits.layouts.extent (.of_kept ha.suits.typed (.held hheld))
  cases he.symm.trans he'
  have hwidth : e.size.toNat = m.sizeOf ty := his.size
  obtain ⟨w, hw, hpush⟩ :=
    h.pushValue ha (ha.suits.mem_operands hmem (List.mem_singleton_self ptr)) hptr hpush hb
  rw [hty] at hw
  obtain ⟨_, target, ⟨⟩, rfl, hresolves⟩ := hw.ptr_inv
  have hsource := (h.target_room ha hresolves).trans h.world.room
  have hroom := h.slot_room ha hmem (ha.slot hmem hstored hslot)
  obtain ⟨s', hwrote, hcopied, hruns⟩ := runs_copy (s := s) e.size target (a.base + slot)
    (by rw [hwidth]; exact hsource) (by rw [hwidth]; exact hroom)
  rw [hwidth] at hwrote hcopied
  have hframe : ∀ s stack, Runs engine invoke (a.ctx.frameAddress slot) ⟨s, locals, stack⟩
      ⟨s, locals, .i32 (a.base + slot) :: stack⟩ := fun _ _ =>
    runs_frameAddress (h.framed hframed) slot
  refine .of_runs (((((hframe s []).append (hpush engine invoke s _)).append
    (hruns engine invoke locals [])).append (hframe s' [])).append
    (.localSet (h.place_bounds ha hplace).2)) ⟨rfl, p, hp, ?_, hlimit⟩
  exact h.putStruct ha hsplit hstruct hstored h.world (.refl p) rfl rfl (fun _ _ => rfl) hslot hplace
    hwrote ((h.world.contents.load hresolves hd).copy ha.suits.typed (.refl p) hcopied)

theorem fieldAddr (ha : a.Proper m kinds) (h : a.At m kinds before results mem p s locals hp)
    {id : Nat} {ty : IRType} {ptr : Value} {index : Nat} {name : String} {sd : IR.StructDef}
    (hsplit : a.f.insts = before ++ ⟨id, .ptr ty, .fieldAddr ptr index⟩ :: rest)
    (hptr : ptr.Scoped m a.f.params before) (hty : ptr.ty = .ptr (.struct name))
    (hdef : m.structDef? name = some sd) (hfield : sd.fields[index]? = some ty) {push : List Instr}
    {offset : UInt32} (hoffset : a.ctx.layouts.fieldOffset ptr.ty index = .ok offset)
    (hpush : a.ctx.pushValue ptr = .ok push) (hplace : a.ctx.frame.result? id = some place)
    {b : Address} (hb : operand a.args results ptr = some (.ptr b)) {limit : Nat}
    (hlimit : hp.toNat ≤ limit) :
    Reaches engine invoke (push ++ addOffset offset ++ [.localSet place]) ⟨s, locals, []⟩
      (a.Arrives m kinds (before ++ [⟨id, .ptr ty, .fieldAddr ptr index⟩])
        (results.set id (some (.ptr ⟨b.base, b.path ++ [index]⟩))) mem limit) := by
  have hmem : (⟨id, .ptr ty, .fieldAddr ptr index⟩ : Inst) ∈ a.f.insts := hsplit ▸ by simp
  obtain ⟨w, hw, hpush⟩ :=
    h.pushValue ha (ha.suits.mem_operands hmem (List.mem_singleton_self ptr)) hptr hpush hb
  obtain ⟨offset', hoffset', hstart⟩ := ha.suits.fieldOffset hty hdef hfield
  cases hoffset.symm.trans hoffset'
  rw [hty] at hw
  obtain ⟨_, target, ⟨⟩, rfl, root, first, inner, hat, hleads, htarget⟩ := hw.ptr_inv
  have hresolves : p.Resolves m ⟨b.base, b.path ++ [index]⟩ ty (target.toNat + offset.toNat) :=
    ⟨root, first, inner + offset.toNat, hat, hleads.concat hdef hfield hstart,
      by rw [htarget, Nat.add_assoc]⟩
  have hroom := h.target_room ha hresolves
  have hlt := hp.toNat_lt
  have hsum : (target + offset).toNat = target.toNat + offset.toNat :=
    toNat_add32 (by unfold UInt32.size; omega)
  refine .of_runs (((hpush engine invoke s []).append (runs_addOffset target offset)).append
    (.localSet (h.place_bounds ha hplace).2)) ⟨rfl, p, hp, ?_, hlimit⟩
  exact h.put ha hsplit (by simp) hplace (.of_resolves (hsum ▸ hresolves))

theorem arithmetic (ha : a.Proper m kinds) (h : a.At m kinds before results mem p s locals hp)
    {bits : Nat} (hsplit : a.f.insts = before ++ inst :: rest) (hty : inst.ty = .int bits)
    (hbits : bits ∈ IR.widths) (hone : bits ≠ 1) {lhs rhs : Value}
    (hoperands : ∀ v ∈ [lhs, rhs], v ∈ inst.op.operands)
    (hlhs : lhs.Scoped m a.f.params before) (hrhs : rhs.Scoped m a.f.params before)
    (hlhsTy : lhs.ty = .int bits) (hrhsTy : rhs.ty = .int bits) {left right : List Instr}
    (hleft : a.ctx.pushValue lhs = .ok left) (hright : a.ctx.pushValue rhs = .ok right)
    (hplace : a.ctx.frame.result? inst.id = some place) {x y z : Int}
    (hx : operand a.args results lhs = some (.int x)) (hy : operand a.args results rhs = some (.int y))
    {op cut : List Instr} (hruns : Runs engine invoke (op ++ cut)
      ⟨s, locals, [word (.int bits) y, word (.int bits) x]⟩
      ⟨s, locals, [word (.int bits) (z.bmod (Nat.pow 2 bits))]⟩)
    {limit : Nat} (hlimit : hp.toNat ≤ limit) :
    Reaches engine invoke (left ++ right ++ op ++ cut ++ [.localSet place]) ⟨s, locals, []⟩
      (a.Arrives m kinds (before ++ [inst])
        (results.set inst.id (some (.int (z.bmod (Nat.pow 2 bits))))) mem limit) := by
  have hmem : inst ∈ a.f.insts := hsplit ▸ by simp
  have hoperand := fun v hv => ha.suits.mem_operands hmem (hoperands v hv)
  have hnumber : ∀ {v : Value} {z : Int} {w : Val}, v.ty = .int bits →
      Represents m p s.memory.byte (a.Quiet m before) v.ty (.int z) w → w = word (.int bits) z := by
    intro v z w hv hw
    rw [hv] at hw
    obtain ⟨n, hn, rfl⟩ := hw.scalar_inv rfl
    cases hn
    rfl
  obtain ⟨w, hw, hpush⟩ := h.pushValue ha (hoperand lhs (by simp)) hlhs hleft hx
  obtain ⟨w', hw', hpush'⟩ := h.pushValue ha (hoperand rhs (by simp)) hrhs hright hy
  cases hnumber hlhsTy hw
  cases hnumber hrhsTy hw'
  have hpushes := (hpush engine invoke s []).append (hpush' engine invoke s _)
  rw [List.append_assoc (left ++ right)]
  refine .of_runs ((hpushes.append hruns).append (.localSet (h.place_bounds ha hplace).2))
    ⟨rfl, p, hp, ?_, hlimit⟩
  refine h.put ha hsplit (by simp [hty]) hplace ?_
  rw [hty]
  exact .scalar (.int hbits (canonical_bmod hbits hone _))

theorem aggregate (ha : a.Proper m kinds) (h : a.At m kinds before results mem p s locals hp)
    {id : Nat} {name : String} {fields : List Value} {sd : IR.StructDef}
    (hsplit : a.f.insts = before ++ ⟨id, .struct name, .aggregate fields⟩ :: rest)
    (hop : Op.Typed m kinds a.f before (.struct name) (.aggregate fields))
    (hdef : m.structDef? name = some sd)
    (hfields : ∀ field ∈ fields, field.Scoped m a.f.params before)
    (htypes : fields.map Value.ty = sd.fields) {layout : StructLayout}
    (hlayout : a.ctx.layouts.get name = .ok layout) {slot : UInt32}
    (hslot : a.ctx.frame.slot? id = some slot) {stores : List Instr}
    (hstores : StoresFields a.ctx slot fields layout.offsets stores)
    (hplace : a.ctx.frame.result? id = some place) {data : List Datum}
    (hdata : fields.mapM (operand a.args results) = some data) {limit : Nat} (hlimit : hp.toNat ≤ limit) :
    Reaches engine invoke (stores ++ a.ctx.frameAddress slot ++ [.localSet place]) ⟨s, locals, []⟩
      (a.Arrives m kinds (before ++ [⟨id, .struct name, .aggregate fields⟩])
        (results.set id (some (.struct data))) mem limit) := by
  have hmem : (⟨id, .struct name, .aggregate fields⟩ : Inst) ∈ a.f.insts := hsplit ▸ by simp
  have hframed := ha.suits.framed ha.solid hmem hop rfl
  have hown := ha.slot hmem rfl hslot
  obtain ⟨hstruct, rfl⟩ := IR.Module.of_structDef? hdef
  obtain ⟨i, hi⟩ := List.getElem?_of_mem hstruct
  obtain ⟨layout', hlayout', _, hoffsets⟩ := ha.suits.layouts sd hstruct
  cases hlayout.symm.trans hlayout'
  have hspaces : (fields.map fun v => m.space v.ty) = sd.fields.map m.space := by
    rw [← htypes, List.map_map]
    rfl
  have hwhole : Space.stops 0 (fields.map fun v => m.space v.ty) ≤ m.sizeOf (.struct sd.name) := by
    rw [hspaces, IR.Module.sizeOf, ha.suits.typed.space_struct hi]
    exact Space.stops_le_whole _
  have hroom := h.slot_room ha hmem hown
  simp only at hroom
  -- Fields may be structures that lie in the frame themselves; they are quiet, and the slot is not.
  have hready : List.Forall₂
      (Ready a.ctx m p s.memory.byte (a.Quiet m before) s.memory.size locals) fields data := by
    have hkept : ∀ v ∈ fields, Kept kinds v.ty := fun v hv =>
      .held ((ha.suits.typed.structs i sd hi).2 v.ty (htypes ▸ List.mem_map_of_mem hv)).1
    refine ((List.forall₂_and_left (p := (· ∈ fields)) _ _).mpr
      ⟨fun _ hv => hv, Option.forall₂_of_mapM hdata⟩).imp ?_
    rintro v d ⟨hv, hd⟩
    exact h.ready ha hsplit (ha.suits.mem_operands hmem hv) (hfields v hv) (hkept v hv) hd
  obtain ⟨s', hwrote, hstored, hruns⟩ := Ready.storesFields ha.suits.typed hstores hready
    (h.framed hframed) h.size_le (n := 0) (by rw [hspaces]; exact hoffsets) (by omega)
    (fun x hlow hhigh => h.slot_not_quiet ha hsplit hown ⟨by simp only; omega, by simp only; omega⟩)
    rfl fun _ _ => rfl
  refine .of_runs (((hruns engine invoke).append (runs_frameAddress (h.framed hframed) slot)).append
    (.localSet (h.place_bounds ha hplace).2)) ⟨rfl, p, hp, ?_, hlimit⟩
  refine h.putStruct ha hsplit rfl rfl h.world (.refl p) rfl rfl (fun _ _ => rfl) hslot hplace
    (hwrote.mono (Nat.le_refl _) (by simp only; omega)) (.struct hdef ?_ ?_)
  · rw [← htypes, List.length_map]
    exact (Option.forall₂_of_mapM hdata).length_eq.symm
  · intro index ty start field hty hstart hfield
    rw [← htypes, List.getElem?_map] at hty
    obtain ⟨v, hv, rfl⟩ := Option.map_eq_some_iff.mp hty
    exact hstored index v start field hv (by rw [hspaces]; exact hstart) hfield

end At

end Straightline.Lowering.Activation
