import Straightline.Proofs.Lowering.Frames
import Straightline.Proofs.Units.Typed

/-!
# Lowering does not fail

A module that was built and that fits can be lowered, unless the shadow stack leaves the 32-bit
addresses or a function has the name under which memory is exported (`lowerToWasm_total`). Whatever an
instruction needs is there: an operand is scoped, so it has a local or an address; a result has a local,
and what is kept in the frame a slot; and no type occurs that has no representation. Where a module does
not fit, lowering is stopped, unless it fails before for one of the two reasons.
-/

set_option autoImplicit false

namespace Straightline

section Defined

variable {ε α β : Type}

/-- Two steps come to a result if the first does, and the second with what the first gave. -/
theorem Except.defined_bind {x : Except ε α} {k : α → Except ε β} (hx : ∃ a, x = .ok a)
    (hk : ∀ a, x = .ok a → ∃ b, k a = .ok b) : ∃ b, x >>= k = .ok b := by
  obtain ⟨a, rfl⟩ := hx
  exact hk a rfl

theorem Except.defined_mapM {f : α → Except ε β} {l : List α} (h : ∀ a ∈ l, ∃ b, f a = .ok b) :
    ∃ bs, l.mapM f = .ok bs := by
  induction l with
  | nil => exact ⟨[], rfl⟩
  | cons a rest ih =>
    rw [List.mapM_cons]
    refine defined_bind (h a List.mem_cons_self) fun b _ => ?_
    exact defined_bind (ih fun a' ha' => h a' (List.mem_cons_of_mem _ ha')) fun bs _ => ⟨_, rfl⟩

end Defined

namespace Lowering

open IR (Held Inst Kept Kinds Op Value)

/-! ## Functions -/

/-- The code of a function of the module is made from what belongs to it. -/
structure FunctionContext.Suits (ctx : FunctionContext) (m : IR.Module) (kinds : Kinds)
    (f : IR.Function) : Prop where
  typed : m.Typed kinds
  member : f ∈ m.functions
  layouts : ctx.layouts.Know m m.structs
  data : ctx.data.Holds m (m.globals.map fun g => (g.ty, g.init)) m.pool
  frame : ctx.frame.Is m f

namespace FunctionContext.Suits

variable {ctx : FunctionContext} {m : IR.Module} {kinds : Kinds} {f : IR.Function}
variable {before rest : List Inst} {inst : Inst} {v : Value}

theorem function (h : ctx.Suits m kinds f) : f.Typed m kinds := h.typed.functions f h.member

theorem mem_operands (h : ctx.Suits m kinds f) (hinst : inst ∈ f.insts)
    (hv : v ∈ inst.op.operands) : v ∈ DataImage.operands m :=
  List.mem_flatMap.mpr ⟨f, h.member, List.mem_flatMap.mpr ⟨inst, hinst, hv⟩⟩

/-- A result that came before is that of an instruction of the function, under its number. -/
theorem earlier (h : ctx.Suits m kinds f) (hsplit : f.insts = before ++ rest) {id : Nat}
    (hinst : before[id]? = some inst) : inst ∈ f.insts ∧ inst.id = id := by
  have hlt := (List.getElem?_eq_some_iff.mp hinst).1
  have hall : f.insts[id]? = some inst := by rw [hsplit, List.getElem?_append_left hlt, hinst]
  refine ⟨List.mem_of_getElem? hall, ?_⟩
  have hids := congrArg (fun l => l[id]?) h.function.chain.ids
  have hlt' := (List.getElem?_eq_some_iff.mp hall).1
  simpa [hall, List.getElem?_range' hlt'] using hids

/-- A constant that is no number has its place. -/
theorem addressOf? (h : ctx.Suits m kinds f) (hv : v ∈ DataImage.operands m) {c : IR.Constant}
    (hsource : v.source = .const c) (hstruct : c.isStruct = true) :
    ∃ address index, ctx.data.addressOf? v.ty c = some address ∧
      m.statics[index]? = some (v.ty, c) ∧ m.globals.length ≤ index ∧
      (Space.offsets nullGuard.toNat (m.statics.map m.constantSpace))[index]? =
        some address.toNat := by
  have hitem : IR.Module.structConstant? v = some (v.ty, c) := by
    simp [IR.Module.structConstant?, hsource, hstruct]
  have hmem : (v.ty, c) ∈ m.pool :=
    mem_foldl_addNew (List.mem_filterMap.mpr ⟨v, hv, hitem⟩)
  obtain ⟨address, index, haddress, hindex, hle, hoffset⟩ := h.data.addressOf? hmem
  rw [List.length_map] at hle
  exact ⟨address, index, haddress, hindex, hle, hoffset⟩

/-- A value that is there can be pushed. -/
theorem pushValue (h : ctx.Suits m kinds f) (hsplit : f.insts = before ++ rest)
    (hv : v ∈ DataImage.operands m) (hscoped : v.Scoped m f.params before) :
    ∃ code, ctx.pushValue v = .ok code := by
  cases hscoped with
  | param => exact ⟨_, rfl⟩
  | @inst id inst hinst hvoid =>
    obtain ⟨hmem, rfl⟩ := h.earlier hsplit hinst
    obtain ⟨place, hplace, _⟩ := h.frame.result h.function hmem hvoid
    exact ⟨[.localGet place], by simp [FunctionContext.pushValue, pushInst, hplace]⟩
  | @const c ty hfits =>
    cases c with
    | int n =>
      unfold FunctionContext.pushValue
      simp only
      split <;> exact ⟨_, rfl⟩
    | struct fields =>
      obtain ⟨address, _, haddress, _⟩ := h.addressOf? hv rfl rfl
      exact ⟨[.i32Const address], by simp [FunctionContext.pushValue, haddress]⟩
  | @global index g hg =>
    have hlt : index < ctx.data.globals.length := by
      rw [h.data.count, List.length_map]
      exact (List.getElem?_eq_some_iff.mp hg).1
    exact ⟨[.i32Const ctx.data.globals[index]], by
      simp [FunctionContext.pushValue, List.getElem?_eq_getElem hlt]⟩

theorem setResult (h : ctx.Suits m kinds f) (hinst : inst ∈ f.insts) (hvoid : inst.ty ≠ .void) :
    ∃ code, ctx.setResult inst.id = .ok code := by
  obtain ⟨place, hplace, _⟩ := h.frame.result h.function hinst hvoid
  exact ⟨[.localSet place], by simp [FunctionContext.setResult, hplace]⟩

theorem pushInst (h : ctx.Suits m kinds f) (hinst : inst ∈ f.insts) (hvoid : inst.ty ≠ .void) :
    ∃ code, ctx.pushInst inst.id = .ok code := by
  obtain ⟨place, hplace, _⟩ := h.frame.result h.function hinst hvoid
  exact ⟨[.localGet place], by simp [FunctionContext.pushInst, hplace]⟩

theorem slot (h : ctx.Suits m kinds f) (hinst : inst ∈ f.insts) {ty : IRType}
    (hstored : storedType? inst = some ty) : ∃ offset, ctx.slot inst.id = .ok offset := by
  obtain ⟨_, offset, hoffset, _⟩ := h.frame.slot h.function hinst hstored
  exact ⟨offset, by simp [FunctionContext.slot, hoffset]⟩

theorem extent (h : ctx.Suits m kinds f) {ty : IRType} (hty : Sized m.structs ty) :
    ∃ e, ctx.layouts.extent ty = .ok e := by
  obtain ⟨e, he, _⟩ := h.layouts.extent hty
  exact ⟨e, he⟩

theorem copyBytes (h : ctx.Suits m kinds f) {ty : IRType} (hty : Sized m.structs ty) :
    ∃ code, ctx.copyBytes ty = .ok code :=
  Except.defined_bind (h.extent hty) fun _ _ => ⟨_, rfl⟩

/-- Every value that is no structure can be written and read. -/
theorem storeScalar {structs : List IR.StructDef} {ty : IRType} (hty : Sized structs ty)
    (hstruct : ty.isStruct = false) (offset : UInt32) : ∃ code, storeScalar offset ty = .ok code := by
  cases hty with
  | int hbits =>
    rcases IR.mem_widths.mp hbits with rfl | rfl | rfl | rfl | rfl <;> exact ⟨_, rfl⟩
  | ptr => exact ⟨_, rfl⟩
  | struct => cases hstruct

theorem loadScalar {structs : List IR.StructDef} {ty : IRType} (hty : Sized structs ty)
    (hstruct : ty.isStruct = false) : ∃ code, loadScalar ty = .ok code := by
  cases hty with
  | int hbits =>
    rcases IR.mem_widths.mp hbits with rfl | rfl | rfl | rfl | rfl <;> exact ⟨_, rfl⟩
  | ptr => exact ⟨_, rfl⟩
  | struct => cases hstruct

theorem storeValue (h : ctx.Suits m kinds f) (hsplit : f.insts = before ++ rest)
    (hv : v ∈ DataImage.operands m) (hscoped : v.Scoped m f.params before)
    (hsized : Sized m.structs v.ty) (offset : UInt32) :
    ∃ code, ctx.storeValue v offset = .ok code := by
  have hpush := h.pushValue hsplit hv hscoped
  unfold FunctionContext.storeValue
  split
  · exact Except.defined_bind hpush fun _ _ =>
      Except.defined_bind (h.copyBytes hsized) fun _ _ => ⟨_, rfl⟩
  · rename_i hstruct
    exact Except.defined_bind hpush fun _ _ =>
      Except.defined_bind (storeScalar hsized (Bool.eq_false_iff.mpr hstruct) offset)
        fun _ _ => ⟨_, rfl⟩

theorem storeFields (h : ctx.Suits m kinds f) (hsplit : f.insts = before ++ rest) (slot : UInt32)
    {fields : List Value} (hfields : ∀ v ∈ fields, v ∈ DataImage.operands m ∧
      v.Scoped m f.params before ∧ Sized m.structs v.ty) (offsets : List UInt32) :
    ∃ code, ctx.storeFields slot fields offsets = .ok code := by
  induction fields generalizing offsets with
  | nil => exact ⟨[], by simp [FunctionContext.storeFields]⟩
  | cons v others ih =>
    cases offsets with
    | nil => exact ⟨[], by simp [FunctionContext.storeFields]⟩
    | cons offset offsets =>
      obtain ⟨hv, hscoped, hsized⟩ := hfields v List.mem_cons_self
      unfold FunctionContext.storeFields
      exact Except.defined_bind (h.storeValue hsplit hv hscoped hsized offset) fun _ _ =>
        Except.defined_bind (ih (fun v' hv' => hfields v' (List.mem_cons_of_mem _ hv')) offsets)
          fun _ _ => ⟨_, rfl⟩

theorem fieldOffset (h : ctx.Suits m kinds f) {name : String} {d : IR.StructDef} {index : Nat}
    {ty ptr : IRType} (hptr : ptr = .ptr (.struct name)) (hd : m.structDef? name = some d)
    (hfield : d.fields[index]? = some ty) :
    ∃ offset, ctx.layouts.fieldOffset ptr index = .ok offset ∧
      (m.fieldOffsets d)[index]? = some offset.toNat := by
  obtain ⟨hmem, rfl⟩ := IR.Module.of_structDef? hd
  obtain ⟨layout, hget, _, hoffsets⟩ := h.layouts d hmem
  obtain ⟨start, hstart⟩ := fieldOffset_of_field (m := m) hfield
  rw [← hoffsets, List.getElem?_map] at hstart
  obtain ⟨offset, hoffset, rfl⟩ := Option.map_eq_some_iff.mp hstart
  subst hptr
  refine ⟨offset, ?_, ?_⟩
  · simp [Layouts.fieldOffset, IRType.pointee?, hget, hoffset, bind, Except.bind, pure, Except.pure]
  · rw [← hoffsets, List.getElem?_map, hoffset]
    rfl

theorem lowerLoad (h : ctx.Suits m kinds f) (hinst : inst ∈ f.insts) (hsized : Sized m.structs inst.ty)
    {ptr : Value} (hop : inst.op = .load ptr) (hpush : ∃ code, ctx.pushValue ptr = .ok code) :
    ∃ code, ctx.lowerLoad inst ptr = .ok code := by
  have hset := h.setResult hinst hsized.ne_void
  unfold FunctionContext.lowerLoad
  split
  case isTrue hstruct =>
    have hstored : storedType? inst = some inst.ty := by simp [storedType?, hop, hstruct]
    exact Except.defined_bind (h.slot hinst hstored) fun _ _ =>
      Except.defined_bind hpush fun _ _ => Except.defined_bind (h.copyBytes hsized) fun _ _ =>
        Except.defined_bind hset fun _ _ => ⟨_, rfl⟩
  case isFalse hstruct =>
    exact Except.defined_bind hpush fun _ _ =>
      Except.defined_bind (loadScalar hsized (Bool.eq_false_iff.mpr hstruct)) fun _ _ =>
        Except.defined_bind hset fun _ _ => ⟨_, rfl⟩

/-- A call can be lowered if it answers nothing or what can be held. -/
theorem lowerCall (h : ctx.Suits m kinds f) (hinst : inst ∈ f.insts)
    (hty : inst.ty = .void ∨ Sized m.structs inst.ty) {callee : IR.FunctionId} {args : List Value}
    (hop : inst.op = .call callee args) (hpush : ∀ v ∈ args, ∃ code, ctx.pushValue v = .ok code) :
    ∃ code, ctx.lowerCall inst callee args = .ok code := by
  unfold FunctionContext.lowerCall
  refine Except.defined_bind (Except.defined_mapM hpush) fun _ _ => ?_
  rcases hty with hvoid | hsized
  · rw [hvoid]
    exact ⟨_, rfl⟩
  · have hset := h.setResult hinst hsized.ne_void
    split
    case isTrue hstruct =>
      have hstored : storedType? inst = some inst.ty := by simp [storedType?, hop, hstruct]
      exact Except.defined_bind hset fun _ _ =>
        Except.defined_bind (h.slot hinst hstored) fun _ _ =>
          Except.defined_bind (h.pushInst hinst hsized.ne_void) fun _ _ =>
            Except.defined_bind (h.copyBytes hsized) fun _ _ => ⟨_, rfl⟩
    case isFalse =>
      split
      · exact ⟨_, rfl⟩
      · exact Except.defined_bind hset fun _ _ => ⟨_, rfl⟩

theorem lowerAggregate (h : ctx.Suits m kinds f) (hsplit : f.insts = before ++ inst :: rest)
    {name : String} {d : IR.StructDef} {fields : List Value} (hty : inst.ty = .struct name)
    (hop : inst.op = .aggregate fields) (hd : m.structDef? name = some d)
    (hfields : ∀ v ∈ fields, v.Scoped m f.params before) (htys : fields.map (·.ty) = d.fields) :
    ∃ code, ctx.lowerAggregate inst fields = .ok code := by
  have hinst : inst ∈ f.insts := hsplit ▸ by simp
  obtain ⟨hd', rfl⟩ := IR.Module.of_structDef? hd
  obtain ⟨layout, hget, _⟩ := h.layouts d hd'
  obtain ⟨i, hi⟩ := List.getElem?_of_mem hd'
  have hstores : ∀ v ∈ fields, v ∈ DataImage.operands m ∧ v.Scoped m f.params before ∧
      Sized m.structs v.ty := by
    intro v hv
    have hmem : v.ty ∈ d.fields := htys ▸ List.mem_map_of_mem hv
    exact ⟨h.mem_operands hinst (by rw [hop]; exact hv), hfields v hv,
      .of_kept h.typed (.held ((h.typed.structs i d hi).2 v.ty hmem).1)⟩
  have hstored : storedType? inst = some inst.ty := by simp [storedType?, hop, hty, IRType.isStruct]
  unfold FunctionContext.lowerAggregate
  rw [hty]
  exact Except.defined_bind ⟨layout, hget⟩ fun _ _ =>
    Except.defined_bind (h.slot hinst hstored) fun _ _ =>
      Except.defined_bind (h.storeFields hsplit _ hstores _) fun _ _ =>
        Except.defined_bind (h.setResult hinst (by simp [hty])) fun _ _ => ⟨_, rfl⟩

/-- Taking from the heap can be lowered if what is taken fits. -/
theorem heapAlloc_checked (h : ctx.Suits m kinds f) (hinst : inst ∈ f.insts) {ty : IRType}
    (hop : inst.op = .heapAlloc ty) (hsized : Sized m.structs ty) (hvoid : inst.ty ≠ .void) :
    Checked (ctx.lowerInst inst) (m.modelSize ty < UInt32.size) fun _ => True := by
  obtain ⟨e, hextent, he⟩ := h.layouts.extent hsized
  obtain ⟨set, hset⟩ := h.setResult hinst hvoid
  have hlower : ctx.lowerInst inst = ctx.heapAlloc inst.id ty := by
    simp only [FunctionContext.lowerInst, hop]
  rw [hlower]
  refine .ok_bind hextent (((Layouts.heapSize_checked he).bind fun size _ => .ok_bind hset ?_).imp
    (iff_of_eq (and_true _)) fun _ h => h)
  exact .done trivial

/-- Every other instruction can be lowered. -/
theorem lowerInst (h : ctx.Suits m kinds f) (hsplit : f.insts = before ++ inst :: rest)
    (hop : Op.Typed m kinds f before inst.ty inst.op) (hheap : IR.Module.heapTypes [inst] = []) :
    ∃ code, ctx.lowerInst inst = .ok code := by
  have hmem : inst ∈ f.insts := hsplit ▸ by simp
  have hoperand : ∀ v ∈ inst.op.operands, v ∈ DataImage.operands m :=
    fun v hv => h.mem_operands hmem hv
  have hpush : ∀ v ∈ inst.op.operands, ∃ code, ctx.pushValue v = .ok code :=
    fun v hv => h.pushValue hsplit (hoperand v hv) (hop.operands v hv)
  have hset := h.setResult hmem
  obtain ⟨id, ty, op⟩ := inst
  simp only at hpush hset hoperand
  unfold FunctionContext.lowerInst
  cases hop with
  | alloca =>
    exact Except.defined_bind (h.slot hmem rfl) fun _ _ =>
      Except.defined_bind (hset (by simp)) fun _ _ => ⟨_, rfl⟩
  | heapAlloc => cases hheap
  | @store value ptr hkept hvalue =>
    exact Except.defined_bind (hpush ptr (by simp [Op.operands])) fun _ _ =>
      Except.defined_bind (h.storeValue hsplit (hoperand value (by simp [Op.operands])) hvalue
        (.of_kept h.typed hkept) 0) fun _ _ => ⟨_, rfl⟩
  | @load ptr _ hheld =>
    exact h.lowerLoad hmem (.of_kept h.typed (.held hheld)) rfl (hpush ptr (by simp [Op.operands]))
  | @call callee target args htarget =>
    have hret := (h.typed.functions _ (List.mem_of_getElem? htarget)).ret
    exact h.lowerCall hmem (hret.imp_right fun hheld => .of_kept h.typed (.held hheld)) rfl hpush
  | @add lhs rhs | @sub lhs rhs =>
    exact Except.defined_bind (hpush lhs (by simp [Op.operands])) fun _ _ =>
      Except.defined_bind (hpush rhs (by simp [Op.operands])) fun _ _ =>
        Except.defined_bind (hset (by simp)) fun _ _ => ⟨_, rfl⟩
  | @fieldAddr ptr name d index fieldTy _ hptr hd hfield =>
    obtain ⟨offset, hoffset, _⟩ := h.fieldOffset hptr hd hfield
    exact Except.defined_bind ⟨offset, hoffset⟩ fun _ _ =>
      Except.defined_bind (hpush ptr (by simp [Op.operands])) fun _ _ =>
        Except.defined_bind (hset (by simp)) fun _ _ => ⟨_, rfl⟩
  | @aggregate name d fields hd hfields htys => exact h.lowerAggregate hsplit rfl rfl hd hfields htys
  | ret => exact ⟨_, rfl⟩
  | @retValue value =>
    exact Except.defined_bind (hpush value (by simp [Op.operands])) fun _ _ => ⟨_, rfl⟩

/-- Every instruction can be lowered if what it takes from the heap fits. -/
theorem lowerInst_checked (h : ctx.Suits m kinds f) (hsplit : f.insts = before ++ inst :: rest)
    (hop : Op.Typed m kinds f before inst.ty inst.op) :
    Checked (ctx.lowerInst inst) (∀ ty ∈ IR.Module.heapTypes [inst], m.modelSize ty < UInt32.size)
      fun _ => True := by
  have hmem : inst ∈ f.insts := hsplit ▸ by simp
  by_cases hheap : IR.Module.heapTypes [inst] = []
  case pos =>
    obtain ⟨code, hcode⟩ := h.lowerInst hsplit hop hheap
    rw [hcode, hheap]
    exact .done_of (fun _ hty => nomatch hty) trivial
  case neg =>
    obtain ⟨id, ty, op⟩ := inst
    cases hop with
    | @heapAlloc name hk =>
      exact (h.heapAlloc_checked hmem rfl (.of_kept h.typed (.contents hk)) (by simp)).imp
        (by simp [IR.Module.heapTypes]) fun _ h => h
    | _ => exact absurd rfl hheap

end FunctionContext.Suits

/-! ## Modules -/

section Modules

variable {layouts : Layouts} {data : DataImage} {m : IR.Module} {kinds : Kinds}

theorem mem_heapTypes {insts : List Inst} {ty : IRType} :
    ty ∈ IR.Module.heapTypes insts ↔ ∃ inst ∈ insts, ty ∈ IR.Module.heapTypes [inst] := by
  simp [IR.Module.heapTypes]

/-- A function can be lowered if it fits. -/
theorem lowerFunction_checked (htyped : m.Typed kinds) (hknow : layouts.Know m m.structs)
    (hdata : data.Holds m (m.globals.map fun g => (g.ty, g.init)) m.pool) {f : IR.Function}
    (hf : f ∈ m.functions) :
    Checked (lowerFunction layouts data f) (m.FunctionFits f) fun _ => True := by
  have hblocks : f.blocks.isEmpty = false := by
    obtain ⟨_, _, hblocks, _⟩ := (htyped.functions f hf).body
    rw [hblocks]
    rfl
  refine ((ofFunction_checked htyped hknow hf).bind fun frame his => by
    simp only [hblocks, Bool.false_eq_true, if_false]
    have hinsts : ∀ inst ∈ f.insts, Checked (FunctionContext.lowerInst ⟨layouts, data, frame⟩ inst)
        (∀ ty ∈ IR.Module.heapTypes [inst], m.modelSize ty < UInt32.size) fun _ => True := by
      intro inst hinst
      obtain ⟨before, rest, hsplit⟩ := List.append_of_mem hinst
      have hchain := (htyped.functions f hf).chain
      rw [hsplit] at hchain
      exact FunctionContext.Suits.lowerInst_checked ⟨htyped, hf, hknow, hdata, his⟩ hsplit
        hchain.typed.2
    exact (Checked.mapM hinsts).bind fun codes _ => .done trivial).imp ?_ fun _ h => h
  rw [and_true]
  constructor
  · rintro ⟨hframe, hheap⟩
    refine ⟨hframe, fun ty hty => ?_⟩
    obtain ⟨inst, hinst, hty⟩ := mem_heapTypes.mp hty
    exact hheap inst hinst ty hty
  · rintro ⟨hframe, hheap⟩
    exact ⟨hframe, fun inst hinst ty hty => hheap ty (mem_heapTypes.mpr ⟨inst, hinst, hty⟩)⟩

/-- The stack begins at the end of the data, rounded up. -/
theorem stackBase_checked (hfinish : data.finish.toNat = m.dataStop) :
    Checked (alignTo data.finish frameAlign) (m.dataEnd < UInt32.size) fun base =>
      base.toNat = m.dataEnd := by
  rw [IR.Module.dataEnd, ← hfinish]
  exact alignTo_checked (by decide)

theorem exportsOf_ok (h : ∀ f ∈ m.functions, f.name ≠ memoryExport) :
    ∃ exports, exportsOf m = .ok exports := by
  unfold exportsOf
  rw [if_neg]
  · exact ⟨_, rfl⟩
  · simpa using h

theorem exportsOf_reserved {f : IR.Function} (hf : f ∈ m.functions) (hname : f.name = memoryExport) :
    exportsOf m = .error .reservedName := by
  unfold exportsOf
  rw [if_pos]
  simp only [List.any_eq_true, beq_iff_eq]
  exact ⟨f, hf, hname⟩

/-- The stack ends so many pages behind the static data, if that is an address. -/
theorem stackTop_eq (hend : m.dataEnd < UInt32.size) (hfinish : data.finish.toNat = m.dataStop)
    (pages : Nat) :
    stackTop data pages =
      if m.dataEnd + pages * pageSize.toNat < UInt32.size then
        .ok (m.dataEnd + pages * pageSize.toNat).toUInt32
      else .error .stackTooLarge := by
  obtain ⟨base, hbase, htoNat⟩ := (stackBase_checked hfinish).ok hend
  unfold stackTop
  rw [hbase, ← htoNat, Nat.add_comm]
  rfl

theorem stackTop_stops (hend : ¬m.dataEnd < UInt32.size) (hfinish : data.finish.toNat = m.dataStop)
    (pages : Nat) : ∃ op, stackTop data pages = .error (.overflow op) := by
  obtain ⟨op, hstop⟩ := (stackBase_checked hfinish).stops hend
  unfold stackTop
  rw [hstop]
  exact ⟨op, rfl⟩

/-- What lowering comes to once structures and data are laid out. -/
theorem lowerModule_eq (hlayouts : Layouts.ofStructs m.structs = .ok layouts)
    (hdata : DataImage.ofModule layouts m = .ok data) (pages : Nat) :
    lowerModule m pages = (do
      let top ← stackTop data pages
      let exports ← exportsOf m
      let functions ← m.functions.mapM (lowerFunction layouts data)
      return {
        functions
        pages := initialPages top
        globals := [top, top]
        exports
        data := data.segments }) := by
  unfold lowerModule
  rw [hlayouts]
  simp only [bind, Except.bind]
  rw [hdata]

/-- A module whose structures or data do not fit stops lowering. -/
theorem lowerModule_stops (htyped : m.Typed kinds) (hfits : ¬m.StaticFits) (pages : Nat) :
    ∃ op, lowerModule m pages = .error (.overflow op) := by
  by_cases hstructs : ∀ d ∈ m.structs, m.sizeOf (.struct d.name) < UInt32.size
  case neg =>
    obtain ⟨op, hstop⟩ := htyped.ofStructs_checked.stops hstructs
    unfold lowerModule
    rw [hstop]
    exact ⟨op, rfl⟩
  obtain ⟨layouts, hlayouts, hknow⟩ := htyped.ofStructs_checked.ok hstructs
  by_cases hstop : m.dataStop < UInt32.size
  case neg =>
    obtain ⟨op, hstop⟩ := (htyped.ofModule_checked hknow).stops hstop
    unfold lowerModule
    rw [hlayouts]
    simp only [bind, Except.bind]
    rw [hstop]
    exact ⟨op, rfl⟩
  obtain ⟨data, hdata, hholds⟩ := (htyped.ofModule_checked hknow).ok hstop
  obtain ⟨op, hstop⟩ := stackTop_stops (fun hend => hfits ⟨hstructs, hend⟩) hholds.finish pages
  rw [lowerModule_eq hlayouts hdata, hstop]
  exact ⟨op, rfl⟩

/-- Otherwise it is lowered if its functions fit, up to the two limits of the target. -/
theorem lowerModule_total (htyped : m.Typed kinds) (hfits : m.StaticFits) (pages : Nat) :
    (m.dataEnd + pages * pageSize.toNat < UInt32.size → (∀ f ∈ m.functions, f.name ≠ memoryExport) →
      Checked (lowerModule m pages) (∀ f ∈ m.functions, m.FunctionFits f) fun _ => True) ∧
    (m.dataEnd + pages * pageSize.toNat < UInt32.size →
      (∃ f ∈ m.functions, f.name = memoryExport) → lowerModule m pages = .error .reservedName) ∧
    (UInt32.size ≤ m.dataEnd + pages * pageSize.toNat →
      lowerModule m pages = .error .stackTooLarge) := by
  obtain ⟨layouts, hlayouts, hknow⟩ := htyped.ofStructs_checked.ok hfits.structs
  obtain ⟨data, hdata, hholds⟩ := (htyped.ofModule_checked hknow).ok
    (Nat.lt_of_le_of_lt (le_roundUp (by decide)) hfits.data)
  have htop := stackTop_eq hfits.data hholds.finish pages
  rw [lowerModule_eq hlayouts hdata]
  refine ⟨fun hroom hnames => ?_, fun hroom hname => ?_, fun hroom => ?_⟩
  · rw [if_pos hroom] at htop
    obtain ⟨exports, hexports⟩ := exportsOf_ok hnames
    refine .ok_bind htop (.ok_bind hexports (((Checked.mapM fun f hf =>
      lowerFunction_checked htyped hknow hholds hf).bind fun functions _ => .done trivial).imp
        (iff_of_eq (and_true _)) fun _ h => h))
  · obtain ⟨f, hf, hname⟩ := hname
    rw [htop, if_pos hroom, exportsOf_reserved hf hname]
    rfl
  · rw [htop, if_neg (Nat.not_lt.mpr hroom)]
    rfl

end Modules

end Lowering

open Lowering (memoryExport pageSize)

/-- Every module that is built and fits is lowered, unless a function is named as the memory is, or the
data and the stack together do not stay below `2 ^ 32`. Then lowering fails, for that reason. -/
theorem lowerToWasm_total {units : List SourceUnit} {options : CompileOptions} {m : IR.Module}
    (hbuild : (buildModule units options).result = .ok m) (hfits : m.Fits) (stackPages : Nat) :
    (m.dataEnd + stackPages * pageSize.toNat < UInt32.size →
      (∀ f ∈ m.functions, f.name ≠ memoryExport) → ∃ wasm, lowerToWasm m stackPages = .ok wasm) ∧
    (m.dataEnd + stackPages * pageSize.toNat < UInt32.size →
      (∃ f ∈ m.functions, f.name = memoryExport) →
        lowerToWasm m stackPages = .error (.lower .reservedName)) ∧
    (UInt32.size ≤ m.dataEnd + stackPages * pageSize.toNat →
      lowerToWasm m stackPages = .error (.lower .stackTooLarge)) := by
  obtain ⟨kinds, htyped⟩ := typed_of_buildModule hbuild
  obtain ⟨hchecked, hreserved, hlarge⟩ :=
    Lowering.lowerModule_total htyped hfits.toStaticFits stackPages
  unfold lowerToWasm
  refine ⟨fun hroom hnames => ?_, fun hroom hname => ?_, fun hroom => ?_⟩
  · obtain ⟨wasm, hwasm, _⟩ := (hchecked hroom hnames).ok hfits.functions
    exact ⟨wasm.encode, by rw [hwasm]⟩
  · rw [hreserved hroom hname]
  · rw [hlarge hroom]

/-- A structure, a global that is one, and a function that passes another on as a constant. -/
def pairing : SourceUnit where
  name := "pairing"
  bytes := ("Pair: struct = (a: Int8, b: Int64)\nfirst: Pair = Pair(1, 2)\n" ++
    "second: (p: Pair) -> Int64 = \x7b\n  return p.b\n\x7d\n" ++
    "main: () -> Int64 = \x7b\n  return second(Pair(3, 4))\n\x7d\n").toList.map Char.toUInt8

/-- A function that is named as the memory is. -/
def remembering : SourceUnit where
  name := "remembering"
  bytes := "memory: () -> Int8 = \x7b\n  return 1\n\x7d\n".toList.map Char.toUInt8

/-- The data of the first takes 48 bytes, the null guard included: that leaves room for any stack but
one of all 65536 pages. The second is not lowered for its name. -/
theorem lowerToWasm_total_pairing :
    (∃ m, (buildModule [pairing] {}).result = .ok m ∧ m.Fits ∧
      (∃ wasm, lowerToWasm m 65535 = .ok wasm) ∧
      lowerToWasm m 65536 = .error (.lower .stackTooLarge)) ∧
    ∃ m, (buildModule [remembering] {}).result = .ok m ∧ m.Fits ∧
      lowerToWasm m 16 = .error (.lower .reservedName) := by
  constructor
  · have hcheck : ∃ m, (buildModule [pairing] {}).result = .ok m ∧ m.dataEnd = 48 ∧ m.Fits ∧
        ∀ f ∈ m.functions, f.name ≠ memoryExport := by decide +kernel
    obtain ⟨m, hbuild, hend, hfits, hnames⟩ := hcheck
    refine ⟨m, hbuild, hfits, (lowerToWasm_total hbuild hfits 65535).1 ?_ hnames,
      (lowerToWasm_total hbuild hfits 65536).2.2 ?_⟩
    · rw [hend]
      decide
    · rw [hend]
      decide
  · have hcheck : ∃ m, (buildModule [remembering] {}).result = .ok m ∧ m.dataEnd = 16 ∧ m.Fits ∧
        ∃ f ∈ m.functions, f.name = memoryExport := by decide +kernel
    obtain ⟨m, hbuild, hend, hfits, hname⟩ := hcheck
    refine ⟨m, hbuild, hfits, (lowerToWasm_total hbuild hfits 16).2.1 ?_ hname⟩
    rw [hend]
    decide

end Straightline
