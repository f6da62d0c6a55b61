import Straightline.Lowering.Module
import Straightline.Proofs.Declaring.Headers
import Straightline.Proofs.Wasm.Validation

/-!
# What lowering gives

If an instruction is lowered, its code has one of a few shapes (`Lowered`), with the locals, slots and
offsets that were found. Everything that is proved of the code goes through these shapes, and not through
the functions that make it.
-/

set_option autoImplicit false

namespace Straightline

theorem Except.forall₂_of_mapM {ε α β : Type} {f : α → Except ε β} {l : List α} {l' : List β}
    (h : l.mapM f = .ok l') : List.Forall₂ (fun a b => f a = .ok b) l l' := by
  induction l generalizing l' with
  | nil =>
    cases h
    exact .nil
  | cons a rest ih =>
    rw [List.mapM_cons] at h
    obtain ⟨b, hb, h⟩ := Except.bind_ok h
    obtain ⟨bs, hbs, h⟩ := Except.bind_ok h
    cases h
    exact .cons hb (ih hbs)

theorem Except.mapM_append_ok {ε α β : Type} {f : α → Except ε β} {l l' : List α} {r : List β}
    (h : (l ++ l').mapM f = .ok r) :
    ∃ r₁ r₂, l.mapM f = .ok r₁ ∧ l'.mapM f = .ok r₂ ∧ r = r₁ ++ r₂ := by
  rw [List.mapM_append] at h
  obtain ⟨r₁, h₁, h⟩ := Except.bind_ok h
  obtain ⟨r₂, h₂, h⟩ := Except.bind_ok h
  cases h
  exact ⟨r₁, r₂, h₁, h₂, rfl⟩

namespace Lowering

open IR (Constant Inst Value)
open Wasm (Instr)

/-- The code that takes the storage for `size` bytes from the heap and puts its address into a local. -/
def heapCode (size : UInt32) (place : Nat) : List Instr :=
  [.globalGet heapPointer] ++ [.localSet place]
    ++ [.globalGet heapPointer, .i32Const size, .i32Add, .globalSet heapPointer] ++ growMemory

section Shapes

variable (ctx : FunctionContext)

/-- Code that pushes a value. -/
inductive Pushed : Value → List Instr → Prop where
  | param {index : Nat} {ty : IRType} : Pushed ⟨.param index, ty⟩ [.localGet index]
  | inst {id place : Nat} {ty : IRType} : ctx.frame.result? id = some place →
      Pushed ⟨.inst id, ty⟩ [.localGet place]
  | wide {n : Int} : Pushed ⟨.const (.int n), .int 64⟩ [.i64Const (UInt64.ofInt n)]
  | word {n : Int} {ty : IRType} : ty ≠ .int 64 →
      Pushed ⟨.const (.int n), ty⟩ [.i32Const (UInt32.ofInt n)]
  | struct {fields : List Constant} {ty : IRType} {address : UInt32} :
      ctx.data.addressOf? ty (.struct fields) = some address →
      Pushed ⟨.const (.struct fields), ty⟩ [.i32Const address]
  | global {index : Nat} {ty : IRType} {address : UInt32} : ctx.data.globals[index]? = some address →
      Pushed ⟨.global index, ty⟩ [.i32Const address]

/-- Code that stores a value at the address on the operand stack plus `offset`. -/
inductive Stores : Value → UInt32 → List Instr → Prop where
  | struct {v : Value} {offset : UInt32} {push : List Instr} {e : Extent} : v.ty.isStruct = true →
      ctx.pushValue v = .ok push → ctx.layouts.extent v.ty = .ok e →
      Stores v offset (addOffset offset ++ push ++ [.i32Const e.size, .memoryCopy])
  | scalar {v : Value} {offset : UInt32} {push store : List Instr} : v.ty.isStruct = false →
      ctx.pushValue v = .ok push → storeScalar offset v.ty = .ok store →
      Stores v offset (push ++ store)

/-- Code that stores fields at these offsets in the slot at `slot`. -/
inductive StoresFields (slot : UInt32) : List Value → List UInt32 → List Instr → Prop where
  | nil {offsets : List UInt32} : StoresFields slot [] offsets []
  | short {v : Value} {fields : List Value} : StoresFields slot (v :: fields) [] []
  | cons {v : Value} {fields : List Value} {offset : UInt32} {offsets : List UInt32}
      {store others : List Instr} : Stores ctx v offset store →
      StoresFields slot fields offsets others →
      StoresFields slot (v :: fields) (offset :: offsets) (ctx.frameAddress slot ++ store ++ others)

/-- Code of an instruction. -/
inductive Lowered : Inst → List Instr → Prop where
  | alloca {id : Nat} {ty t : IRType} {name : Option String} {slot : UInt32} {place : Nat} :
      ctx.frame.slot? id = some slot → ctx.frame.result? id = some place →
      Lowered ⟨id, ty, .alloca t name⟩ (ctx.frameAddress slot ++ [.localSet place])
  | heapAlloc {id : Nat} {ty t : IRType} {e : Extent} {size : UInt32} {place : Nat} :
      ctx.layouts.extent t = .ok e → heapSize e = .ok size → ctx.frame.result? id = some place →
      Lowered ⟨id, ty, .heapAlloc t⟩ (heapCode size place)
  | store {id : Nat} {ty : IRType} {value ptr : Value} {push store : List Instr} :
      ctx.pushValue ptr = .ok push → Stores ctx value 0 store →
      Lowered ⟨id, ty, .store value ptr⟩ (push ++ store)
  | loadStruct {id : Nat} {ty : IRType} {ptr : Value} {slot : UInt32} {push : List Instr}
      {e : Extent} {place : Nat} : ty.isStruct = true → ctx.frame.slot? id = some slot →
      ctx.pushValue ptr = .ok push → ctx.layouts.extent ty = .ok e →
      ctx.frame.result? id = some place →
      Lowered ⟨id, ty, .load ptr⟩ (ctx.frameAddress slot ++ push ++ [.i32Const e.size, .memoryCopy]
        ++ ctx.frameAddress slot ++ [.localSet place])
  | load {id : Nat} {ty : IRType} {ptr : Value} {push load : List Instr} {place : Nat} :
      ty.isStruct = false → ctx.pushValue ptr = .ok push → loadScalar ty = .ok load →
      ctx.frame.result? id = some place →
      Lowered ⟨id, ty, .load ptr⟩ (push ++ load ++ [.localSet place])
  | callStruct {id : Nat} {ty : IRType} {callee : IR.FunctionId} {args : List Value}
      {pushes : List (List Instr)} {slot : UInt32} {e : Extent} {place : Nat} :
      ty.isStruct = true → args.mapM ctx.pushValue = .ok pushes → ctx.frame.slot? id = some slot →
      ctx.layouts.extent ty = .ok e → ctx.frame.result? id = some place →
      Lowered ⟨id, ty, .call callee args⟩ (pushes.flatten ++ [.call callee] ++ [.localSet place]
        ++ ctx.frameAddress slot ++ [.localGet place] ++ [.i32Const e.size, .memoryCopy]
        ++ ctx.frameAddress slot ++ [.localSet place])
  | callVoid {id : Nat} {ty : IRType} {callee : IR.FunctionId} {args : List Value}
      {pushes : List (List Instr)} : ty.isVoid = true → args.mapM ctx.pushValue = .ok pushes →
      Lowered ⟨id, ty, .call callee args⟩ (pushes.flatten ++ [.call callee])
  | call {id : Nat} {ty : IRType} {callee : IR.FunctionId} {args : List Value}
      {pushes : List (List Instr)} {place : Nat} : ty.isStruct = false → ty.isVoid = false →
      args.mapM ctx.pushValue = .ok pushes → ctx.frame.result? id = some place →
      Lowered ⟨id, ty, .call callee args⟩ (pushes.flatten ++ [.call callee] ++ [.localSet place])
  | add {id : Nat} {ty : IRType} {lhs rhs : Value} {left right : List Instr} {place : Nat} :
      ctx.pushValue lhs = .ok left → ctx.pushValue rhs = .ok right →
      ctx.frame.result? id = some place →
      Lowered ⟨id, ty, .add lhs rhs⟩ (left ++ right
        ++ [if ty = .int 64 then .i64Add else .i32Add] ++ narrow ty ++ [.localSet place])
  | sub {id : Nat} {ty : IRType} {lhs rhs : Value} {left right : List Instr} {place : Nat} :
      ctx.pushValue lhs = .ok left → ctx.pushValue rhs = .ok right →
      ctx.frame.result? id = some place →
      Lowered ⟨id, ty, .sub lhs rhs⟩ (left ++ right
        ++ [if ty = .int 64 then .i64Sub else .i32Sub] ++ narrow ty ++ [.localSet place])
  | fieldAddr {id : Nat} {ty : IRType} {ptr : Value} {index : Nat} {offset : UInt32}
      {push : List Instr} {place : Nat} : ctx.layouts.fieldOffset ptr.ty index = .ok offset →
      ctx.pushValue ptr = .ok push → ctx.frame.result? id = some place →
      Lowered ⟨id, ty, .fieldAddr ptr index⟩ (push ++ addOffset offset ++ [.localSet place])
  | aggregate {id : Nat} {name : String} {fields : List Value} {layout : StructLayout}
      {slot : UInt32} {stores : List Instr} {place : Nat} : ctx.layouts.get name = .ok layout →
      ctx.frame.slot? id = some slot → StoresFields ctx slot fields layout.offsets stores →
      ctx.frame.result? id = some place →
      Lowered ⟨id, .struct name, .aggregate fields⟩
        (stores ++ ctx.frameAddress slot ++ [.localSet place])
  | ret {id : Nat} {ty : IRType} : Lowered ⟨id, ty, .ret none⟩ (ctx.epilogue ++ [.ret])
  | retValue {id : Nat} {ty : IRType} {value : Value} {push : List Instr} :
      ctx.pushValue value = .ok push →
      Lowered ⟨id, ty, .ret (some value)⟩ (push ++ ctx.epilogue ++ [.ret])

end Shapes

/-! ## Every code has its shape -/

section Inversion

variable {ctx : FunctionContext} {code : List Instr}

theorem of_setResult {id : Nat} (h : ctx.setResult id = .ok code) :
    ∃ place, ctx.frame.result? id = some place ∧ code = [.localSet place] := by
  unfold FunctionContext.setResult at h
  split at h <;> cases h
  exact ⟨_, by assumption, rfl⟩

theorem of_pushInst {id : Nat} (h : ctx.pushInst id = .ok code) :
    ∃ place, ctx.frame.result? id = some place ∧ code = [.localGet place] := by
  unfold FunctionContext.pushInst at h
  split at h <;> cases h
  exact ⟨_, by assumption, rfl⟩

theorem pushed_of_pushValue {v : Value} (h : ctx.pushValue v = .ok code) : Pushed ctx v code := by
  obtain ⟨source, ty⟩ := v
  cases source with
  | param index =>
    cases h
    exact .param
  | inst id =>
    obtain ⟨place, hplace, rfl⟩ := of_pushInst h
    exact .inst hplace
  | global index =>
    simp only [FunctionContext.pushValue] at h
    split at h <;> cases h
    exact .global (by assumption)
  | const constant =>
    cases constant with
    | int n =>
      simp only [FunctionContext.pushValue] at h
      split at h <;> cases h <;> rename_i hty
      · exact hty ▸ .wide
      · exact .word hty
    | struct fields =>
      simp only [FunctionContext.pushValue] at h
      split at h <;> cases h
      exact .struct (by assumption)

/-- A scalar is read by one instruction, which leaves a word of its type. -/
theorem of_loadScalar {ty : IRType} (h : loadScalar ty = .ok code) :
    ∃ access : Wasm.Load, access.result = valType ty ∧ code = [.load access 0] := by
  unfold loadScalar at h
  split at h
  · split_ifs at h <;> cases h <;> rename_i hbits <;> subst hbits <;> exact ⟨_, rfl, rfl⟩
  · cases h
    exact ⟨.i32, rfl, rfl⟩
  · cases h

/-- A scalar is written by one instruction, which takes a word of its type. -/
theorem of_storeScalar {offset : UInt32} {ty : IRType} (h : storeScalar offset ty = .ok code) :
    ∃ access : Wasm.Store, access.operand = valType ty ∧ code = [.store access offset] := by
  unfold storeScalar at h
  split at h
  · split at h
    case isTrue hbits =>
      cases h
      exact ⟨.low8, (if_neg (by omega)).symm, rfl⟩
    case isFalse =>
      split_ifs at h <;> cases h <;> rename_i hbits <;> subst hbits <;> exact ⟨_, rfl, rfl⟩
  · cases h
    exact ⟨.i32, rfl, rfl⟩
  · cases h

theorem of_slot {id : Nat} {slot : UInt32} (h : ctx.slot id = .ok slot) :
    ctx.frame.slot? id = some slot := by
  unfold FunctionContext.slot at h
  split at h <;> cases h
  assumption

theorem of_copyBytes {ty : IRType} (h : ctx.copyBytes ty = .ok code) :
    ∃ e, ctx.layouts.extent ty = .ok e ∧ code = [.i32Const e.size, .memoryCopy] := by
  obtain ⟨e, he, h⟩ := Except.bind_ok h
  cases h
  exact ⟨e, he, rfl⟩

theorem of_storeValue {v : Value} {offset : UInt32} (h : ctx.storeValue v offset = .ok code) :
    Stores ctx v offset code := by
  unfold FunctionContext.storeValue at h
  split at h
  · obtain ⟨push, hpush, h⟩ := Except.bind_ok h
    obtain ⟨copy, hcopy, h⟩ := Except.bind_ok h
    obtain ⟨e, he, rfl⟩ := of_copyBytes hcopy
    cases h
    exact .struct (by assumption) hpush he
  · obtain ⟨push, hpush, h⟩ := Except.bind_ok h
    obtain ⟨store, hstore, h⟩ := Except.bind_ok h
    cases h
    exact .scalar (by simp_all) hpush hstore

theorem of_storeFields {slot : UInt32} {fields : List Value} {offsets : List UInt32}
    (h : ctx.storeFields slot fields offsets = .ok code) :
    StoresFields ctx slot fields offsets code := by
  induction fields generalizing offsets code with
  | nil =>
    cases h
    exact .nil
  | cons v fields ih =>
    cases offsets with
    | nil =>
      cases h
      exact .short
    | cons offset offsets =>
      obtain ⟨store, hstore, h⟩ := Except.bind_ok h
      obtain ⟨others, hothers, h⟩ := Except.bind_ok h
      cases h
      exact .cons (of_storeValue hstore) (ih hothers)

theorem of_lowerLoad {id : Nat} {ty : IRType} {ptr : Value} {op : IR.Op}
    (h : ctx.lowerLoad ⟨id, ty, op⟩ ptr = .ok code) : Lowered ctx ⟨id, ty, .load ptr⟩ code := by
  unfold FunctionContext.lowerLoad at h
  split at h
  · obtain ⟨slot, hslot, h⟩ := Except.bind_ok h
    obtain ⟨push, hpush, h⟩ := Except.bind_ok h
    obtain ⟨copy, hcopy, h⟩ := Except.bind_ok h
    obtain ⟨set, hset, h⟩ := Except.bind_ok h
    obtain ⟨e, he, rfl⟩ := of_copyBytes hcopy
    obtain ⟨place, hplace, rfl⟩ := of_setResult hset
    cases h
    exact .loadStruct (by assumption) (of_slot hslot) hpush he hplace
  · obtain ⟨push, hpush, h⟩ := Except.bind_ok h
    obtain ⟨load, hload, h⟩ := Except.bind_ok h
    obtain ⟨set, hset, h⟩ := Except.bind_ok h
    obtain ⟨place, hplace, rfl⟩ := of_setResult hset
    cases h
    exact .load (by simp_all) hpush hload hplace

theorem of_lowerCall {id : Nat} {ty : IRType} {callee : IR.FunctionId} {args : List Value}
    {op : IR.Op} (h : ctx.lowerCall ⟨id, ty, op⟩ callee args = .ok code) :
    Lowered ctx ⟨id, ty, .call callee args⟩ code := by
  unfold FunctionContext.lowerCall at h
  obtain ⟨pushes, hpushes, h⟩ := Except.bind_ok h
  dsimp only at h
  split at h
  · obtain ⟨set, hset, h⟩ := Except.bind_ok h
    obtain ⟨slot, hslot, h⟩ := Except.bind_ok h
    obtain ⟨push, hpush, h⟩ := Except.bind_ok h
    obtain ⟨copy, hcopy, h⟩ := Except.bind_ok h
    obtain ⟨place, hplace, rfl⟩ := of_setResult hset
    obtain ⟨place', hplace', rfl⟩ := of_pushInst hpush
    obtain ⟨e, he, rfl⟩ := of_copyBytes hcopy
    cases hplace.symm.trans hplace'
    cases h
    exact .callStruct (by assumption) hpushes (of_slot hslot) he hplace
  · split at h
    · cases h
      exact .callVoid (by assumption) hpushes
    · obtain ⟨set, hset, h⟩ := Except.bind_ok h
      obtain ⟨place, hplace, rfl⟩ := of_setResult hset
      cases h
      exact .call (by simp_all) (by simp_all) hpushes hplace

theorem of_arithmetic {inst : Inst} {lhs rhs : Value} {wide narrowOp : Instr}
    (h : ctx.arithmetic inst lhs rhs wide narrowOp = .ok code) :
    ∃ left right place, ctx.pushValue lhs = .ok left ∧ ctx.pushValue rhs = .ok right ∧
      ctx.frame.result? inst.id = some place ∧ code = left ++ right
        ++ [if inst.ty = .int 64 then wide else narrowOp] ++ narrow inst.ty ++ [.localSet place] := by
  obtain ⟨left, hleft, h⟩ := Except.bind_ok h
  obtain ⟨right, hright, h⟩ := Except.bind_ok h
  obtain ⟨set, hset, h⟩ := Except.bind_ok h
  obtain ⟨place, hplace, rfl⟩ := of_setResult hset
  cases h
  exact ⟨left, right, place, hleft, hright, hplace, rfl⟩

theorem lowered_of_lowerInst {inst : Inst} (h : ctx.lowerInst inst = .ok code) :
    Lowered ctx inst code := by
  obtain ⟨id, ty, op⟩ := inst
  unfold FunctionContext.lowerInst at h
  cases op with
  | alloca t name =>
    obtain ⟨slot, hslot, h⟩ := Except.bind_ok h
    obtain ⟨set, hset, h⟩ := Except.bind_ok h
    obtain ⟨place, hplace, rfl⟩ := of_setResult hset
    cases h
    exact .alloca (of_slot hslot) hplace
  | heapAlloc t =>
    obtain ⟨e, he, h⟩ := Except.bind_ok h
    obtain ⟨size, hsize, h⟩ := Except.bind_ok h
    obtain ⟨set, hset, h⟩ := Except.bind_ok h
    obtain ⟨place, hplace, rfl⟩ := of_setResult hset
    cases h
    exact .heapAlloc he hsize hplace
  | store value ptr =>
    obtain ⟨push, hpush, h⟩ := Except.bind_ok h
    obtain ⟨store, hstore, h⟩ := Except.bind_ok h
    cases h
    exact .store hpush (of_storeValue hstore)
  | load ptr => exact of_lowerLoad h
  | call callee args => exact of_lowerCall h
  | add lhs rhs =>
    obtain ⟨left, right, place, hleft, hright, hplace, rfl⟩ := of_arithmetic h
    exact .add hleft hright hplace
  | sub lhs rhs =>
    obtain ⟨left, right, place, hleft, hright, hplace, rfl⟩ := of_arithmetic h
    exact .sub hleft hright hplace
  | fieldAddr ptr index =>
    obtain ⟨offset, hoffset, h⟩ := Except.bind_ok h
    obtain ⟨push, hpush, h⟩ := Except.bind_ok h
    obtain ⟨set, hset, h⟩ := Except.bind_ok h
    obtain ⟨place, hplace, rfl⟩ := of_setResult hset
    cases h
    exact .fieldAddr hoffset hpush hplace
  | aggregate fields =>
    cases ty with
    | void | int | ptr => cases h
    | struct name =>
      obtain ⟨layout, hlayout, h⟩ := Except.bind_ok h
      obtain ⟨slot, hslot, h⟩ := Except.bind_ok h
      obtain ⟨stores, hstores, h⟩ := Except.bind_ok h
      obtain ⟨set, hset, h⟩ := Except.bind_ok h
      obtain ⟨place, hplace, rfl⟩ := of_setResult hset
      cases h
      exact .aggregate hlayout (of_slot hslot) (of_storeFields hstores) hplace
  | ret value =>
    cases value with
    | none =>
      cases h
      exact .ret
    | some value =>
      obtain ⟨push, hpush, h⟩ := Except.bind_ok h
      cases h
      exact .retValue hpush

/-! ## Functions and modules -/

/-- What a function was lowered to. -/
structure LoweredFunction (layouts : Layouts) (data : DataImage) (f : IR.Function) (frame : Frame)
    (codes : List (List Instr)) : Prop where
  made : Frame.ofFunction layouts f = .ok frame
  insts : List.Forall₂ (Lowered ⟨layouts, data, frame⟩) f.insts codes

theorem codes_of_lowerFunction {layouts : Layouts} {data : DataImage} {f : IR.Function}
    {wasm : Wasm.Function} (h : lowerFunction layouts data f = .ok wasm) :
    ∃ frame codes, Frame.ofFunction layouts f = .ok frame ∧
      f.insts.mapM (FunctionContext.lowerInst ⟨layouts, data, frame⟩) = .ok codes ∧
      wasm = ⟨f.params.map valType, resultTypes f.ret, frame.locals,
        FunctionContext.prologue ⟨layouts, data, frame⟩ ++ codes.flatten⟩ := by
  obtain ⟨frame, hframe, h⟩ := Except.bind_ok h
  split at h
  · cases h
  · obtain ⟨codes, hcodes, h⟩ := Except.bind_ok h
    cases h
    exact ⟨frame, codes, hframe, hcodes, rfl⟩

theorem of_lowerFunction {layouts : Layouts} {data : DataImage} {f : IR.Function}
    {wasm : Wasm.Function} (h : lowerFunction layouts data f = .ok wasm) :
    ∃ frame codes, LoweredFunction layouts data f frame codes ∧
      wasm = ⟨f.params.map valType, resultTypes f.ret, frame.locals,
        FunctionContext.prologue ⟨layouts, data, frame⟩ ++ codes.flatten⟩ := by
  obtain ⟨frame, codes, hframe, hcodes, hwasm⟩ := codes_of_lowerFunction h
  exact ⟨frame, codes, ⟨hframe, (Except.forall₂_of_mapM hcodes).imp fun _ _ => lowered_of_lowerInst⟩,
    hwasm⟩

/-- The stack ends so many pages behind the end of the data, rounded up. -/
theorem of_stackTop {data : DataImage} {pages : Nat} {top : UInt32}
    (h : stackTop data pages = .ok top) :
    ∃ base, alignTo data.finish frameAlign = .ok base ∧
      top.toNat = pages * pageSize.toNat + base.toNat := by
  obtain ⟨base, hbase, h⟩ := Except.bind_ok h
  dsimp only at h
  split at h
  case isFalse => cases h
  case isTrue hroom =>
    cases h
    exact ⟨base, hbase, Nat.mod_eq_of_lt hroom⟩

theorem of_lowerModule {m : IR.Module} {pages : Nat} {wasm : Wasm.Module}
    (h : lowerModule m pages = .ok wasm) :
    ∃ layouts data top exports functions, Layouts.ofStructs m.structs = .ok layouts ∧
      DataImage.ofModule layouts m = .ok data ∧ stackTop data pages = .ok top ∧
      exportsOf m = .ok exports ∧
      List.Forall₂ (fun f code => lowerFunction layouts data f = .ok code) m.functions functions ∧
      wasm = ⟨functions, initialPages top, [top, top], exports, data.segments⟩ := by
  obtain ⟨layouts, hlayouts, h⟩ := Except.bind_ok h
  obtain ⟨data, hdata, h⟩ := Except.bind_ok h
  obtain ⟨top, htop, h⟩ := Except.bind_ok h
  obtain ⟨exports, hexports, h⟩ := Except.bind_ok h
  obtain ⟨functions, hfunctions, h⟩ := Except.bind_ok h
  cases h
  exact ⟨layouts, data, top, exports, functions, hlayouts, hdata, htop, hexports,
    Except.forall₂_of_mapM hfunctions, rfl⟩

end Inversion

end Lowering

end Straightline
