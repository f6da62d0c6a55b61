import Straightline.Proofs.Lowering.Fragments
import Straightline.Proofs.Lowering.Modules
import Straightline.Proofs.Wasm.Effects

/-!
# What lowered code sets

Between its prologue and its epilogue, the code of a function sets nothing but the locals of results and
the end of the heap, and returns nowhere (`Lowered.permitted`). As the local for the address of a frame is
none of the former, whoever looks at any point in between finds the address there, and the stack pointer
where the prologue has put it (`framed_of_lowerFunction`).
-/

set_option autoImplicit false

namespace Straightline.Lowering

open IR (Inst Value)
open Wasm (Avoids Config Effect Engine Instr Invoke Passes Runs Val)
open Wasm.Instr (effectsAll)

variable {ctx : FunctionContext} {frame : Frame} {code code' : List Instr}

/-! ## Code without effects -/

@[simp] theorem effectsAll_addOffset (offset : UInt32) : effectsAll (addOffset offset) = [] := by
  unfold addOffset
  split <;> rfl

@[simp] theorem effectsAll_frameAddress (slot : UInt32) : effectsAll (ctx.frameAddress slot) = [] :=
  effectsAll_addOffset slot

@[simp] theorem effectsAll_narrow (ty : IRType) : effectsAll (narrow ty) = [] := by
  unfold narrow
  repeat' split
  all_goals rfl

theorem effectsAll_loadScalar {ty : IRType} (h : loadScalar ty = .ok code) : effectsAll code = [] := by
  obtain ⟨access, _, rfl⟩ := of_loadScalar h
  rfl

theorem effectsAll_storeScalar {offset : UInt32} {ty : IRType}
    (h : storeScalar offset ty = .ok code) : effectsAll code = [] := by
  obtain ⟨access, _, rfl⟩ := of_storeScalar h
  rfl

theorem effectsAll_pushValue {v : Value} (h : ctx.pushValue v = .ok code) : effectsAll code = [] := by
  cases pushed_of_pushValue h <;> rfl

theorem effectsAll_pushes {args : List Value} {pushes : List (List Instr)}
    (h : args.mapM ctx.pushValue = .ok pushes) : effectsAll pushes.flatten = [] := by
  have hpushes : List.Forall₂ (fun arg push => ctx.pushValue arg = .ok push) args pushes :=
    Except.forall₂_of_mapM h
  clear h
  induction hpushes with
  | nil => rfl
  | cons hpush _ ih =>
    rw [List.flatten_cons, Instr.effectsAll_append, effectsAll_pushValue hpush, ih]
    rfl

/-! ## Code of instructions -/

/-- What the code of the instruction `id` may do that is no return. -/
inductive Frame.Permits (frame : Frame) (id : Nat) : Effect → Prop where
  | result {place : Nat} : frame.result? id = some place → Permits frame id (.setLocal place)
  | heap : Permits frame id (.setGlobal heapPointer)

/-- The code does nothing but what that of the instruction `id` may do. -/
def Frame.Permitted (frame : Frame) (id : Nat) (code : List Instr) : Prop :=
  ∀ e ∈ effectsAll code, frame.Permits id e

namespace Frame.Permitted

variable {id place : Nat}

theorem plain (h : effectsAll code = []) : frame.Permitted id code := by
  rw [Frame.Permitted, h]
  exact List.forall_mem_nil _

theorem append (h : frame.Permitted id code) (h' : frame.Permitted id code') :
    frame.Permitted id (code ++ code') := by
  rw [Frame.Permitted, Instr.effectsAll_append]
  exact List.forall_mem_append.mpr ⟨h, h'⟩

theorem set (h : frame.result? id = some place) : frame.Permitted id [.localSet place] :=
  List.forall_mem_singleton.mpr (.result h)

theorem heapCode (h : frame.result? id = some place) (size : UInt32) :
    frame.Permitted id (heapCode size place) := by
  rintro e (_ | ⟨_, _ | ⟨_, ⟨⟩⟩⟩)
  · exact .result h
  · exact .heap

end Frame.Permitted

open Frame.Permitted (plain set)

theorem Stores.plain {v : Value} {offset : UInt32} (h : Stores ctx v offset code) :
    effectsAll code = [] := by
  cases h with
  | struct _ hpush _ =>
    simp only [Instr.effectsAll_append, effectsAll_addOffset, effectsAll_pushValue hpush]
    rfl
  | scalar _ hpush hstore =>
    simp only [Instr.effectsAll_append, effectsAll_pushValue hpush, effectsAll_storeScalar hstore]
    rfl

theorem StoresFields.plain {slot : UInt32} {fields : List Value} {offsets : List UInt32}
    (h : StoresFields ctx slot fields offsets code) : effectsAll code = [] := by
  induction h with
  | nil | short => rfl
  | cons hstore _ ih =>
    simp only [Instr.effectsAll_append, effectsAll_frameAddress, hstore.plain, ih]
    rfl

/-- The code of an instruction sets its result, if it has one, or the end of the heap. -/
theorem Lowered.permitted {inst : Inst} (h : Lowered ctx inst code) (hop : inst.op.isRet = false) :
    ctx.frame.Permitted inst.id code := by
  cases h with
  | alloca _ hplace => exact (plain (effectsAll_frameAddress _)).append (set hplace)
  | heapAlloc _ _ hplace => exact .heapCode hplace _
  | store hpush hstore => exact (plain (effectsAll_pushValue hpush)).append (plain hstore.plain)
  | loadStruct _ _ hpush _ hplace =>
    exact ((((plain (effectsAll_frameAddress _)).append (plain (effectsAll_pushValue hpush))).append
      (plain rfl)).append (plain (effectsAll_frameAddress _))).append (set hplace)
  | load _ hpush hload hplace =>
    exact ((plain (effectsAll_pushValue hpush)).append (plain (effectsAll_loadScalar hload))).append
      (set hplace)
  | @callStruct id _ callee _ pushes _ _ place _ hpushes _ _ hplace =>
    have hcall : ctx.frame.Permitted id (pushes.flatten ++ [.call callee] ++ [.localSet place]) :=
      ((plain (effectsAll_pushes hpushes)).append (plain rfl)).append (set hplace)
    exact ((((hcall.append (plain (effectsAll_frameAddress _))).append (plain rfl)).append
      (plain rfl)).append (plain (effectsAll_frameAddress _))).append (set hplace)
  | callVoid _ hpushes => exact (plain (effectsAll_pushes hpushes)).append (plain rfl)
  | call _ _ hpushes hplace =>
    exact ((plain (effectsAll_pushes hpushes)).append (plain rfl)).append (set hplace)
  | add hleft hright hplace | sub hleft hright hplace =>
    refine ((((plain (effectsAll_pushValue hleft)).append (plain (effectsAll_pushValue hright))).append
      (plain ?_)).append (plain (effectsAll_narrow _))).append (set hplace)
    split <;> rfl
  | fieldAddr _ hpush hplace =>
    exact ((plain (effectsAll_pushValue hpush)).append (plain (effectsAll_addOffset _))).append
      (set hplace)
  | aggregate _ _ hstores hplace =>
    exact ((plain hstores.plain).append (plain (effectsAll_frameAddress _))).append (set hplace)
  | ret | retValue => cases hop

/-- A return pushes what is returned, and gives the frame back. -/
theorem Lowered.of_isRet {inst : Inst} (h : Lowered ctx inst code) (hop : inst.op.isRet = true) :
    ∃ push, effectsAll push = [] ∧ code = push ++ ctx.epilogue ++ [.ret] := by
  cases h with
  | ret => exact ⟨[], rfl, rfl⟩
  | retValue hpush => exact ⟨_, effectsAll_pushValue hpush, rfl⟩
  | _ => cases hop

/-- The code of an instruction sets no local but that of its result. -/
theorem Lowered.of_setLocal {inst : Inst} (h : Lowered ctx inst code) {place : Nat}
    (hset : .setLocal place ∈ effectsAll code) : ctx.frame.result? inst.id = some place := by
  cases hop : inst.op.isRet with
  | false =>
    cases h.permitted hop _ hset with
    | result hplace => exact hplace
  | true =>
    obtain ⟨push, hpush, rfl⟩ := h.of_isRet hop
    simp only [Instr.effectsAll_append, hpush, List.nil_append, List.mem_append] at hset
    rcases hset with hset | hset
    · unfold FunctionContext.epilogue at hset
      split at hset <;> simp [effectsAll, Instr.effects] at hset
    · simp [effectsAll, Instr.effects] at hset

/-! ## Code of functions -/

/-- What stays as it is between a prologue and an epilogue: the stack pointer, and the local for the address
of the frame, if the frame takes space. -/
def Frame.Kept (frame : Frame) : Effect → Prop
  | .setGlobal index => index = stackPointer
  | .setLocal index => frame.size ≠ 0 ∧ index = frame.base
  | .ret => False

theorem Frame.Permits.not_kept {f : IR.Function} (hframe : frame.Numbered f) {id : Nat} {e : Effect}
    (h : frame.Permits id e) : ¬frame.Kept e := by
  cases h with
  | heap => exact Nat.one_ne_zero
  | result hplace =>
    rintro ⟨hsize, rfl⟩
    exact Nat.lt_irrefl _ (hframe.base_lt_result hsize hplace)

/-- The code of a function is `middle` between a prologue and an epilogue. -/
structure Framed (ctx : FunctionContext) (code : Wasm.Function) (middle : List Instr) : Prop where
  body : code.body = ctx.prologue ++ middle ++ ctx.epilogue ++ [.ret]
  keeps : Avoids ctx.frame.Kept (effectsAll middle)
  stays : .ret ∉ effectsAll middle
  base : ctx.frame.size ≠ 0 → (code.params ++ code.locals)[ctx.frame.base]? = some .i32

/-- Up to the return behind them, instructions do what they may do. -/
theorem of_lowered_body {init : List Inst} {last : Inst} {codes : List (List Instr)}
    (h : List.Forall₂ (Lowered ctx) (init ++ [last]) codes)
    (hinit : ∀ inst ∈ init, inst.op.isRet = false) (hlast : last.op.isRet = true) :
    ∃ middle, codes.flatten = middle ++ ctx.epilogue ++ [.ret] ∧
      ∀ e ∈ effectsAll middle, ∃ id, ctx.frame.Permits id e := by
  induction init generalizing codes with
  | nil =>
    obtain _ | ⟨hcode, ⟨⟩⟩ := h
    obtain ⟨push, hpush, rfl⟩ := hcode.of_isRet hlast
    exact ⟨push, by simp, by simp [hpush]⟩
  | cons inst rest ih =>
    obtain _ | @⟨_, code, _, _, hcode, hcodes⟩ := h
    obtain ⟨hop, hops⟩ := List.forall_mem_cons.mp hinit
    obtain ⟨middle, hmiddle, hpermitted⟩ := ih hcodes hops
    refine ⟨code ++ middle, by simp [hmiddle], ?_⟩
    rw [Instr.effectsAll_append]
    exact List.forall_mem_append.mpr ⟨fun e he => ⟨inst.id, hcode.permitted hop e he⟩, hpermitted⟩

/-- The code of a typed function is framed: its only return comes last. -/
theorem framed_of_lowerFunction {m : IR.Module} {kinds : IR.Kinds} {f : IR.Function}
    {layouts : Layouts} {data : DataImage} {wasm : Wasm.Function} (htyped : f.Typed m kinds)
    (h : lowerFunction layouts data f = .ok wasm) :
    ∃ frame middle, Frame.ofFunction layouts f = .ok frame ∧
      Framed ⟨layouts, data, frame⟩ wasm middle := by
  obtain ⟨frame, codes, ⟨hmade, hcodes⟩, rfl⟩ := of_lowerFunction h
  obtain ⟨init, last, hblocks, hinit, hlast, _⟩ := htyped.body
  have hinsts : f.insts = init ++ [last] := by simp [IR.Function.insts, hblocks]
  obtain ⟨middle, hmiddle, hpermitted⟩ := of_lowered_body (hinsts ▸ hcodes) hinit hlast
  have hframe : frame.Numbered f := Frame.numbered_of_ofFunction hmade
  refine ⟨frame, middle, hmade, ?_, fun e he => (hpermitted e he).elim fun _ => (·.not_kept hframe),
    fun hret => ?_, hframe.frameLocal⟩
  · simp only [hmiddle, List.append_assoc]
  · obtain ⟨_, hpermitted⟩ := hpermitted _ hret
    cases hpermitted

end Straightline.Lowering
