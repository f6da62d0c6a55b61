import Straightline.Proofs.IR.Appending

/-!
# How instructions are numbered

The number of an instruction is computed when it is added: it is how many the function has by then, in
whatever block. So whatever is asked of a builder, in every function the instructions are numbered by their
places (`instructions_dense`). What carries this is that each operation adds at most one instruction, at the
end of the last block of the function that is open; blocks that are opened again are empty, and a rollback
takes away whole functions.

Values, functions and checkpoints may be any, also such that were never handed out. A request is refused just
where something to load, to call or to go to is missing, or a place for the instruction
(`Build.defects_request_iff`).
-/

set_option autoImplicit false

namespace Straightline.IR

/-! ## Operations -/

/-- Asks for an instruction with this operation, and answers with the value that is handed out for it, if
one is. Of a structure the type is asked for as well. -/
def Build.request (ty : IRType) : Op → Build (Option Value)
  | .alloca ty name => some <$> alloca ty name
  | .heapAlloc ty => some <$> heapAlloc ty
  | .store value ptr => do
    store value ptr
    return none
  | .load ptr => some <$> load ptr
  | .call callee args => some <$> call callee args
  | .add lhs rhs => some <$> add lhs rhs
  | .sub lhs rhs => some <$> sub lhs rhs
  | .fieldAddr ptr index => some <$> fieldAddr ptr index
  | .aggregate fields => some <$> struct ty fields
  | .ret value => do
    ret value
    return none

/-- What is asked of a builder. To make a constant, to take a checkpoint and to check the module leave it as
it is. -/
inductive Operation where
  | struct (name : String) (fields : List IRType)
  | function (name : String) (params : List IRType) (ret : IRType)
  | entry (id : FunctionId)
  | param (id : FunctionId) (index : Nat)
  | global (name : String) (init : Value)
  | inst (ty : IRType) (op : Op)
  | rollback (c : Checkpoint)
deriving Repr

namespace Operation

def isInst : Operation → Bool
  | inst .. => true
  | _ => false

def perform (b : Builder) : Operation → Builder
  | struct name fields => (Build.declareStruct name fields b).2
  | function name params ret => (Build.declareFunction name params ret b).2
  | entry id => (Build.openEntry id b).2
  | param id index => (Build.param id index b).2
  | global name init => (Build.addGlobal name init b).2
  | inst ty op => (Build.request ty op b).2
  | rollback c => b.rollback c

end Operation

/-- Carries out operations one after the other. -/
def Builder.run (b : Builder) (operations : List Operation) : Builder :=
  operations.foldl Operation.perform b

/-! ## One instruction -/

/-- The value that is handed out for an instruction: its result. For stores and returns there is none. -/
def Inst.handle? (inst : Inst) : Option Value :=
  match inst.op with
  | .store .. | .ret _ => none
  | _ => some ⟨.inst inst.id, inst.ty⟩

/-- What can come of a request: the instruction is appended; a structure of constants is a constant itself;
or the request is refused, and that is noted. -/
inductive Builder.Answered (b : Builder) (ty : IRType) (op : Op) : Option Value → Builder → Prop where
  | appended {inst : Inst} {b' : Builder} : inst.op = op → b.Appended inst b' →
      Answered b ty op inst.handle? b'
  | folded {fields : List Value} {constants : List Constant} : op = .aggregate fields →
      fields.mapM Value.constant? = some constants →
      Answered b ty op (some ⟨.const (.struct constants), ty⟩) b
  | refused {problem : Problem} {answer : Option Value} : Answered b ty op answer (b.record problem)

/-- What the operation needs is there: something to load or to call or a field to go to, and a place for the
instruction, unless it is a constant after all. -/
def Builder.Takes (b : Builder) : Op → Prop
  | .load ptr => ptr.ty.pointee?.isSome ∧ b.Ready
  | .call callee _ => (b.module.function? callee).isSome ∧ b.Ready
  | .fieldAddr ptr index => (b.module.fieldType? ptr.ty index).isSome ∧ b.Ready
  | .aggregate fields => (fields.mapM Value.constant?).isSome ∨ b.Ready
  | _ => b.Ready

namespace Build

/-- A result that is handed out, or dropped as there is none. -/
theorem Emitted.answered {b b' : Builder} {op : Op} {v : Value} {answer : Option Value}
    (h : Emitted b op v b') (ty : IRType)
    (hanswer : ∀ inst : Inst, inst.op = op → v = ⟨.inst inst.id, inst.ty⟩ → answer = inst.handle?) :
    b.Answered ty op answer b' := by
  cases h with
  | appended hop happended => exact hanswer _ hop rfl ▸ .appended hop happended
  | refused => exact .refused

theorem answered_request (ty : IRType) (op : Op) (b : Builder) :
    b.Answered ty op (request ty op b).1 (request ty op b).2 := by
  cases op with
  | alloca | heapAlloc | add | sub =>
    refine (emits_emit _ _ b).answered ty fun inst hop hv => ?_
    simp only [Inst.handle?, hop, ← hv]
    rfl
  | store | ret =>
    refine (emits_emit .void _ b).answered ty fun inst hop _ => ?_
    simp only [Inst.handle?, hop]
    rfl
  | load =>
    refine (emits_load _ b).answered ty fun inst hop hv => ?_
    simp only [Inst.handle?, hop, ← hv]
    rfl
  | call =>
    refine (emits_call _ _ b).answered ty fun inst hop hv => ?_
    simp only [Inst.handle?, hop, ← hv]
    rfl
  | fieldAddr =>
    refine (emits_fieldAddr _ _ b).answered ty fun inst hop hv => ?_
    simp only [Inst.handle?, hop, ← hv]
    rfl
  | aggregate fields =>
    cases hconstants : fields.mapM Value.constant? with
    | some constants =>
      have hstruct : struct ty fields = pure ⟨.const (.struct constants), ty⟩ := by
        simp only [struct, hconstants]
      rw [request, hstruct]
      exact .folded rfl hconstants
    | none =>
      have hstruct : struct ty fields = emit ty (.aggregate fields) := by
        simp only [struct, hconstants]
      rw [request, hstruct]
      refine (emits_emit _ _ b).answered ty fun inst hop hv => ?_
      simp only [Inst.handle?, hop, ← hv]
      rfl

/-- A defect is noted unless what the operation needs is there. -/
theorem defects_request_iff (ty : IRType) (op : Op) (b : Builder) :
    (request ty op b).2.defects = b.defects ↔ b.Takes op := by
  cases op with
  | alloca | heapAlloc | add | sub => exact defects_emit_iff b _ _
  | store | ret => exact defects_emit_iff b .void _
  | load ptr =>
    change (load ptr b).2.defects = _ ↔ _
    cases hpointee : ptr.ty.pointee? with
    | none => simpa [load, hpointee, Builder.Takes] using defects_fail_ne b _ _
    | some ty => simpa [load, hpointee, Builder.Takes] using defects_emit_iff b _ _
  | call callee args =>
    change (call callee args b).2.defects = _ ↔ _
    cases hcallee : b.module.function? callee with
    | none => simpa [call, hcallee, Builder.Takes] using defects_fail_ne b _ _
    | some f => simpa [call, hcallee, Builder.Takes] using defects_emit_iff b _ _
  | fieldAddr ptr index =>
    change (fieldAddr ptr index b).2.defects = _ ↔ _
    cases hfield : b.module.fieldType? ptr.ty index with
    | none => simpa [fieldAddr, hfield, Builder.Takes] using defects_fail_ne b _ _
    | some ty => simpa [fieldAddr, hfield, Builder.Takes] using defects_emit_iff b _ _
  | aggregate fields =>
    change (struct ty fields b).2.defects = _ ↔ _
    cases hconstants : fields.mapM Value.constant? with
    | none => simpa [struct, hconstants, Builder.Takes] using defects_emit_iff b _ _
    | some constants =>
      refine iff_of_true ?_ (.inl (by simp [hconstants]))
      simp only [struct, hconstants]
      rfl

end Build

/-- What can come of a request, by whether it was noted that something went wrong. -/
theorem Builder.Answered.of_defects {b b' : Builder} {ty : IRType} {op : Op} {answer : Option Value}
    (h : b.Answered ty op answer b') :
    (b'.defects = b.defects →
      (∃ inst, inst.op = op ∧ b.Appended inst b' ∧ answer = inst.handle?) ∨
        ∃ fields constants, op = .aggregate fields ∧ fields.mapM Value.constant? = some constants ∧
          answer = some ⟨.const (.struct constants), ty⟩ ∧ b' = b) ∧
      (b'.defects ≠ b.defects → b'.module = b.module) := by
  cases h with
  | appended hop happended =>
    have hdefects : b'.defects = b.defects := by
      cases happended
      rfl
    exact ⟨fun _ => .inl ⟨_, hop, happended, rfl⟩, fun hne => absurd hdefects hne⟩
  | folded hop hconstants => exact ⟨fun _ => .inr ⟨_, _, hop, hconstants, rfl, rfl⟩, fun _ => rfl⟩
  | refused => exact ⟨fun hsame => by simp [Builder.record] at hsame, fun _ => rfl⟩

/-! ## All instructions -/

/-- The instructions of every function are numbered by their places, and there are at most `count`. -/
def Builder.Dense (b : Builder) (count : Nat) : Prop :=
  ∀ f ∈ b.module.functions,
    f.insts.map Inst.id = List.range f.insts.length ∧ f.insts.length ≤ count

namespace Builder.Dense

variable {b b' : Builder} {count : Nat}

theorem start (name : String) : (Builder.start name).Dense 0 := List.forall_mem_nil _

/-- Functions that have the instructions of others, or none, are numbered as they were. -/
theorem of_insts (h : b.Dense count) (hfunctions : ∀ f' ∈ b'.module.functions,
    f'.insts = [] ∨ ∃ f ∈ b.module.functions, f'.insts = f.insts) : b'.Dense count := by
  intro f' hf'
  rcases hfunctions f' hf' with hnone | ⟨f, hf, hsame⟩
  · simp [hnone]
  · exact hsame ▸ h f hf

/-- One more instruction gets the next number. -/
theorem appended {inst : Inst} (h : b.Dense count) (happended : b.Appended inst b') :
    b'.Dense (count + 1) := by
  cases happended with
  | @intro id f earlier last hcurrent hf hsplit hid =>
    intro f' hf'
    rcases List.mem_or_eq_of_mem_set hf' with hold | rfl
    · exact (h f' hold).imp_right Nat.le_succ_of_le
    · obtain ⟨hnumbers, hle⟩ := h f (List.mem_of_getElem? hf)
      rw [← Function.append_of_blocks hsplit inst, Function.insts_append_of_blocks hsplit, List.map_append,
        hnumbers, List.length_append, List.length_singleton, List.range_succ, ← hid]
      exact ⟨rfl, hid ▸ Nat.succ_le_succ hle⟩

theorem answered {ty : IRType} {op : Op} {answer : Option Value} (h : b.Dense count)
    (hanswered : b.Answered ty op answer b') : b'.Dense (count + 1) := by
  have hmore : b.Dense (count + 1) := fun f hf => (h f hf).imp_right Nat.le_succ_of_le
  cases hanswered with
  | appended _ happended => exact h.appended happended
  | folded | refused => exact hmore

theorem openEntry (h : b.Dense count) (id : FunctionId) : (Build.openEntry id b).2.Dense count := by
  unfold Build.openEntry
  split
  · refine h.of_insts fun f' hf' => .inr ?_
    obtain ⟨i, hi⟩ := List.getElem?_of_mem hf'
    change (b.module.functions.modify id _)[i]? = some f' at hi
    rw [List.getElem?_modify] at hi
    obtain ⟨f, hf, rfl⟩ := Option.map_eq_some_iff.mp hi
    refine ⟨f, List.mem_of_getElem? hf, ?_⟩
    split
    · exact f.insts_openBlock _
    · rfl
  · exact h

/-- Every operation keeps the numbers dense. -/
theorem perform (h : b.Dense count) (operation : Operation) :
    (operation.perform b).Dense (if operation.isInst then count + 1 else count) := by
  cases operation with
  | struct => exact h
  | function name params ret =>
    refine h.of_insts fun f' hf' => ?_
    rcases List.mem_append.mp hf' with hold | hnew
    · exact .inr ⟨f', hold, rfl⟩
    · rw [List.mem_singleton.mp hnew]
      exact .inl rfl
  | entry id => exact h.openEntry id
  | param id index =>
    simp only [Operation.perform, Build.param]
    split <;> exact h
  | global name init =>
    simp only [Operation.perform, Build.addGlobal]
    split <;> exact h
  | inst ty op => exact h.answered (Build.answered_request ty op b)
  | rollback c => exact h.of_insts fun f' hf' => .inr ⟨f', List.mem_of_mem_take hf', rfl⟩

/-- So do all operations, one after the other. -/
theorem run (h : b.Dense count) (operations : List Operation) :
    (b.run operations).Dense (count + operations.countP Operation.isInst) := by
  induction operations generalizing b count with
  | nil => exact h
  | cons operation rest ih =>
    have hrest := ih (h.perform operation)
    change ((operation.perform b).run rest).Dense _
    rw [List.countP_cons]
    cases hinst : operation.isInst with
    | false => simpa [hinst] using hrest
    | true => simpa [hinst, Nat.add_assoc, Nat.add_comm 1] using hrest

end Builder.Dense

/-! ## Numbers in words -/

/-- How many instructions a function has, counted in words and block by block. -/
def Function.wordCount (f : Function) : UInt32 :=
  f.blocks.foldl (fun count block => count + UInt32.ofNat block.insts.length) 0

theorem Function.toNat_wordCount (f : Function) :
    f.wordCount.toNat = f.insts.length % UInt32.size := by
  have hfold : ∀ (blocks : List Block) (count : UInt32),
      (blocks.foldl (fun count block => count + UInt32.ofNat block.insts.length) count).toNat =
        (count.toNat + (blocks.flatMap Block.insts).length) % UInt32.size := by
    intro blocks
    induction blocks with
    | nil => exact fun count => (Nat.mod_eq_of_lt count.toNat_lt).symm
    | cons block rest ih =>
      intro count
      rw [List.foldl_cons, ih, UInt32.toNat_add, UInt32.toNat_ofNat', List.flatMap_cons, List.length_append]
      change ((count.toNat + block.insts.length % UInt32.size) % UInt32.size + _) % UInt32.size = _
      rw [Nat.add_mod_mod, Nat.mod_add_mod, Nat.add_assoc]
  exact (hfold f.blocks 0).trans (by rw [UInt32.toNat_zero, Nat.zero_add]; rfl)

/-- Whatever was asked of a builder, with whatever values: in every function the instructions are numbered
by their places. Whatever instruction is asked for next, a defect is noted unless what it needs is there. If
none is noted, it is appended to the last block of the function that is open, with the next number there, and
its number and type are handed out; or it is a structure of constants, which needs none. If one is noted, the
module is as it was. As long as fewer than `2 ^ 32` instructions were asked for, a count in words is the
count. -/
theorem instructions_dense {name : String} {operations : List Operation} {b : Builder}
    (hrun : (Builder.start name).run operations = b) :
    (∀ f ∈ b.module.functions, f.insts.map Inst.id = List.range f.insts.length) ∧
    (∀ (ty : IRType) (op : Op) (answer : Option Value) (b' : Builder),
      Build.request ty op b = (answer, b') →
        (b'.defects = b.defects ↔ b.Takes op) ∧
        (b'.defects = b.defects →
          (∃ inst, inst.op = op ∧ b.Appended inst b' ∧ answer = inst.handle?) ∨
            ∃ fields constants, op = .aggregate fields ∧ fields.mapM Value.constant? = some constants ∧
              answer = some ⟨.const (.struct constants), ty⟩ ∧ b' = b) ∧
        (b'.defects ≠ b.defects → b'.module = b.module)) ∧
    (operations.countP Operation.isInst < UInt32.size →
      ∀ f ∈ b.module.functions, f.wordCount.toNat = f.insts.length) := by
  have hdense := (Builder.Dense.start name).run operations
  rw [hrun, Nat.zero_add] at hdense
  refine ⟨fun f hf => (hdense f hf).1, fun ty op answer b' hrequest => ?_, fun hfew f hf => ?_⟩
  · have hdefects := Build.defects_request_iff ty op b
    have hanswered := Build.answered_request ty op b
    rw [hrequest] at hdefects hanswered
    exact ⟨hdefects, hanswered.of_defects⟩
  · rw [f.toNat_wordCount]
    exact Nat.mod_eq_of_lt (Nat.lt_of_le_of_lt (hdense f hf).2 hfew)

/-- A function whose entry is opened three times, with a call for an instruction outside of any function, one
with values that were never handed out, and one in a function that is then rolled back. -/
def misused : List Operation :=
  [.inst .void (.alloca (.int 8) none), .function "f" [.int 32] (.int 32), .entry 0,
    .inst .void (.alloca (.int 32) none), .entry 0, .inst .void (.add ⟨.inst 7, .int 32⟩ ⟨.param 3, .int 8⟩),
    .function "g" [] .void, .entry 1, .inst .void (.ret none), .rollback ⟨0, 0, 1, 1⟩,
    .inst .void (.ret none), .entry 0, .inst .void (.ret (some ⟨.inst 1, .int 32⟩))]

/-- What is left of that are three blocks with an instruction each, and two defects. -/
theorem instructions_dense_misused :
    ∃ b f, (Builder.start "test").run misused = b ∧ b.module.functions = [f] ∧ b.defects.length = 2 ∧
      f.blocks.map (fun block => block.insts.length) = [1, 1, 1] ∧
        f.insts.map Inst.id = List.range f.insts.length := by
  obtain ⟨b, hrun⟩ : ∃ b, (Builder.start "test").run misused = b := ⟨_, rfl⟩
  obtain ⟨f, hfunctions, hdefects, hblocks⟩ :
      ∃ f, b.module.functions = [f] ∧ b.defects.length = 2 ∧
        f.blocks.map (fun block => block.insts.length) = [1, 1, 1] := by
    subst hrun
    exact ⟨_, rfl, rfl, rfl⟩
  exact ⟨b, f, hrun, hfunctions, hdefects, hblocks,
    (instructions_dense hrun).1 f (hfunctions ▸ List.mem_singleton_self f)⟩

end Straightline.IR
