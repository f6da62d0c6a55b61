import Straightline.Proofs.Declaring.Matching

/-!
# Functions under other numbers

A call refers to its callee by a number, the place of the callee in its module. Declaring the same functions
in another order gives them other numbers, and nothing else about the module changes: `Module.Renumbered σ`
says that the function at `id` is found at `σ id`, with its calls renumbered in the same way.

While instructions are added to a function, the builders of two such modules answer alike
(`Build.Alike.twin`). For that they need not agree on the bodies of other functions, only on their headers
(`Builder.Twin`).
-/

set_option autoImplicit false

namespace Straightline.IR

/-! ## Renumbering -/

namespace Op

/-- The operation with the callee of a call renumbered. -/
def renumber (σ : FunctionId → FunctionId) : Op → Op
  | call callee args => call (σ callee) args
  | op => op

end Op

def Inst.renumber (σ : FunctionId → FunctionId) (inst : Inst) : Inst :=
  { inst with op := inst.op.renumber σ }

def Block.renumber (σ : FunctionId → FunctionId) (block : Block) : Block :=
  { block with insts := block.insts.map (Inst.renumber σ) }

def Function.renumber (σ : FunctionId → FunctionId) (f : Function) : Function :=
  { f with blocks := f.blocks.map (Block.renumber σ) }

/-- The function at `id` is found at `σ id` in `m'`, with its calls renumbered, and the rest is the same. -/
structure Module.Renumbered (σ : FunctionId → FunctionId) (m m' : Module) : Prop where
  name : m'.name = m.name
  structs : m'.structs = m.structs
  globals : m'.globals = m.globals
  count : m'.functions.length = m.functions.length
  functions : ∀ id, m'.function? (σ id) = (m.function? id).map (Function.renumber σ)

namespace Function

variable {σ : FunctionId → FunctionId} {f : Function}

@[simp] theorem header_renumber : (f.renumber σ).header = f.header := rfl

@[simp] theorem params_renumber : (f.renumber σ).params = f.params := rfl

@[simp] theorem ret_renumber : (f.renumber σ).ret = f.ret := rfl

theorem insts_renumber (σ : FunctionId → FunctionId) (f : Function) :
    (f.renumber σ).insts = f.insts.map (Inst.renumber σ) := by
  simp [insts, renumber, Block.renumber, List.flatMap_map, List.map_flatMap]

@[simp] theorem instCount_renumber : (f.renumber σ).instCount = f.instCount := by
  simp [instCount, insts_renumber]

@[simp] theorem isEmpty_blocks_renumber : (f.renumber σ).blocks.isEmpty = f.blocks.isEmpty := by
  simp [renumber]

theorem renumber_append (σ : FunctionId → FunctionId) (f : Function) (inst : Inst) :
    (f.append inst).renumber σ = (f.renumber σ).append (inst.renumber σ) := by
  simp only [append, renumber, List.length_map, Function.mk.injEq, true_and]
  refine List.ext_getElem? fun i => ?_
  simp only [List.getElem?_map, List.getElem?_modify]
  split <;> simp [Block.renumber, Option.map_map, Function.comp_def]

theorem renumber_openBlock (σ : FunctionId → FunctionId) (f : Function) (label : String) :
    (f.openBlock label).renumber σ = (f.renumber σ).openBlock label := by
  simp [openBlock, renumber, Block.renumber]

/-- A function that calls only functions which keep their numbers stays as it is. -/
theorem renumber_eq_self
    (h : ∀ inst ∈ f.insts, ∀ callee args, inst.op = .call callee args → σ callee = callee) :
    f.renumber σ = f := by
  have hinst : ∀ inst ∈ f.insts, inst.renumber σ = inst := by
    intro inst hinst
    obtain ⟨id, ty, op⟩ := inst
    cases op with
    | call callee args => simp [Inst.renumber, Op.renumber, h _ hinst callee args rfl]
    | _ => rfl
  have hblock : ∀ block ∈ f.blocks, block.renumber σ = block := by
    intro block hblock
    obtain ⟨label, insts⟩ := block
    have hinsts : insts.map (Inst.renumber σ) = insts := by
      refine (List.map_congr_left fun inst hmem => ?_).trans (List.map_id insts)
      exact hinst inst (List.mem_flatMap.mpr ⟨_, hblock, hmem⟩)
    simp only [Block.renumber, hinsts]
  have hblocks : f.blocks.map (Block.renumber σ) = f.blocks :=
    (List.map_congr_left hblock).trans (List.map_id f.blocks)
  simp only [renumber, hblocks]

theorem renumber_id (f : Function) : f.renumber id = f :=
  renumber_eq_self fun _ _ _ _ _ => rfl

end Function

/-! ## Builders at the same place of the same function -/

/-- What a body asks of its module is the same in `b` and in `b'`: the structures, and the headers of the
functions under their numbers. -/
structure Builder.Similar (σ : FunctionId → FunctionId) (b b' : Builder) : Prop where
  structs : b'.module.structs = b.module.structs
  headers : ∀ id, (b'.module.function? (σ id)).map Function.header
    = (b.module.function? id).map Function.header

/-- Besides, `b'` is at the same place as `b` in building the same function under another number. -/
structure Builder.Twin (σ : FunctionId → FunctionId) (b b' : Builder) : Prop extends
    Builder.Similar σ b b' where
  current : b'.current = b.current.map σ
  opened : ∀ id, b.current = some id →
    b'.module.function? (σ id) = (b.module.function? id).map (Function.renumber σ)

theorem Builder.Similar.trans {b b' b'' : Builder} (h : b.Similar id b') (h' : b'.Similar id b'') :
    b.Similar id b'' :=
  ⟨h'.structs.trans h.structs, fun function => (h'.headers function).trans (h.headers function)⟩

namespace Builder.Twin

variable {σ : FunctionId → FunctionId} {b b' : Builder}

theorem record (h : b.Twin σ b') (problem problem' : Problem) :
    (b.record problem).Twin σ (b'.record problem') :=
  { structs := h.structs, headers := h.headers, current := h.current, opened := h.opened }

theorem currentFunction? (h : b.Twin σ b') :
    b'.currentFunction? = b.currentFunction?.map (Function.renumber σ) := by
  unfold Builder.currentFunction?
  rw [h.current]
  cases hcurrent : b.current with
  | none => rfl
  | some id => exact h.opened id hcurrent

theorem params (h : b.Twin σ b') (id : FunctionId) :
    (b'.module.function? (σ id)).map Function.params = (b.module.function? id).map Function.params := by
  have hparams := congrArg (Option.map fun header => header.2.1) (h.headers id)
  rwa [Option.map_map, Option.map_map] at hparams

theorem ret (h : b.Twin σ b') (id : FunctionId) :
    (b'.module.function? (σ id)).map Function.ret = (b.module.function? id).map Function.ret := by
  have hret := congrArg (Option.map fun header => header.2.2) (h.headers id)
  rwa [Option.map_map, Option.map_map] at hret

theorem fieldType? (h : b.Twin σ b') (ptr : IRType) (index : Nat) :
    b'.module.fieldType? ptr index = b.module.fieldType? ptr index := by
  simp only [Module.fieldType?, Module.structDef?, h.structs]

end Builder.Twin

/-- The functions with the one at `id` changed. -/
def Builder.modify (b : Builder) (id : FunctionId) (change : Function → Function) : Builder :=
  { b with module := { b.module with functions := b.module.functions.modify id change } }

theorem Builder.header_modify (b : Builder) (id : FunctionId) {change : Function → Function}
    (h : ∀ f, (change f).header = f.header) (other : FunctionId) :
    ((b.modify id change).module.function? other).map Function.header
      = (b.module.function? other).map Function.header := by
  simp only [modify, Module.function?, List.getElem?_modify, Option.map_eq_map, Option.map_map]
  refine congrArg (Option.map · _) (funext fun f => ?_)
  by_cases hid : id = other <;> simp [hid, h]

section

variable {σ : FunctionId → FunctionId} {b b' : Builder} {id : FunctionId}
  {change change' : Function → Function}

theorem Builder.Similar.modify (h : b.Similar σ b') (hheader : ∀ f, (change f).header = f.header)
    (hheader' : ∀ f, (change' f).header = f.header) :
    (b.modify id change).Similar σ (b'.modify (σ id) change') where
  structs := h.structs
  headers other := by
    rw [Builder.header_modify _ _ hheader, Builder.header_modify _ _ hheader', h.headers]

/-- A function that is the same on both sides is so after it was changed on both. -/
theorem Builder.function?_modify
    (h : b'.module.function? (σ id) = (b.module.function? id).map (Function.renumber σ))
    (hchange : ∀ f, (change f).renumber σ = change' (f.renumber σ)) :
    (b'.modify (σ id) change').module.function? (σ id)
      = ((b.modify id change).module.function? id).map (Function.renumber σ) := by
  simp only [Module.function?] at h
  simp only [modify, Module.function?, List.getElem?_modify_eq, Option.map_eq_map, h, Option.map_map]
  exact congrArg (Option.map · _) (funext fun f => (hchange f).symm)

theorem Builder.Twin.modify (h : b.Twin σ b') (hcurrent : b.current = some id)
    (hheader : ∀ f, (change f).header = f.header) (hheader' : ∀ f, (change' f).header = f.header)
    (hchange : ∀ f, (change f).renumber σ = change' (f.renumber σ)) :
    (b.modify id change).Twin σ (b'.modify (σ id) change') where
  toSimilar := h.toSimilar.modify hheader hheader'
  current := h.current
  opened other hother := by
    obtain rfl : id = other := Option.some.inj (hcurrent.symm.trans hother)
    exact Builder.function?_modify (h.opened id hcurrent) hchange

/-- Opening the same function on both sides makes twins of builders that are similar. -/
theorem Builder.Similar.openEntry (h : b.Similar σ b') {f : Function}
    (hf : b.module.function? id = some f) (hf' : b'.module.function? (σ id) = some (f.renumber σ)) :
    (Build.openEntry id b).2.Twin σ (Build.openEntry (σ id) b').2 := by
  have hmodify : (b.modify id fun f => f.openBlock "entry").Similar σ
      (b'.modify (σ id) fun f => f.openBlock "entry") := h.modify (fun _ => rfl) fun _ => rfl
  simp only [Build.openEntry, hf, hf']
  refine { structs := h.structs, headers := hmodify.headers, current := rfl, opened := ?_ }
  intro other hother
  obtain rfl : id = other := Option.some.inj hother
  exact Builder.function?_modify (by rw [hf, hf']; rfl) (Function.renumber_openBlock σ · "entry")

end

namespace Build

variable {α : Type} {σ : FunctionId → FunctionId} {T : Builder → Builder → Prop}

/-- On builders that `T` relates both steps answer the same, and what they leave is related. -/
def Parallel (T : Builder → Builder → Prop) (step step' : Build α) : Prop :=
  ∀ b b' : Builder, T b b' → (step' b').1 = (step b).1 ∧ T (step b).2 (step' b').2

theorem Parallel.discard {step step' : Build α} (h : Parallel T step step') :
    Parallel T (discard step) (discard step') :=
  fun b b' hb => ⟨rfl, (h b b' hb).2⟩

/-- Whatever is asked of a builder while a body is compiled, builders that `T` relates answer alike, if the
functions of the second have the numbers that `σ` gives. -/
structure Alike (σ : FunctionId → FunctionId) (T : Builder → Builder → Prop) : Prop where
  fail : ∀ problem ty, Parallel T (fail problem ty) (fail problem ty)
  emit : ∀ ty op, Parallel T (emit ty op) (emit ty (op.renumber σ))
  call : ∀ callee args, Parallel T (call callee args) (call (σ callee) args)
  fieldAddr : ∀ ptr index, Parallel T (fieldAddr ptr index) (fieldAddr ptr index)
  param : ∀ id index, Parallel T (param id index) (param (σ id) index)

/-- A builder answers like itself. -/
theorem Alike.eq : Alike id (Eq : Builder → Builder → Prop) := by
  have hsame : ∀ {α : Type} (step : Build α), Parallel Eq step step := by
    rintro α step b _ rfl
    exact ⟨rfl, rfl⟩
  refine ⟨fun _ _ => hsame _, fun ty op => ?_, fun _ _ => hsame _, fun _ _ => hsame _,
    fun _ _ => hsame _⟩
  cases op <;> exact hsame _

namespace Alike

theorem load (hT : Alike σ T) (ptr : Value) : Parallel T (load ptr) (load ptr) := by
  unfold Build.load
  split
  · exact hT.emit _ (.load ptr)
  · exact hT.fail _ _

theorem store (hT : Alike σ T) (value ptr : Value) : Parallel T (store value ptr) (store value ptr) :=
  (hT.emit _ (.store value ptr)).discard

theorem struct (hT : Alike σ T) (ty : IRType) (fields : List Value) :
    Parallel T (struct ty fields) (struct ty fields) := by
  unfold Build.struct
  split
  · exact fun b b' hb => ⟨rfl, hb⟩
  · exact hT.emit _ (.aggregate fields)

end Alike

/-! ### Twins answer alike -/

theorem parallel_fail (problem : Problem) (ty : IRType) :
    Parallel (Builder.Twin σ) (fail problem ty) (fail problem ty) :=
  fun _ _ hb => ⟨rfl, hb.record _ _⟩

theorem parallel_emit (ty : IRType) (op : Op) :
    Parallel (Builder.Twin σ) (emit ty op) (emit ty (op.renumber σ)) := by
  intro b b' hb
  have hfunction := hb.currentFunction?
  cases hcurrent : b.current with
  | none =>
    have hcurrent' : b'.current = none := by rw [hb.current, hcurrent]; rfl
    simp only [emit, hcurrent, hcurrent']
    exact parallel_fail _ _ b b' hb
  | some id =>
    have hcurrent' : b'.current = some (σ id) := by rw [hb.current, hcurrent]; rfl
    cases hf : b.currentFunction? with
    | none =>
      rw [hf] at hfunction
      simp only [emit, hcurrent, hcurrent', hf, hfunction, Option.map_none]
      exact parallel_fail _ _ b b' hb
    | some f =>
      rw [hf] at hfunction
      simp only [emit, hcurrent, hcurrent', hf, hfunction, Option.map_some,
        Function.isEmpty_blocks_renumber, Function.instCount_renumber]
      split
      · exact parallel_fail _ _ b b' hb
      · let inst : Inst := ⟨f.instCount, ty, op⟩
        have hmodify : Builder.Twin σ (b.modify id fun g => g.append inst)
            (b'.modify (σ id) fun g => g.append (inst.renumber σ)) :=
          hb.modify hcurrent (fun _ => rfl) (fun _ => rfl) fun g => g.renumber_append σ inst
        simp only [Builder.modify, hcurrent, hcurrent'] at hmodify
        exact ⟨rfl, hmodify⟩

theorem parallel_call (callee : FunctionId) (args : List Value) :
    Parallel (Builder.Twin σ) (call callee args) (call (σ callee) args) := by
  intro b b' hb
  have hret := hb.ret callee
  unfold call
  cases hf : b.module.function? callee with
  | none =>
    rw [hf, Option.map_none, Option.map_eq_none_iff] at hret
    rw [hret]
    exact ⟨rfl, hb.record _ _⟩
  | some f =>
    rw [hf, Option.map_some, Option.map_eq_some_iff] at hret
    obtain ⟨f', hf', hret⟩ := hret
    rw [hf']
    dsimp only
    rw [hret]
    exact parallel_emit _ (.call callee args) b b' hb

theorem parallel_fieldAddr (ptr : Value) (index : Nat) :
    Parallel (Builder.Twin σ) (fieldAddr ptr index) (fieldAddr ptr index) := by
  intro b b' hb
  unfold fieldAddr
  rw [hb.fieldType?]
  split
  · exact parallel_emit _ (.fieldAddr ptr index) b b' hb
  · exact parallel_fail _ _ b b' hb

theorem parallel_param (id : FunctionId) (index : Nat) :
    Parallel (Builder.Twin σ) (param id index) (param (σ id) index) := by
  intro b b' hb
  have hparam : ((b'.module.function? (σ id)).bind fun f => f.params[index]?)
      = (b.module.function? id).bind fun f => f.params[index]? := by
    have hparams := congrArg (Option.bind · fun params : List IRType => params[index]?) (hb.params id)
    rwa [Option.bind_map, Option.bind_map] at hparams
  unfold param
  rw [hparam]
  split
  · exact ⟨rfl, hb⟩
  · exact ⟨rfl, hb⟩

theorem Alike.twin (σ : FunctionId → FunctionId) : Alike σ (Builder.Twin σ) where
  fail := parallel_fail
  emit := parallel_emit
  call := parallel_call
  fieldAddr := parallel_fieldAddr
  param := parallel_param

end Build

end Straightline.IR
