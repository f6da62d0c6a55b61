import Straightline.Proofs.Emission.Frame
import Straightline.Proofs.IR.Offers

/-!
# The function that is being compiled

While a body is compiled nothing changes but the list of instructions of its function. A `Site` is
everything else; a builder at the site is determined by the instructions it has so far
(`Site.builder`). So what a piece of emission does is said by the instructions it adds and the value
it answers with (`Site.Emits`), and each building step that can be carried out adds the instruction
that it is named after.
-/

set_option autoImplicit false

namespace Straightline

namespace IR

/-- The function `id` of `base`, which is about to get its body. -/
structure Site where
  base : Builder
  id : FunctionId
  function : Function

namespace Site

variable {w : Site} {insts more : List Inst}

/-- The function is in the module and has no body yet. -/
structure Open (w : Site) : Prop where
  placed : w.base.module.function? w.id = some w.function
  empty : w.function.blocks = []

/-- The function with these instructions for a body. -/
def withBody (w : Site) (insts : List Inst) : Function :=
  { w.function with blocks := [⟨"entry", insts⟩] }

/-- The builder when the function has these instructions. -/
def builder (w : Site) (insts : List Inst) : Builder where
  module :=
    { w.base.module with functions := w.base.module.functions.set w.id (w.withBody insts) }
  current := some w.id
  defects := w.base.defects

theorem lt_of_open (h : w.Open) : w.id < w.base.module.functions.length :=
  (List.getElem?_eq_some_iff.mp h.placed).1

theorem function?_self (h : w.Open) :
    (w.builder insts).module.function? w.id = some (w.withBody insts) :=
  List.getElem?_set_self (lt_of_open h)

theorem function?_of_ne {id : FunctionId} (h : w.id ≠ id) :
    (w.builder insts).module.function? id = w.base.module.function? id :=
  List.getElem?_set_ne h

theorem currentFunction? (h : w.Open) :
    (w.builder insts).currentFunction? = some (w.withBody insts) := function?_self h

theorem instCount_withBody : (w.withBody insts).instCount = insts.length := by
  simp [Function.instCount, Function.insts, withBody]

/-- Opening the function is where its body begins. -/
theorem openEntry (h : w.Open) : Build.openEntry w.id w.base = ((), w.builder []) := by
  have hplaced := h.placed
  have hset : w.base.module.functions.modify w.id (fun f => f.openBlock "entry")
      = w.base.module.functions.set w.id (w.withBody []) := by
    unfold Module.function? at hplaced
    rw [List.modify_eq_set_getElem?, hplaced]
    simp only [Option.map_eq_map, Option.map_some, Option.getD_some, Function.openBlock, h.empty,
      withBody, List.nil_append]
  simp only [Build.openEntry, hplaced, hset]
  rfl

/-- Everywhere in the module the same is offered, whatever the body. -/
theorem offers (h : w.Open) (insts : List Inst) :
    w.base.module.Offers (w.builder insts).module := by
  refine ⟨fun h => h, fun {id f} hf => ?_⟩
  by_cases hid : w.id = id
  · subst hid
    rw [h.placed] at hf
    cases hf
    exact ⟨_, function?_self h, rfl, rfl⟩
  · exact ⟨f, (function?_of_ne hid).trans hf, rfl, rfl⟩

/-! ## Building steps -/

/-- The result of the instruction that comes next. -/
def next (insts : List Inst) (ty : IRType) : Value := ⟨.inst insts.length, ty⟩

/-- The builder with an instruction more. -/
def pushed (w : Site) (insts : List Inst) (ty : IRType) (op : Op) : Builder :=
  w.builder (insts ++ [⟨insts.length, ty, op⟩])

theorem emit (h : w.Open) (ty : IRType) (op : Op) :
    Build.emit ty op (w.builder insts) = (next insts ty, w.pushed insts ty op) := by
  have hcurrent : (w.builder insts).current = some w.id := rfl
  have hblocks : (w.withBody insts).blocks.isEmpty = false := rfl
  have hmodify : ∀ inst, (w.builder insts).module.functions.modify w.id (fun f => f.append inst)
      = w.base.module.functions.set w.id (w.withBody (insts ++ [inst])) := by
    intro inst
    have hself : (w.builder insts).module.function? w.id = some (w.withBody insts) :=
      function?_self h
    unfold Module.function? at hself
    rw [List.modify_eq_set_getElem?, hself]
    simp only [Option.map_eq_map, Option.map_some, Option.getD_some, builder, List.set_set]
    rfl
  simp only [Build.emit, hcurrent, currentFunction? h, hblocks, instCount_withBody, hmodify]
  rfl

theorem load (h : w.Open) {ptr : Value} {ty : IRType} (hptr : ptr.ty = .ptr ty) :
    Build.load ptr (w.builder insts) = (next insts ty, w.pushed insts ty (.load ptr)) := by
  have hpointee : ptr.ty.pointee? = some ty := by rw [hptr]; rfl
  simp only [Build.load, hpointee]
  exact emit h ty _

theorem call (h : w.Open) {callee : FunctionId} {f : Function} {args : List Value}
    (hf : w.base.module.function? callee = some f) :
    Build.call callee args (w.builder insts)
      = (next insts f.ret, w.pushed insts f.ret (.call callee args)) := by
  obtain ⟨f', hf', _, hret⟩ := (offers h insts).functions hf
  simp only [Build.call, hf', hret]
  exact emit h f.ret _

theorem fieldAddr (h : w.Open) {ptr : Value} {index : Nat} {ty : IRType}
    (hfield : w.base.module.fieldType? ptr.ty index = some ty) :
    Build.fieldAddr ptr index (w.builder insts)
      = (next insts (.ptr ty), w.pushed insts (.ptr ty) (.fieldAddr ptr index)) := by
  have hfield' : (w.builder insts).module.fieldType? ptr.ty index = some ty := hfield
  simp only [Build.fieldAddr, hfield']
  exact emit h (.ptr ty) _

/-- A structure of constants is a constant. -/
theorem struct_constants {ty : IRType} {fields : List Value} {constants : List Constant}
    (h : fields.mapM Value.constant? = some constants) :
    Build.struct ty fields (w.builder insts)
      = (⟨.const (.struct constants), ty⟩, w.builder insts) := by
  simp only [Build.struct, h]
  rfl

/-- Any other is put together by an instruction. -/
theorem struct_fields (hopen : w.Open) {ty : IRType} {fields : List Value}
    (h : fields.mapM Value.constant? = none) :
    Build.struct ty fields (w.builder insts)
      = (next insts ty, w.pushed insts ty (.aggregate fields)) := by
  simp only [Build.struct, h]
  exact emit hopen ty _

theorem store (h : w.Open) (value ptr : Value) :
    Build.store value ptr (w.builder insts)
      = ((), w.pushed insts .void (.store value ptr)) :=
  congrArg (fun r : Value × Builder => ((), r.2)) (emit h .void (.store value ptr))

theorem ret (h : w.Open) (value : Option Value) :
    Build.ret value (w.builder insts) = ((), w.pushed insts .void (.ret value)) :=
  congrArg (fun r : Value × Builder => ((), r.2)) (emit h .void (.ret value))

theorem param (h : w.Open) {index : Nat} {ty : IRType}
    (hparam : w.function.params[index]? = some ty) :
    Build.param w.id index (w.builder insts) = (⟨.param index, ty⟩, w.builder insts) := by
  have hbind : ((w.builder insts).module.function? w.id).bind (fun f => f.params[index]?)
      = some ty := by
    rw [function?_self h]
    exact hparam
  simp only [Build.param, hbind]

end Site

end IR

/-! ## What emission adds -/

open IR (Site Inst)

variable {α β : Type}

/-- Whenever `m` succeeds after `insts`, it has added some instructions, and `Q` holds of the value
and of these. -/
def IR.Site.Emits (w : Site) (insts : List Inst) (m : Emit α) (Q : α → List Inst → Prop) : Prop :=
  ∀ log a s', m ⟨w.builder insts, log⟩ = .ok a s' →
    ∃ more log', s' = ⟨w.builder (insts ++ more), log'⟩ ∧ Q a more

namespace IR.Site.Emits

variable {w : Site} {insts : List Inst} {m : Emit α} {k : α → Emit β}
  {Q Q' : α → List Inst → Prop} {R : β → List Inst → Prop}

theorem imp (h : w.Emits insts m Q) (hq : ∀ a more, Q a more → Q' a more) :
    w.Emits insts m Q' := by
  intro log a s' hm
  obtain ⟨more, log', hs', ha⟩ := h log a s' hm
  exact ⟨more, log', hs', hq a more ha⟩

/-- A sequence adds what its parts add, one after the other. -/
theorem bind (hm : w.Emits insts m Q)
    (hk : ∀ a more, Q a more → w.Emits (insts ++ more) (k a) fun b more' => R b (more ++ more')) :
    w.Emits insts (m >>= k) R := by
  intro log b s' h
  obtain ⟨a, s₁, hma, h⟩ := bind_ok h
  obtain ⟨more, log₁, rfl, ha⟩ := hm log a s₁ hma
  obtain ⟨more', log', rfl, hb⟩ := hk a more ha log₁ b s' h
  exact ⟨more ++ more', log', by rw [List.append_assoc], hb⟩

theorem pure {a : α} (h : Q a []) : w.Emits insts (pure a) Q := by
  intro log b s' hm
  cases hm
  exact ⟨[], log, by rw [List.append_nil], h⟩

theorem refuse {fault : Fault} {offset : Nat} : w.Emits insts (Emit.refuse fault offset) Q := by
  intro log a s' hm
  cases hm

theorem report {event : Event} {Q : Unit → List Inst → Prop} (h : Q () []) :
    w.Emits insts (Emit.report event) Q := by
  intro log a s' hm
  cases hm
  exact ⟨[], _, by rw [List.append_nil], h⟩

/-- A check adds nothing, and what it found may be used. -/
theorem check {offset : Nat} {outcome : Except Fault α} (h : ∀ a, outcome = .ok a → Q a []) :
    w.Emits insts (Emit.check offset outcome) Q := by
  cases outcome with
  | ok a => exact pure (h a rfl)
  | error fault => exact refuse

theorem require {holds : Bool} {fault : Fault} {offset : Nat} {Q : Unit → List Inst → Prop}
    (h : holds = true → Q () []) : w.Emits insts (Emit.require holds fault offset) Q := by
  unfold Emit.require
  split
  · exact pure (h ‹_›)
  · exact refuse

/-- A building step that adds an instruction. -/
theorem build {step : IR.Build α} {a : α} {ty : IRType} {op : IR.Op}
    (hstep : step (w.builder insts) = (a, w.pushed insts ty op))
    (h : Q a [⟨insts.length, ty, op⟩]) : w.Emits insts (Emit.build step) Q := by
  intro log b s' hm
  simp only [Emit.build, hstep] at hm
  cases hm
  exact ⟨_, log, rfl, h⟩

/-- What a building step that adds an instruction comes to. -/
theorem step {step : IR.Build α} {a : α} {ty : IRType} {op : IR.Op}
    (hstep : step (w.builder insts) = (a, w.pushed insts ty op)) :
    w.Emits insts (Emit.build step) fun a' more => a' = a ∧ more = [⟨insts.length, ty, op⟩] :=
  build hstep ⟨rfl, rfl⟩

/-- A building step that only looks. -/
theorem look {step : IR.Build α} {a : α} (hstep : step (w.builder insts) = (a, w.builder insts))
    (h : Q a []) : w.Emits insts (Emit.build step) Q := by
  intro log b s' hm
  simp only [Emit.build, hstep] at hm
  cases hm
  exact ⟨[], log, by rw [List.append_nil], h⟩

/-! ### What comes next

Most steps of emission are checks and building steps. After one of them the rest is as it would be on its
own, behind the instruction that was added, if there is one. -/

theorem checked {offset : Nat} {outcome : Except Fault α}
    (hk : ∀ a, outcome = .ok a → w.Emits insts (k a) R) :
    w.Emits insts (Emit.check offset outcome >>= k) R := by
  refine .bind (Q := fun a more => outcome = .ok a ∧ more = []) (.check fun _ h => ⟨h, rfl⟩) ?_
  rintro a _ ⟨h, rfl⟩
  rw [List.append_nil]
  exact hk a h

theorem required {holds : Bool} {fault : Fault} {offset : Nat} {k : Unit → Emit β}
    (hk : holds = true → w.Emits insts (k ()) R) :
    w.Emits insts (Emit.require holds fault offset >>= k) R := by
  refine .bind (Q := fun _ more => holds = true ∧ more = []) (.require fun h => ⟨h, rfl⟩) ?_
  rintro _ _ ⟨h, rfl⟩
  rw [List.append_nil]
  exact hk h

theorem reported {event : Event} {k : Unit → Emit β} (hk : w.Emits insts (k ()) R) :
    w.Emits insts (Emit.report event >>= k) R := by
  refine .bind (.report (Q := fun _ more => more = []) rfl) ?_
  rintro _ _ rfl
  rwa [List.append_nil]

theorem looked {step : IR.Build α} {a : α} (hstep : step (w.builder insts) = (a, w.builder insts))
    (hk : w.Emits insts (k a) R) : w.Emits insts (Emit.build step >>= k) R := by
  refine .bind (.look (Q := fun a' more => a' = a ∧ more = []) hstep ⟨rfl, rfl⟩) ?_
  rintro _ _ ⟨rfl, rfl⟩
  rwa [List.append_nil]

theorem built {step : IR.Build α} {a : α} {ty : IRType} {op : IR.Op}
    (hstep : step (w.builder insts) = (a, w.pushed insts ty op))
    (hk : w.Emits (insts ++ [⟨insts.length, ty, op⟩]) (k a) fun b more =>
      R b (⟨insts.length, ty, op⟩ :: more)) : w.Emits insts (Emit.build step >>= k) R := by
  refine .bind (.step hstep) ?_
  rintro _ _ ⟨rfl, rfl⟩
  exact hk

theorem discard {Q : Unit → List Inst → Prop} (h : w.Emits insts m fun _ more => Q () more) :
    w.Emits insts (discard m) Q := by
  rw [discard_eq]
  exact h.bind fun _ more hmore => pure (by rwa [List.append_nil])

/-- Two things that are known of what is added are known together: the instructions that were added
are determined by the builders before and after. -/
theorem and (h : w.Emits insts m Q) (h' : w.Emits insts m Q') (hopen : w.Open) :
    w.Emits insts m fun a more => Q a more ∧ Q' a more := by
  intro log a s' hm
  obtain ⟨more, log₁, rfl, ha⟩ := h log a s' hm
  obtain ⟨more', log₂, hs, ha'⟩ := h' log a _ hm
  have hbody := congrArg (fun s : Emission => s.builder.module.function? w.id) hs
  simp only [Site.function?_self hopen, Option.some.injEq] at hbody
  have hinsts := congrArg (fun f : Function => f.insts) hbody
  simp only [Site.withBody, Function.insts, List.flatMap_cons, List.flatMap_nil,
    List.append_nil, List.append_cancel_left_eq] at hinsts
  subst hinsts
  exact ⟨more, log₁, rfl, ha, ha'⟩

end IR.Site.Emits

end Straightline
