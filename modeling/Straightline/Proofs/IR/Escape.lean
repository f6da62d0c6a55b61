import Straightline.Proofs.IR.Typed
import Straightline.Proofs.Meaning.Computed

/-!
# Addresses of slots

A slot and a model are both reached by a pointer, and nothing in an instruction tells which it is. But the
address of a slot or of one of its fields is never a value (`Held.not_held_pointee`), so it is never handed
on: an instruction may only go through it (`Function.Typed.stays`). What is handed on as an address is the
address of a model, and where that may come from is listed by `Op.Supplies`.

When a function runs, the values that it hands on thus have no address of a slot in them, and so none is
left behind when the function has given its slots back (`Module.Typed.outlives`).
-/

set_option autoImplicit false

namespace Straightline.IR

open Meaning (known)

/-! ## Operands -/

namespace Op

/-- The address that an instruction goes through. -/
def target? : Op → Option Value
  | store _ ptr | load ptr | fieldAddr ptr _ => some ptr
  | alloca .. | heapAlloc _ | call .. | add .. | sub .. | aggregate _ | ret _ => none

/-- The values that an instruction hands on: stores, passes, computes with, puts together or returns. -/
def passed : Op → List Value
  | store value _ => [value]
  | call _ args => args
  | add lhs rhs | sub lhs rhs => [lhs, rhs]
  | aggregate fields => fields
  | ret (some value) => [value]
  | alloca .. | heapAlloc _ | load _ | fieldAddr .. | ret none => []

/-- Every operand is gone through or handed on. -/
theorem operands_eq (op : Op) : op.operands = op.target?.toList ++ op.passed := by
  cases op with
  | ret value => cases value <;> rfl
  | alloca | heapAlloc | store | load | call | add | sub | fieldAddr | aggregate => rfl

/-- The operation gives an address that outlives its function, or one that came from outside it. -/
inductive Supplies : Op → Prop where
  | heapAlloc {ty : IRType} : Supplies (.heapAlloc ty)
  | load {ptr : Value} : Supplies (.load ptr)
  | call {callee : FunctionId} {args : List Value} : Supplies (.call callee args)

end Op

namespace Function

/-- The operation of the instruction at a place. -/
def opAt? (f : Function) (id : Nat) : Option Op := f.insts[id]?.map Inst.op

/-- The instruction gives the address of a slot, or of a field of a field in one. -/
inductive InFrame (f : Function) : Nat → Prop where
  | alloca {id : Nat} {ty : IRType} {name : Option String} : f.opAt? id = some (.alloca ty name) →
      InFrame f id
  | fieldAddr {id base index : Nat} {ptr : Value} : f.opAt? id = some (.fieldAddr ptr index) →
      ptr.source = .inst base → InFrame f base → InFrame f id

/-- Where an address that is handed on comes from: a parameter, a global, or an instruction that supplies
one. -/
def Origin (f : Function) : Source → Prop
  | .param index => index < f.params.length
  | .global _ => True
  | .inst id => ∃ op, f.opAt? id = some op ∧ op.Supplies
  | .const _ => False

end Function

/-! ## Typed functions -/

section Typed

variable {m : Module} {kinds : Kinds} {f : Function} {before : List Inst} {inst : Inst}
variable {ty : IRType} {op : Op}

/-- An address that is computed and not supplied is nothing that is kept. -/
theorem Op.Typed.not_kept (htyped : m.Typed kinds) (h : Op.Typed m kinds f before ty op)
    (hop : (∃ t name, op = .alloca t name) ∨ ∃ ptr index, op = .fieldAddr ptr index) :
    ¬Kept kinds ty := by
  intro hkept
  cases h with
  | alloca hslot =>
    cases hkept with
    | held hheld => exact hheld.not_held_pointee hslot
  | fieldAddr _ _ hd hfield =>
    cases hkept with
    | held hheld =>
      obtain ⟨i, hi⟩ := List.getElem?_of_mem (Module.of_structDef? hd).1
      exact hheld.not_held_pointee ((htyped.structs i _ hi).2 _ (List.mem_of_getElem? hfield)).1
  | heapAlloc | store | load | call | add | sub | aggregate | ret | retValue => simp at hop

/-- What is handed on is there, and is a value or the contents of a model. -/
theorem Op.Typed.passed (htyped : m.Typed kinds) (hf : f.Typed m kinds)
    (h : Op.Typed m kinds f before ty op) {v : Value} (hv : v ∈ op.passed) :
    v.Scoped m f.params before ∧ Kept kinds v.ty := by
  refine ⟨h.operands v (op.operands_eq ▸ List.mem_append_right _ hv), ?_⟩
  cases h with
  | alloca | heapAlloc | load | fieldAddr | ret => cases hv
  | store hkept =>
    obtain rfl := List.mem_singleton.mp hv
    exact hkept
  | call htarget _ htypes =>
    have hparams := (htyped.functions _ (List.mem_of_getElem? htarget)).params
    exact .held (hparams _ (htypes ▸ List.mem_map_of_mem hv))
  | add hbits _ _ _ hlhs hrhs | sub hbits _ _ _ hlhs hrhs =>
    rcases List.mem_pair.mp hv with rfl | rfl
    · exact .held (hlhs ▸ .int hbits)
    · exact .held (hrhs ▸ .int hbits)
  | aggregate hd _ htypes =>
    obtain ⟨i, hi⟩ := List.getElem?_of_mem (Module.of_structDef? hd).1
    exact .held ((htyped.structs i _ hi).2 _ (htypes ▸ List.mem_map_of_mem hv)).1
  | retValue hscoped hret =>
    obtain rfl := List.mem_singleton.mp hv
    exact .held (hret ▸ hf.ret.resolve_left fun hvoid => hscoped.ne_void hf.params (hret.trans hvoid))

/-- What is handed on as the result of an instruction is the result of one that was executed, and kept. -/
theorem Function.Typed.passed_inst (htyped : m.Typed kinds) (hf : f.Typed m kinds)
    (hinst : inst ∈ f.insts) {v : Value} (hv : v ∈ inst.op.passed) {id : Nat}
    (hsource : v.source = .inst id) : ∃ other, f.insts[id]? = some other ∧ Kept kinds other.ty := by
  obtain ⟨k, hk⟩ := List.getElem?_of_mem hinst
  obtain ⟨hscoped, hkept⟩ := (hf.typed_at hk).2.passed htyped hf hv
  cases hscoped with
  | param | const | global => cases hsource
  | inst hother =>
    cases hsource
    exact ⟨_, of_getElem?_take hother, hkept⟩

/-- The address of a slot or of one of its fields is never handed on. -/
theorem Function.Typed.stays (htyped : m.Typed kinds) (hf : f.Typed m kinds) (hinst : inst ∈ f.insts)
    {v : Value} (hv : v ∈ inst.op.passed) {id : Nat} (hsource : v.source = .inst id) :
    ¬f.InFrame id := by
  intro hframe
  obtain ⟨other, hother, hkept⟩ := hf.passed_inst htyped hinst hv hsource
  refine (hf.typed_at hother).2.not_kept htyped ?_ hkept
  cases hframe with
  | alloca h =>
    rw [Function.opAt?, hother] at h
    exact .inl ⟨_, _, Option.some.inj h⟩
  | fieldAddr h =>
    rw [Function.opAt?, hother] at h
    exact .inr ⟨_, _, Option.some.inj h⟩

/-- An address that is kept was supplied. -/
theorem Op.Typed.supplies (htyped : m.Typed kinds) (h : Op.Typed m kinds f before ty op)
    (hkept : Kept kinds ty) {t : IRType} (hty : ty = .ptr t) : op.Supplies := by
  have hnot := h.not_kept htyped
  cases h with
  | alloca => exact absurd hkept (hnot (.inl ⟨_, _, rfl⟩))
  | fieldAddr => exact absurd hkept (hnot (.inr ⟨_, _, rfl⟩))
  | heapAlloc => exact .heapAlloc
  | load => exact .load
  | call => exact .call
  | store | add | sub | aggregate | ret | retValue => cases hty

/-- An address that is handed on comes from a parameter, a global, or where one is supplied. -/
theorem Function.Typed.origin (htyped : m.Typed kinds) (hf : f.Typed m kinds) (hinst : inst ∈ f.insts)
    {v : Value} (hv : v ∈ inst.op.passed) {t : IRType} (hty : v.ty = .ptr t) : f.Origin v.source := by
  obtain ⟨k, hk⟩ := List.getElem?_of_mem hinst
  obtain ⟨hscoped, hkept⟩ := (hf.typed_at hk).2.passed htyped hf hv
  cases hscoped with
  | param hparam => exact (List.getElem?_eq_some_iff.mp hparam).1
  | global => trivial
  | const hfits =>
    subst hty
    cases hfits
  | @inst id other hother =>
    have hother : f.insts[id]? = some other := of_getElem?_take hother
    refine ⟨other.op, ?_, (hf.typed_at hother).2.supplies htyped hkept hty⟩
    rw [Function.opAt?, hother]
    rfl

end Typed

/-! ## Values that last -/

/-- No address in the value is one of a slot. -/
inductive Datum.Lasts : Datum → Prop where
  | int {n : Int} : Lasts (.int n)
  | ptr {a : Address} : (∀ index, a.base ≠ .slot index) → Lasts (.ptr a)
  | struct {fields : List Datum} : (∀ d ∈ fields, Lasts d) → Lasts (.struct fields)

/-- What is in the cells lasts. -/
def Memory.Lasts (mem : Memory) : Prop :=
  ∀ (base : Base) (d : Datum), mem.cell? base = some (some d) → d.Lasts

namespace Datum.Lasts

variable {d d' new : Datum} {path : List Nat}

theorem field {fields : List Datum} (h : (Datum.struct fields).Lasts) {index : Nat}
    (hd : fields[index]? = some d) : d.Lasts := by
  cases h with
  | struct hfields => exact hfields d (List.mem_of_getElem? hd)

theorem at? (h : d.Lasts) (hat : d.at? path = some d') : d'.Lasts := by
  induction path generalizing d with
  | nil =>
    cases d <;> cases hat <;> exact h
  | cons index path ih =>
    cases d with
    | int | ptr => cases hat
    | struct fields =>
      rw [Datum.at?] at hat
      split at hat
      case h_1 field hfield => exact ih (h.field hfield) hat
      case h_2 => cases hat

theorem put? (h : d.Lasts) (hnew : new.Lasts) (hput : d.put? path new = some d') : d'.Lasts := by
  induction path generalizing d d' with
  | nil =>
    cases d <;> cases hput <;> exact hnew
  | cons index path ih =>
    cases d with
    | int | ptr => cases hput
    | struct fields =>
      rw [Datum.put?] at hput
      split at hput
      case h_2 => cases hput
      case h_1 field hfield =>
        obtain ⟨field', hfield', rfl⟩ := Option.map_eq_some_iff.mp hput
        refine .struct fun other hother => ?_
        rcases List.mem_or_eq_of_mem_set hother with hother | rfl
        · cases h with
          | struct hfields => exact hfields other hother
        · exact ih (h.field hfield) hfield'

end Datum.Lasts

mutual

theorem Constant.lasts : ∀ c : Constant, c.datum.Lasts
  | .int _ => .int
  | .struct fields => .struct (Constant.data_last fields)

theorem Constant.data_last : ∀ (cs : List Constant), ∀ d ∈ Constant.data cs, d.Lasts
  | [], _, hd => nomatch hd
  | c :: rest, d, hd => by
    rcases List.mem_cons.mp hd with rfl | hd
    · exact Constant.lasts c
    · exact Constant.data_last rest d hd

end

namespace Memory.Lasts

variable {mem mem' : Memory} {d : Datum} {a : Address}

theorem load? (h : mem.Lasts) (hload : mem.load? a = some d) : d.Lasts := by
  obtain ⟨cell, hcell, hload⟩ := Option.bind_eq_some_iff.mp hload
  obtain ⟨whole, rfl, hat⟩ := Option.bind_eq_some_iff.mp hload
  exact (h _ _ hcell).at? hat

theorem store? (h : mem.Lasts) (hd : d.Lasts) (hstore : mem.store? a d = some mem') : mem'.Lasts := by
  obtain ⟨whole, rfl, hcell, hput⟩ := Memory.of_store? hstore
  have hwhole : whole.Lasts := by
    rcases hput with ⟨_, rfl⟩ | ⟨old, hold, hput⟩
    · exact hd
    · exact (h _ _ hold).put? hd hput
  intro base d' hget
  by_cases hbase : a.base = base
  · subst hbase
    cases (Memory.cell?_set_self hcell).symm.trans hget
    exact hwhole
  · rw [Memory.cell?_set_ne hbase] at hget
    exact h base d' hget

/-- Nothing is in a new slot. -/
theorem alloca (h : mem.Lasts) : Memory.Lasts { mem with stack := mem.stack ++ [none] } :=
  fun base d hget => h base d (Memory.cell?_of_addSlot hget).1

/-- Nothing is in a new model. -/
theorem heapAlloc (h : mem.Lasts) : Memory.Lasts { mem with heap := mem.heap ++ [none] } :=
  fun base d hget => h base d (Memory.cell?_of_addModel hget).1

/-- Slots are given back. -/
theorem take (h : mem.Lasts) (height : Nat) :
    Memory.Lasts { mem with stack := mem.stack.take height } := by
  intro base d hget
  cases base with
  | global index => exact h (.global index) d hget
  | heap index => exact h (.heap index) d hget
  | slot index => exact h (.slot index) d (of_getElem?_take hget)

end Memory.Lasts

/-! ## Executing functions -/

/-- Calls on values that last give a value that lasts, and leave such values in the cells. -/
def Entry.Lasting (entry : Entry) : Prop :=
  ∀ {id : FunctionId} {args : List Datum} {mem mem' : Memory} {result : Option Datum},
    entry id args mem = .ok result mem' → (∀ d ∈ args, d.Lasts) → mem.Lasts →
    (∀ d, result = some d → d.Lasts) ∧ mem'.Lasts

section Executing

variable {m : Module} {kinds : Kinds} {f : Function} {entry : Entry} {args : List Datum}
variable {results : Results} {mem mem' : Memory} {before rest : List Inst} {inst : Inst}

/-- The results that are values last. -/
def Results.Last (kinds : Kinds) (before : List Inst) (results : Results) : Prop :=
  ∀ (i : Nat) (inst : Inst) (d : Datum), before[i]? = some inst → Kept kinds inst.ty →
    results i = some d → d.Lasts

theorem Results.Last.operand (h : results.Last kinds before) (hargs : ∀ d ∈ args, d.Lasts) {v : Value}
    {d : Datum} (hv : v.Scoped m f.params before) (hkept : Kept kinds v.ty)
    (hd : operand args results v = some d) : d.Lasts := by
  cases hv with
  | param => exact hargs d (List.mem_of_getElem? hd)
  | inst hinst => exact h _ _ d hinst hkept hd
  | const =>
    cases hd
    exact Constant.lasts _
  | global =>
    cases hd
    exact .ptr nofun

/-- What an operation computes lasts if it is a value, and so does what it leaves in the cells. -/
theorem Op.Typed.computes_lasting (htyped : m.Typed kinds) (hf : f.Typed m kinds)
    (hop : Op.Typed m kinds f before inst.ty inst.op) (hentry : entry.Lasting)
    (hargs : ∀ d ∈ args, d.Lasts) (hresults : results.Last kinds before) (hmem : mem.Lasts)
    {result : Option Datum} (h : Computed entry args results inst.ty mem inst.op result mem') :
    (Kept kinds inst.ty → ∀ d, result = some d → d.Lasts) ∧ mem'.Lasts := by
  have hpassed : ∀ {v : Value} {d : Datum}, v ∈ inst.op.passed → operand args results v = some d →
      d.Lasts := fun hv hd =>
    let ⟨hscoped, hkept⟩ := hop.passed htyped hf hv
    hresults.operand hargs hscoped hkept hd
  have hall : ∀ {vs : List Value} {data : List Datum}, (∀ v ∈ vs, v ∈ inst.op.passed) →
      vs.mapM (operand args results) = some data → ∀ d ∈ data, d.Lasts := by
    intro vs data hvs hdata d hd
    obtain ⟨v, hv, hd⟩ := Option.exists_of_mem_mapM hdata hd
    exact hpassed (hvs v hv) hd
  -- The addresses of slots and of fields do not last, but they are no values.
  have hnot := hop.not_kept htyped
  generalize inst.ty = ty at hnot h
  generalize inst.op = op at hpassed hall hnot h
  cases h with
  | alloca => exact ⟨fun hkept => absurd hkept (hnot (.inl ⟨_, _, rfl⟩)), hmem.alloca⟩
  | fieldAddr => exact ⟨fun hkept => absurd hkept (hnot (.inr ⟨_, _, rfl⟩)), hmem⟩
  | heapAlloc =>
    refine ⟨fun _ d hd => ?_, hmem.heapAlloc⟩
    cases hd
    exact .ptr nofun
  | store _ hd hstore =>
    exact ⟨fun _ _ hnone => (nomatch hnone),
      hmem.store? (hpassed (List.mem_singleton_self _) hd) hstore⟩
  | load _ hload =>
    refine ⟨fun _ d hd => ?_, hmem⟩
    cases hd
    exact hmem.load? hload
  | call hdata hcall =>
    obtain ⟨hresult, hmem'⟩ := hentry hcall (hall (fun _ hv => hv) hdata) hmem
    exact ⟨fun _ => hresult, hmem'⟩
  | add | sub =>
    refine ⟨fun _ d hd => ?_, hmem⟩
    cases hd
    exact .int
  | aggregate hdata =>
    refine ⟨fun _ d hd => ?_, hmem⟩
    cases hd
    exact .struct (hall (fun _ hv => hv) hdata)

/-- After one instruction more the results that are values last. -/
theorem Results.Last.next (h : results.Last kinds before) {result : Option Datum}
    (hid : inst.id = before.length)
    (hresult : Kept kinds inst.ty → ∀ d, result = some d → d.Lasts) :
    (results.set inst.id result).Last kinds (before ++ [inst]) := by
  intro i inst' d hinst hkept hd
  rcases of_getElem?_concat hinst with hinst | ⟨hi, rfl⟩
  · have hlt := (List.getElem?_eq_some_iff.mp hinst).1
    rw [Results.set, if_neg (by omega)] at hd
    exact h i inst' d hinst hkept hd
  · rw [Results.set, if_pos (by omega)] at hd
    exact hresult hkept d hd

/-- Instructions up to a return give a value that lasts. -/
theorem runInsts_lasting (htyped : m.Typed kinds) (hf : f.Typed m kinds) (hentry : entry.Lasting)
    (hargs : ∀ d ∈ args, d.Lasts) (hsplit : f.insts = before ++ rest)
    (hresults : results.Last kinds before) (hmem : mem.Lasts) {result : Option Datum}
    (h : runInsts entry args results rest mem = .ok (.returned result) mem') :
    (∀ d, result = some d → d.Lasts) ∧ mem'.Lasts := by
  induction rest generalizing before results mem with
  | nil => cases h
  | cons inst rest ih =>
    obtain ⟨progress, mem₁, hstep, h⟩ := of_bind_ok h
    have hchain := hf.chain
    rw [hsplit] at hchain
    obtain ⟨hid, hop⟩ := hchain.typed
    rw [List.nil_append] at hid hop
    cases hret : inst.op.isRet with
    | false =>
      obtain ⟨result', rfl, hcomputed⟩ := of_step_next hret hstep
      obtain ⟨hresult, hmem₁⟩ :=
        hop.computes_lasting htyped hf hentry hargs hresults hmem hcomputed
      exact ih (by rw [hsplit, List.append_assoc]; rfl) (hresults.next hid hresult) hmem₁ h
    | true =>
      obtain ⟨result', rfl⟩ := returned_of_step hret hstep
      cases h
      obtain ⟨id, ty, op⟩ := inst
      cases op with
      | ret value =>
        obtain ⟨rfl, _, hresult, ⟨_, rfl⟩ | ⟨v, d, rfl, rfl, hd⟩⟩ := of_step_ret hstep
        · cases hresult
          exact ⟨nofun, hmem⟩
        · cases hresult
          refine ⟨fun d' hd' => ?_, hmem⟩
          cases hd'
          obtain ⟨hscoped, hkept⟩ := hop.passed htyped hf (List.mem_singleton_self v)
          exact hresults.operand hargs hscoped hkept hd
      | alloca | heapAlloc | store | load | call | add | sub | fieldAddr | aggregate => cases hret

/-- A call on values that last gives one, and leaves no other in the cells. -/
theorem Module.Typed.lasting (htyped : m.Typed kinds) (depth : Nat) :
    (m.callWithin depth).Lasting := by
  induction depth with
  | zero => exact fun h => nomatch h
  | succ depth ih =>
    intro id args mem mem' result h hargs hmem
    obtain ⟨f, after, hf, hruns, rfl⟩ := of_callWithin h
    obtain ⟨hresult, hafter⟩ := runInsts_lasting htyped
      (htyped.functions f (List.mem_of_getElem? hf)) ih hargs (List.nil_append _).symm nofun hmem hruns
    exact ⟨hresult, hafter.take _⟩

end Executing

end Straightline.IR
