import Straightline.Proofs.Lists
import Straightline.Proofs.Meaning.Machine

/-!
# What instructions compute

If an operation comes to a result, it does so in one of a few ways (`Computed`), with the operands, cells
and calls that it needed. An instruction either returns or goes on with what its operation computed
(`of_step`). A store is one of a whole cell.
-/

set_option autoImplicit false

namespace Straightline

theorem Option.forall₂_of_mapM {α β : Type} {f : α → Option β} {l : List α} {l' : List β}
    (h : l.mapM f = some l') : List.Forall₂ (fun a b => f a = some b) l l' := by
  induction l generalizing l' with
  | nil =>
    cases h
    exact .nil
  | cons a rest ih =>
    rw [List.mapM_cons] at h
    obtain ⟨b, hb, h⟩ := Option.bind_eq_some_iff.mp h
    obtain ⟨bs, hbs, h⟩ := Option.bind_eq_some_iff.mp h
    cases h
    exact .cons hb (ih hbs)

theorem Option.exists_of_mem_mapM {α β : Type} {f : α → Option β} {l : List α} {l' : List β}
    (h : l.mapM f = some l') {b : β} (hb : b ∈ l') : ∃ a ∈ l, f a = some b := by
  have hall := Option.forall₂_of_mapM h
  clear h
  induction hall with
  | nil => cases hb
  | @cons a _ _ _ hab _ ih =>
    rcases List.mem_cons.mp hb with rfl | hb
    · exact ⟨a, List.mem_cons_self, hab⟩
    · obtain ⟨a', ha', hb⟩ := ih hb
      exact ⟨a', List.mem_cons_of_mem _ ha', hb⟩

namespace IR

open Meaning (Stop known)

/-! ## Cells -/

namespace Memory

variable {mem mem' : Memory} {base base' : Base} {d : Datum}

theorem cell?_set_self (h : mem.cell? base ≠ none) :
    (mem.set d base).cell? base = some (some d) := by
  cases base with
  | global i | heap i | slot i =>
    simp only [Memory.cell?, ne_eq, List.getElem?_eq_none_iff, Nat.not_le, Memory.set] at h ⊢
    rw [List.getElem?_set_self h]

theorem cell?_set_ne (h : base ≠ base') : (mem.set d base).cell? base' = mem.cell? base' := by
  cases base with
  | global i | heap i | slot i =>
    cases base' with
    | global j | heap j | slot j =>
      simp only [Memory.cell?, Memory.set]
      try exact List.getElem?_set_ne (by rintro rfl; exact h rfl)

theorem getElem?_of_concat_none {l : List (Option Datum)} {i : Nat}
    (h : (l ++ [none])[i]? = some (some d)) : l[i]? = some (some d) ∧ i ≠ l.length := by
  rcases of_getElem?_concat h with hold | ⟨_, hnone⟩
  · exact ⟨hold, Nat.ne_of_lt (List.getElem?_eq_some_iff.mp hold).1⟩
  · cases hnone

/-- What is held with a slot more was held before, as nothing is in the slot. -/
theorem cell?_of_addSlot
    (h : ({ mem with stack := mem.stack ++ [none] } : Memory).cell? base = some (some d)) :
    mem.cell? base = some (some d) ∧ base ≠ .slot mem.stack.length := by
  cases base with
  | global | heap => exact ⟨h, Base.noConfusion⟩
  | slot i =>
    obtain ⟨hold, hne⟩ := getElem?_of_concat_none h
    exact ⟨hold, fun he => hne (Base.slot.inj he)⟩

/-- And with a model more. -/
theorem cell?_of_addModel
    (h : ({ mem with heap := mem.heap ++ [none] } : Memory).cell? base = some (some d)) :
    mem.cell? base = some (some d) ∧ base ≠ .heap mem.heap.length := by
  cases base with
  | global | slot => exact ⟨h, Base.noConfusion⟩
  | heap i =>
    obtain ⟨hold, hne⟩ := getElem?_of_concat_none h
    exact ⟨hold, fun he => hne (Base.heap.inj he)⟩

/-- Every store is one of a whole cell. -/
theorem of_store? {a : Address} (h : mem.store? a d = some mem') :
    ∃ whole, mem' = mem.set whole a.base ∧ mem.cell? a.base ≠ none ∧
      ((a.path = [] ∧ whole = d) ∨
        ∃ old, mem.cell? a.base = some (some old) ∧ old.put? a.path d = some whole) := by
  unfold Memory.store? at h
  obtain ⟨cell, hcell, h⟩ := Option.bind_eq_some_iff.mp h
  split at h
  case h_1 hpath =>
    cases h
    exact ⟨d, rfl, by simp [hcell], .inl ⟨hpath, rfl⟩⟩
  case h_2 =>
    cases cell with
    | none => cases h
    | some old =>
      obtain ⟨_, ⟨⟩, h⟩ := Option.bind_eq_some_iff.mp h
      obtain ⟨whole, hput, h⟩ := Option.bind_eq_some_iff.mp h
      cases h
      exact ⟨whole, rfl, by simp [hcell], .inr ⟨old, hcell, hput⟩⟩

end Memory

/-! ## Operations -/

/-- Two steps that come to a result come to one each. -/
theorem of_bind_ok {ε σ α β : Type} {x : EStateM ε σ α} {f : α → EStateM ε σ β} {s s' : σ} {b : β}
    (h : (x >>= f) s = .ok b s') : ∃ a s₁, x s = .ok a s₁ ∧ f a s₁ = .ok b s' := by
  change EStateM.bind x f s = _ at h
  unfold EStateM.bind at h
  cases hx : x s with
  | error e s₁ =>
    rw [hx] at h
    cases h
  | ok a s₁ =>
    rw [hx] at h
    exact ⟨a, s₁, rfl, h⟩

theorem of_known_bind {σ α β : Type} {o : Option α} {f : α → EStateM Stop σ β} {s s' : σ} {b : β}
    (h : (known o >>= f) s = .ok b s') : ∃ a, o = some a ∧ f a s = .ok b s' := by
  cases o with
  | none => cases h
  | some a => exact ⟨a, rfl, h⟩

theorem of_address_bind {α : Type} {d : Datum} {f : Address → Exec α} {mem mem' : Memory} {b : α}
    (h : (Exec.address d >>= f) mem = .ok b mem') :
    ∃ a, d = .ptr a ∧ f a mem = .ok b mem' := by
  cases d with
  | int | struct => cases h
  | ptr a => exact ⟨a, rfl, h⟩

variable {entry : Entry} {args : List Datum} {results : Results} {ty : IRType} {mem mem' : Memory}

/-- The ways in which an operation comes to a result. -/
inductive Computed (entry : Entry) (args : List Datum) (results : Results) (ty : IRType)
    (mem : Memory) : Op → Option Datum → Memory → Prop where
  | alloca {t : IRType} {name : Option String} :
      Computed entry args results ty mem (.alloca t name) (some (.ptr ⟨.slot mem.stack.length, []⟩))
        { mem with stack := mem.stack ++ [none] }
  | heapAlloc {t : IRType} :
      Computed entry args results ty mem (.heapAlloc t) (some (.ptr ⟨.heap mem.heap.length, []⟩))
        { mem with heap := mem.heap ++ [none] }
  | store {value ptr : Value} {d : Datum} {a : Address} {mem' : Memory} :
      operand args results ptr = some (.ptr a) → operand args results value = some d →
      mem.store? a d = some mem' →
      Computed entry args results ty mem (.store value ptr) none mem'
  | load {ptr : Value} {d : Datum} {a : Address} : operand args results ptr = some (.ptr a) →
      mem.load? a = some d → Computed entry args results ty mem (.load ptr) (some d) mem
  | call {callee : FunctionId} {operands : List Value} {data : List Datum} {result : Option Datum}
      {mem' : Memory} : operands.mapM (operand args results) = some data →
      entry callee data mem = .ok result mem' →
      Computed entry args results ty mem (.call callee operands) result mem'
  | add {lhs rhs : Value} {x y : Int} {bits : Nat} : operand args results lhs = some (.int x) →
      operand args results rhs = some (.int y) → ty = .int bits →
      Computed entry args results ty mem (.add lhs rhs)
        (some (.int ((x + y).bmod (Nat.pow 2 bits)))) mem
  | sub {lhs rhs : Value} {x y : Int} {bits : Nat} : operand args results lhs = some (.int x) →
      operand args results rhs = some (.int y) → ty = .int bits →
      Computed entry args results ty mem (.sub lhs rhs)
        (some (.int ((x - y).bmod (Nat.pow 2 bits)))) mem
  | fieldAddr {ptr : Value} {index : Nat} {a : Address} :
      operand args results ptr = some (.ptr a) →
      Computed entry args results ty mem (.fieldAddr ptr index)
        (some (.ptr ⟨a.base, a.path ++ [index]⟩)) mem
  | aggregate {fields : List Value} {data : List Datum} :
      fields.mapM (operand args results) = some data →
      Computed entry args results ty mem (.aggregate fields) (some (.struct data)) mem

theorem of_arithmetic_ok {f : Int → Int → Int} {d d' d'' : Datum}
    (h : Exec.arithmetic ty f d d' mem = .ok d'' mem') :
    ∃ x y bits, d = .int x ∧ d' = .int y ∧ ty = .int bits ∧
      d'' = .int ((f x y).bmod (Nat.pow 2 bits)) ∧ mem' = mem := by
  unfold Exec.arithmetic at h
  split at h
  case h_2 => cases h
  case h_1 x y =>
    split at h
    case h_2 => cases h
    case h_1 bits =>
      cases h
      exact ⟨x, y, bits, rfl, rfl, rfl, rfl, rfl⟩

/-- Whatever is computed is computed in one of these ways. -/
theorem of_compute {op : Op} {result : Option Datum}
    (h : compute entry args results ty op mem = .ok result mem') :
    Computed entry args results ty mem op result mem' := by
  cases op with
  | alloca | heapAlloc =>
    cases h
    constructor
  | store value ptr =>
    obtain ⟨dp, hptr, h⟩ := of_known_bind h
    obtain ⟨d, hvalue, h⟩ := of_known_bind h
    obtain ⟨_, _, hstore, hpure⟩ := of_bind_ok h
    obtain ⟨a, rfl, hwrite⟩ := of_address_bind hstore
    obtain ⟨after, hafter, hset⟩ := of_known_bind hwrite
    cases hset
    cases hpure
    exact .store hptr hvalue hafter
  | load ptr =>
    obtain ⟨dp, hptr, h⟩ := of_known_bind h
    obtain ⟨_, _, hload, hpure⟩ := of_bind_ok h
    obtain ⟨a, rfl, hread⟩ := of_address_bind hload
    change known (mem.load? a) mem = _ at hread
    cases hd : mem.load? a with
    | none =>
      rw [hd] at hread
      cases hread
    | some d =>
      rw [hd] at hread
      cases hread
      cases hpure
      exact .load hptr hd
  | call callee operands =>
    obtain ⟨data, hdata, h⟩ := of_known_bind h
    exact .call hdata h
  | add lhs rhs | sub lhs rhs =>
    obtain ⟨x, hlhs, h⟩ := of_known_bind h
    obtain ⟨y, hrhs, h⟩ := of_known_bind h
    obtain ⟨_, _, hsum, hpure⟩ := of_bind_ok h
    obtain ⟨x, y, bits, rfl, rfl, hty, rfl, rfl⟩ := of_arithmetic_ok hsum
    cases hpure
    constructor <;> assumption
  | fieldAddr ptr index =>
    obtain ⟨dp, hptr, h⟩ := of_known_bind h
    obtain ⟨_, _, hfield, hpure⟩ := of_bind_ok h
    obtain ⟨a, rfl, hfield⟩ := of_address_bind hfield
    cases hfield
    cases hpure
    exact .fieldAddr hptr
  | aggregate fields =>
    obtain ⟨data, hdata, h⟩ := of_known_bind h
    cases h
    exact .aggregate hdata
  | ret => cases h

/-- An instruction that is no return goes on with what it computed. -/
theorem of_step_next {inst : Inst} {progress : Progress} (hret : inst.op.isRet = false)
    (h : step entry args results inst mem = .ok progress mem') :
    ∃ result, progress = .next (results.set inst.id result) ∧
      Computed entry args results inst.ty mem inst.op result mem' := by
  obtain ⟨id, ty, op⟩ := inst
  cases op with
  | ret => cases hret
  | alloca | heapAlloc | store | load | call | add | sub | fieldAddr | aggregate =>
    obtain ⟨result, _, hcompute, h⟩ := of_bind_ok h
    cases h
    exact ⟨result, rfl, of_compute hcompute⟩

/-- A return gives the value of its operand, if it has one. -/
theorem of_step_ret {id : Nat} {value : Option Value} {progress : Progress}
    (h : step entry args results ⟨id, ty, .ret value⟩ mem = .ok progress mem') :
    mem' = mem ∧ ∃ result, progress = .returned result ∧
      ((value = none ∧ result = none) ∨
        ∃ v d, value = some v ∧ result = some d ∧ operand args results v = some d) := by
  cases value with
  | none =>
    cases h
    exact ⟨rfl, none, rfl, .inl ⟨rfl, rfl⟩⟩
  | some v =>
    obtain ⟨d, hvalue, h⟩ := of_known_bind h
    cases h
    exact ⟨rfl, some d, rfl, .inr ⟨v, d, rfl, rfl, hvalue⟩⟩

theorem returned_of_step {inst : Inst} {progress : Progress} (hret : inst.op.isRet = true)
    (h : step entry args results inst mem = .ok progress mem') :
    ∃ result, progress = .returned result := by
  obtain ⟨id, ty, op⟩ := inst
  cases op with
  | ret value =>
    obtain ⟨_, result, hprogress, _⟩ := of_step_ret h
    exact ⟨result, hprogress⟩
  | alloca | heapAlloc | store | load | call | add | sub | fieldAddr | aggregate => cases hret

/-- A call that comes to a result executes its function up to a return, and gives the slots back. -/
theorem of_callWithin {m : Module} {depth : Nat} {id : FunctionId} {result : Option Datum}
    (h : m.callWithin (depth + 1) id args mem = .ok result mem') :
    ∃ f after, m.function? id = some f ∧
      runInsts (m.callWithin depth) args .none f.insts mem = .ok (.returned result) after ∧
      mem' = { after with stack := after.stack.take mem.stack.length } := by
  obtain ⟨f, hf, hexecute⟩ := of_known_bind h
  unfold Function.execute at hexecute
  split at hexecute
  case isFalse => cases hexecute
  case isTrue =>
    obtain ⟨before, _, hget, hbody⟩ := of_bind_ok hexecute
    cases hget
    obtain ⟨progress, after, hruns, hleave⟩ := of_bind_ok hbody
    cases progress with
    | next => cases hleave
    | returned value =>
      cases hleave
      exact ⟨f, after, hf, hruns, rfl⟩

end IR

end Straightline
