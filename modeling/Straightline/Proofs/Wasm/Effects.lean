import Straightline.Proofs.Wasm.Running

/-!
# What code leaves alone

The locals and globals that code sets, and whether it returns, can be read off it (`Instr.effects`).
Whatever is not among them is the same afterwards (`execAll_same`), and at every point that is passed
on the way (`Passes.same`), if the functions that are called leave the global alone too. Inside of a
callee nothing is passed: a call is one step.
-/

set_option autoImplicit false

namespace Straightline.Wasm

/-! ## Effects -/

/-- What an instruction can do besides working on the operand stack and on memory. -/
inductive Effect where
  | setLocal (index : Nat)
  | setGlobal (index : Nat)
  | ret
deriving DecidableEq, Repr

namespace Instr

mutual

/-- The effects of an instruction, and of what stands inside it. -/
def effects : Instr → List Effect
  | ret => [.ret]
  | ifThen body => effectsAll body
  | localSet index | localTee index => [.setLocal index]
  | globalSet index => [.setGlobal index]
  | _ => []

/-- The effects of instructions. -/
def effectsAll : List Instr → List Effect
  | [] => []
  | instr :: rest => effects instr ++ effectsAll rest

end

@[simp] theorem effectsAll_append (code code' : List Instr) :
    effectsAll (code ++ code') = effectsAll code ++ effectsAll code' := by
  induction code with
  | nil => rfl
  | cons instr rest ih => rw [List.cons_append, effectsAll, effectsAll, ih, List.append_assoc]

end Instr

/-- The code does none of these. -/
def Avoids (avoided : Effect → Prop) (effects : List Effect) : Prop := ∀ e ∈ effects, ¬avoided e

namespace Avoids

variable {avoided : Effect → Prop} {effects effects' : List Effect}

theorem append_iff : Avoids avoided (effects ++ effects') ↔
    Avoids avoided effects ∧ Avoids avoided effects' :=
  List.forall_mem_append

end Avoids

/-! ## What stays the same -/

/-- An outcome other than a trap leaves a configuration of which `P` holds, and is a return only if
returns are allowed. -/
def Outcome.Leaves (P : Config → Prop) (returns : Prop) : Outcome → Prop
  | .next c => P c
  | .returned c => P c ∧ returns
  | .trap _ _ => True

theorem Outcome.Leaves.imp {P Q : Config → Prop} {returns returns' : Prop} (hP : ∀ c, P c → Q c)
    (hreturns : returns → returns') :
    ∀ {outcome : Outcome}, outcome.Leaves P returns → outcome.Leaves Q returns'
  | .next c, h => hP c h
  | .returned c, h => ⟨hP c h.1, hreturns h.2⟩
  | .trap _ _, _ => trivial

/-- The locals and globals that are kept are the same, and there are as many locals. -/
structure Config.Same (kept : Effect → Prop) (c c' : Config) : Prop where
  locals : ∀ i, kept (.setLocal i) → c'.locals[i]? = c.locals[i]?
  globals : ∀ i, kept (.setGlobal i) → c'.inst.globals[i]? = c.inst.globals[i]?
  size : c'.locals.length = c.locals.length

namespace Config.Same

variable {kept : Effect → Prop} {c c' c'' : Config}

theorem of_eq (hlocals : c'.locals = c.locals) (hglobals : c'.inst.globals = c.inst.globals) :
    c.Same kept c' :=
  ⟨fun _ _ => by rw [hlocals], fun _ _ => by rw [hglobals], by rw [hlocals]⟩

theorem trans (h : c.Same kept c') (h' : c'.Same kept c'') : c.Same kept c'' :=
  ⟨fun i hi => (h'.locals i hi).trans (h.locals i hi),
    fun i hi => (h'.globals i hi).trans (h.globals i hi), h'.size.trans h.size⟩

end Config.Same

/-- A call that comes back leaves the kept globals as they were. -/
def Invoke.Keeps (kept : Effect → Prop) (invoke : Invoke) : Prop :=
  ∀ id stack s results s', invoke id stack s = .ok results s' →
    ∀ i, kept (.setGlobal i) → s'.globals[i]? = s.globals[i]?

section Same

variable {engine : Engine} {invoke : Invoke} {kept : Effect → Prop} {c : Config} {returns : Prop}

/-! ### Single instructions -/

theorem leaves_remember (stack : List Val) (memory : Option Memory) :
    (c.remember stack memory).Leaves (c.Same kept) returns := by
  cases memory with
  | none => trivial
  | some memory => exact .of_eq rfl rfl

theorem leaves_unary (f : UInt32 → UInt32) : (c.unary f).Leaves (c.Same kept) returns := by
  unfold Config.unary
  split
  · exact .of_eq rfl rfl
  · trivial

theorem leaves_binary (f : UInt32 → UInt32 → UInt32) : (c.binary f).Leaves (c.Same kept) returns := by
  unfold Config.binary
  split
  · exact .of_eq rfl rfl
  · trivial

theorem leaves_binaryWide (f : UInt64 → UInt64 → UInt64) :
    (c.binaryWide f).Leaves (c.Same kept) returns := by
  unfold Config.binaryWide
  split
  · exact .of_eq rfl rfl
  · trivial

theorem leaves_load (access : Load) (offset : UInt32) :
    (c.load access offset).Leaves (c.Same kept) returns := by
  unfold Config.load
  split
  · split
    · exact .of_eq rfl rfl
    · trivial
  · trivial

theorem leaves_store (access : Store) (offset : UInt32) :
    (c.store access offset).Leaves (c.Same kept) returns := by
  unfold Config.store
  split
  · split
    · exact leaves_remember _ _
    · trivial
  · trivial

theorem leaves_copy : c.copy.Leaves (c.Same kept) returns := by
  unfold Config.copy
  split
  · exact leaves_remember _ _
  · trivial

theorem leaves_grow : (c.grow engine).Leaves (c.Same kept) returns := by
  unfold Config.grow
  split
  · refine .of_eq rfl ?_
    unfold Instance.grow
    split <;> rfl
  · trivial

theorem leaves_call (hinvoke : invoke.Keeps kept) (function : Nat) :
    (c.call invoke function).Leaves (c.Same kept) returns := by
  unfold Config.call
  split
  · rename_i results s hcall
    exact ⟨fun _ _ => rfl, hinvoke _ _ _ _ _ hcall, rfl⟩
  · trivial

theorem leaves_setLocal {index : Nat} (h : ¬kept (.setLocal index)) (v : Val) (stack : List Val) :
    (c.setLocal index v stack).Leaves (c.Same kept) returns := by
  unfold Config.setLocal
  split
  · refine ⟨fun i hi => List.getElem?_set_ne ?_, fun _ _ => rfl, List.length_set⟩
    rintro rfl
    exact h hi
  · trivial

/-- An instruction that is no block leaves alone what is not among its effects. -/
theorem exec_same_plain (hinvoke : invoke.Keeps kept) {instr : Instr}
    (hplain : ∀ body, instr ≠ .ifThen body) (h : Avoids kept instr.effects) :
    (exec engine invoke c instr).Leaves (c.Same kept) (.ret ∈ instr.effects) := by
  cases instr with
  | ifThen body => exact absurd rfl (hplain body)
  | unreachable => trivial
  | ret => exact ⟨.of_eq rfl rfl, List.mem_cons_self⟩
  | memorySize | i32Const | i64Const => exact .of_eq rfl rfl
  | call function => exact leaves_call hinvoke function
  | localGet index =>
    simp only [exec]
    split
    · exact .of_eq rfl rfl
    · trivial
  | localSet index | localTee index =>
    simp only [exec]
    split
    · exact leaves_setLocal (h _ List.mem_cons_self) _ _
    · trivial
  | globalGet index =>
    simp only [exec]
    split
    · exact .of_eq rfl rfl
    · trivial
  | globalSet index =>
    simp only [exec]
    split
    · split
      · refine ⟨fun _ _ => rfl, fun i hi => List.getElem?_set_ne ?_, rfl⟩
        rintro rfl
        exact h _ List.mem_cons_self hi
      · trivial
    · trivial
  | load access offset => exact leaves_load access offset
  | store access offset => exact leaves_store access offset
  | memoryGrow => exact leaves_grow
  | memoryCopy => exact leaves_copy
  | i32Eq | i32GtU | i32Add | i32Sub | i32And | i32Shl | i32ShrU => exact leaves_binary _
  | i32Extend8S | i32Extend16S => exact leaves_unary _
  | i64Add | i64Sub => exact leaves_binaryWide _

/-! ### Code -/

mutual

/-- An instruction leaves alone what is not among its effects, since the configuration `c`. -/
theorem exec_same (hinvoke : invoke.Keeps kept) {c c' : Config} (hc : c.Same kept c')
    (instr : Instr) (h : Avoids kept instr.effects) :
    (exec engine invoke c' instr).Leaves (c.Same kept) (.ret ∈ instr.effects) := by
  cases instr with
  | ifThen body =>
    simp only [exec]
    split
    · have hpopped : c.Same kept { c' with stack := ‹List Val› } := ⟨hc.locals, hc.globals, hc.size⟩
      split
      · exact hpopped
      · exact execAll_same hinvoke hpopped body h
    · trivial
  | _ => exact (exec_same_plain hinvoke (by simp) h).imp (fun _ => hc.trans) id

/-- So does code. -/
theorem execAll_same (hinvoke : invoke.Keeps kept) {c c' : Config} (hc : c.Same kept c')
    (code : List Instr) (h : Avoids kept (Instr.effectsAll code)) :
    (execAll engine invoke c' code).Leaves (c.Same kept) (.ret ∈ Instr.effectsAll code) := by
  cases code with
  | nil => exact hc
  | cons instr rest =>
    obtain ⟨hfirst, hrest⟩ := Avoids.append_iff.mp h
    have hnext : (exec engine invoke c' instr).Leaves (c.Same kept) (.ret ∈ instr.effects) :=
      exec_same hinvoke hc instr hfirst
    rw [execAll]
    cases hexec : exec engine invoke c' instr with
    | next c'' =>
      rw [hexec] at hnext
      exact (execAll_same hinvoke hnext rest hrest).imp (fun _ => id) (List.mem_append_right _)
    | returned c'' =>
      rw [hexec] at hnext
      exact ⟨hnext.1, List.mem_append_left _ hnext.2⟩
    | trap cause s => trivial

end

/-- Code that returns, but not in its first part, gets past that. -/
theorem returned_of_append (hinvoke : invoke.Keeps kept) {code code' : List Instr} {c c' : Config}
    (h : Avoids kept (Instr.effectsAll code)) (hret : .ret ∉ Instr.effectsAll code)
    (hreturned : execAll engine invoke c (code ++ code') = .returned c') :
    ∃ c₁, Runs engine invoke code c c₁ ∧ execAll engine invoke c₁ code' = .returned c' := by
  have hleaves : (execAll engine invoke c code).Leaves (c.Same kept) (.ret ∈ Instr.effectsAll code) :=
    execAll_same hinvoke (.of_eq rfl rfl) code h
  rw [execAll_append] at hreturned
  cases hexec : execAll engine invoke c code with
  | next c₁ =>
    rw [hexec] at hreturned
    exact ⟨c₁, hexec, hreturned⟩
  | returned c₁ =>
    rw [hexec] at hleaves
    exact absurd hleaves.2 hret
  | trap cause s =>
    rw [hexec] at hreturned
    cases hreturned

end Same

/-! ## Points on the way -/

/-- Executing the code passes this configuration, in front of one of its instructions or at its end. -/
inductive Passes (engine : Engine) (invoke : Invoke) : Config → List Instr → Config → Prop
  | here {c : Config} {code : List Instr} : Passes engine invoke c code c
  | inside {c c' : Config} {word : UInt32} {stack : List Val} {body rest : List Instr}
      (condition : c.stack = .i32 word :: stack) (taken : word ≠ 0)
      (passed : Passes engine invoke { c with stack } body c') :
      Passes engine invoke c (.ifThen body :: rest) c'
  | later {c c₁ c' : Config} {instr : Instr} {rest : List Instr}
      (first : exec engine invoke c instr = .next c₁) (passed : Passes engine invoke c₁ rest c') :
      Passes engine invoke c (instr :: rest) c'

namespace Passes

variable {engine : Engine} {invoke : Invoke} {kept : Effect → Prop} {c c' c₀ : Config}
  {code : List Instr}

/-- What code leaves alone it leaves alone all the way. -/
theorem same (h : Passes engine invoke c code c') (hinvoke : invoke.Keeps kept)
    (hc : c₀.Same kept c) (hcode : Avoids kept (Instr.effectsAll code)) : c₀.Same kept c' := by
  induction h with
  | here => exact hc
  | inside _ _ _ ih =>
    obtain ⟨hbody, _⟩ := Avoids.append_iff.mp hcode
    exact ih ⟨hc.locals, hc.globals, hc.size⟩ hbody
  | @later c c₁ c' instr rest hfirst _ ih =>
    obtain ⟨hinstr, hrest⟩ := Avoids.append_iff.mp hcode
    have hnext : (exec engine invoke c instr).Leaves (c₀.Same kept) (.ret ∈ instr.effects) :=
      exec_same hinvoke hc instr hinstr
    rw [hfirst] at hnext
    exact ih hnext hrest

/-- The end of a run is passed. -/
theorem of_runs (h : Runs engine invoke code c c') : Passes engine invoke c code c' := by
  induction code generalizing c with
  | nil =>
    cases h
    exact .here
  | cons instr rest ih =>
    rw [Runs, execAll] at h
    cases hfirst : exec engine invoke c instr with
    | next c₁ =>
      rw [hfirst] at h
      exact .later hfirst (ih h)
    | returned | trap =>
      rw [hfirst] at h
      cases h

end Passes

end Straightline.Wasm
