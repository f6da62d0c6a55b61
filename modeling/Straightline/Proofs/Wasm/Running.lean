import Straightline.Proofs.Wasm.Bytes

/-!
# Running code

What single instructions do, and how code is put together: a run (`Runs`) goes from one configuration on to
another, and runs are appended. Code that asks for memory may also stop, where the engine gave none; that
is the only other end that is allowed here (`Reaches`).
-/

set_option autoImplicit false

namespace Straightline.Wasm

namespace Instance

/-- With other bytes in memory from `address` on. -/
def write (s : Instance) (address : Nat) (bytes : List UInt8) : Instance :=
  { s with memory := { s.memory with byte := overlay s.memory.byte address bytes } }

section

variable (s : Instance) (address : Nat) (bytes : List UInt8)

@[simp] theorem write_globals : (s.write address bytes).globals = s.globals := rfl

@[simp] theorem write_byte :
    (s.write address bytes).memory.byte = overlay s.memory.byte address bytes := rfl

@[simp] theorem write_pages : (s.write address bytes).memory.pages = s.memory.pages := rfl

@[simp] theorem write_size : (s.write address bytes).memory.size = s.memory.size := rfl

end

/-- The instances differ in nothing but the bytes from `start` to `stop`. -/
structure Wrote (s s' : Instance) (start stop : Nat) : Prop where
  globals : s'.globals = s.globals
  pages : s'.memory.pages = s.memory.pages
  bytes : ∀ x, x < start ∨ stop ≤ x → s'.memory.byte x = s.memory.byte x

namespace Wrote

variable {s s' s'' : Instance} {start stop start' stop' : Nat}

theorem refl (s : Instance) (start stop : Nat) : s.Wrote s start stop :=
  ⟨rfl, rfl, fun _ _ => rfl⟩

theorem write (s : Instance) (address : Nat) (bytes : List UInt8) :
    s.Wrote (s.write address bytes) address (address + bytes.length) :=
  ⟨rfl, rfl, fun _ hx => overlay_outside hx⟩

theorem mono (h : s.Wrote s' start stop) (hstart : start' ≤ start) (hstop : stop ≤ stop') :
    s.Wrote s' start' stop' :=
  ⟨h.globals, h.pages, fun x hx => h.bytes x (by omega)⟩

theorem trans (h : s.Wrote s' start stop) (h' : s'.Wrote s'' start stop) :
    s.Wrote s'' start stop :=
  ⟨h'.globals.trans h.globals, h'.pages.trans h.pages,
    fun x hx => (h'.bytes x hx).trans (h.bytes x hx)⟩

theorem size (h : s.Wrote s' start stop) : s'.memory.size = s.memory.size :=
  congrArg (· * pageBytes) h.pages

end Wrote

end Instance

variable {engine : Engine} {invoke : Invoke} {code code' : List Instr} {c c' c'' : Config}
variable {s : Instance} {locals : List Val} {stack : List Val}

theorem execAll_append (code code' : List Instr) (c : Config) :
    execAll engine invoke c (code ++ code') =
      match execAll engine invoke c code with
      | .next c' => execAll engine invoke c' code'
      | outcome => outcome := by
  induction code generalizing c with
  | nil => rfl
  | cons instr rest ih =>
    rw [List.cons_append, execAll, execAll]
    cases exec engine invoke c instr with
    | next c' => exact ih c'
    | returned | trap => rfl

/-! ## Runs -/

-- The equations are derived once, here, and not by all of the proofs below at the same time.
attribute [local simp] exec

/-- The code goes from one configuration on to another. -/
def Runs (engine : Engine) (invoke : Invoke) (code : List Instr) (c c' : Config) : Prop :=
  execAll engine invoke c code = .next c'

namespace Runs

theorem nil : Runs engine invoke [] c c := rfl

theorem one {instr : Instr} (h : exec engine invoke c instr = .next c') :
    Runs engine invoke [instr] c c' := by
  rw [Runs, execAll, h]
  rfl

theorem append (h : Runs engine invoke code c c') (h' : Runs engine invoke code' c' c'') :
    Runs engine invoke (code ++ code') c c'' := by
  rw [Runs, execAll_append, h]
  exact h'

theorem cons {instr : Instr} (h : Runs engine invoke [instr] c c')
    (h' : Runs engine invoke code c' c'') : Runs engine invoke (instr :: code) c c'' := h.append h'

theorem localGet {index : Nat} {v : Val} (h : locals[index]? = some v) :
    Runs engine invoke [.localGet index] ⟨s, locals, stack⟩ ⟨s, locals, v :: stack⟩ :=
  one (by simp only [exec, h, Config.push])

theorem of_localGet {index : Nat} {v : Val} (h : Runs engine invoke [.localGet index]
    ⟨s, locals, stack⟩ ⟨s, locals, v :: stack⟩) : locals[index]? = some v := by
  cases hlocal : locals[index]? with
  | none => simp [Runs, execAll, exec, hlocal, Config.trap] at h
  | some w =>
    simp only [Runs, execAll, exec, hlocal, Config.push, Outcome.next.injEq, Config.mk.injEq,
      List.cons.injEq, and_true, true_and] at h
    rw [h]

theorem localSet {index : Nat} {v : Val} (h : index < locals.length) :
    Runs engine invoke [.localSet index] ⟨s, locals, v :: stack⟩ ⟨s, locals.set index v, stack⟩ :=
  one (by simp only [exec, Config.setLocal, h, if_true])

theorem i32Const {word : UInt32} :
    Runs engine invoke [.i32Const word] ⟨s, locals, stack⟩ ⟨s, locals, .i32 word :: stack⟩ := one rfl

theorem i64Const {word : UInt64} :
    Runs engine invoke [.i64Const word] ⟨s, locals, stack⟩ ⟨s, locals, .i64 word :: stack⟩ := one rfl

theorem localTee {index : Nat} {v : Val} (h : index < locals.length) :
    Runs engine invoke [.localTee index] ⟨s, locals, v :: stack⟩
      ⟨s, locals.set index v, v :: stack⟩ :=
  one (by simp only [exec, Config.setLocal, h, if_true])

theorem globalGet {index : Nat} {word : UInt32} (h : s.globals[index]? = some word) :
    Runs engine invoke [.globalGet index] ⟨s, locals, stack⟩ ⟨s, locals, .i32 word :: stack⟩ :=
  one (by simp only [exec, h, Config.push])

theorem globalSet {index : Nat} {word : UInt32} (h : index < s.globals.length) :
    Runs engine invoke [.globalSet index] ⟨s, locals, .i32 word :: stack⟩
      ⟨{ s with globals := s.globals.set index word }, locals, stack⟩ :=
  one (by simp only [exec, h, if_true])

theorem memorySize :
    Runs engine invoke [.memorySize] ⟨s, locals, stack⟩
      ⟨s, locals, .i32 (UInt32.ofNat s.memory.pages) :: stack⟩ := one rfl

theorem unary {instr : Instr} {f : UInt32 → UInt32} {a : UInt32}
    (h : ∀ c, exec engine invoke c instr = c.unary f) :
    Runs engine invoke [instr] ⟨s, locals, .i32 a :: stack⟩ ⟨s, locals, .i32 (f a) :: stack⟩ :=
  one (h _)

theorem binary {instr : Instr} {f : UInt32 → UInt32 → UInt32} {a b : UInt32}
    (h : ∀ c, exec engine invoke c instr = c.binary f) :
    Runs engine invoke [instr] ⟨s, locals, .i32 b :: .i32 a :: stack⟩
      ⟨s, locals, .i32 (f a b) :: stack⟩ := one (h _)

theorem binaryWide {instr : Instr} {f : UInt64 → UInt64 → UInt64} {a b : UInt64}
    (h : ∀ c, exec engine invoke c instr = c.binaryWide f) :
    Runs engine invoke [instr] ⟨s, locals, .i64 b :: .i64 a :: stack⟩
      ⟨s, locals, .i64 (f a b) :: stack⟩ := one (h _)

theorem load {access : Load} {offset address : UInt32}
    (h : address.toNat + offset.toNat + access.width ≤ s.memory.size) :
    Runs engine invoke [.load access offset] ⟨s, locals, .i32 address :: stack⟩
      ⟨s, locals,
        access.value (ofBytes (bytesAt s.memory.byte (address.toNat + offset.toNat) access.width))
          :: stack⟩ :=
  one (by simp only [exec, Config.load, Memory.read?, h, if_true])

theorem store {access : Store} {offset address : UInt32} {v : Val} (htype : v.type = access.operand)
    (h : address.toNat + offset.toNat + access.width ≤ s.memory.size) :
    Runs engine invoke [.store access offset] ⟨s, locals, v :: .i32 address :: stack⟩
      ⟨s.write (address.toNat + offset.toNat) (bytesOf v.toNat access.width), locals, stack⟩ :=
  one (by
    simp only [exec, Config.store, htype, if_true, Memory.write?, length_bytesOf, h,
      Config.remember, Instance.write])

theorem memoryCopy {target source count : UInt32} (hsource : source.toNat + count.toNat ≤ s.memory.size)
    (htarget : target.toNat + count.toNat ≤ s.memory.size) :
    Runs engine invoke [.memoryCopy]
      ⟨s, locals, .i32 count :: .i32 source :: .i32 target :: stack⟩
      ⟨s.write target.toNat (bytesAt s.memory.byte source.toNat count.toNat), locals, stack⟩ :=
  one (by
    simp only [exec, Config.copy, Memory.copy?, hsource, htarget, and_self, if_true, Config.remember,
      Instance.write])

/-- After code that goes on, a return returns. -/
theorem ret (h : Runs engine invoke code c c') :
    execAll engine invoke c (code ++ [.ret]) = .returned c' := by
  rw [execAll_append, h]
  rfl

/-- An `if` whose condition is zero does nothing. -/
theorem ifThen_zero {body : List Instr} :
    Runs engine invoke [.ifThen body] ⟨s, locals, .i32 0 :: stack⟩ ⟨s, locals, stack⟩ := one rfl

end Runs

theorem execAll_ifThen_one :
    execAll engine invoke ⟨s, locals, .i32 1 :: stack⟩ [.ifThen code] =
      execAll engine invoke ⟨s, locals, stack⟩ code := by
  simp only [execAll, exec, show (1 : UInt32) ≠ 0 by decide, if_false]
  cases execAll engine invoke ⟨s, locals, stack⟩ code <;> rfl

/-- An `if` whose condition is one runs as its body does. -/
theorem Runs.ifThen_one (h : Runs engine invoke code ⟨s, locals, stack⟩ c) :
    Runs engine invoke [.ifThen code] ⟨s, locals, .i32 1 :: stack⟩ c := by
  rw [Runs, execAll_ifThen_one]
  exact h

/-- The code pushes a word, whatever else there is but the locals. -/
def Pushes (code : List Instr) (locals : List Val) (v : Val) : Prop :=
  ∀ (engine : Engine) (invoke : Invoke) (s : Instance) (stack : List Val),
    Runs engine invoke code ⟨s, locals, stack⟩ ⟨s, locals, v :: stack⟩

/-! ## Stops -/

/-- The code stopped where memory was asked to grow and did not. -/
inductive Outcome.Refused : Outcome → Prop where
  | trap {s : Instance} : s.refused = true → Outcome.Refused (.trap .unreachable s)

theorem Outcome.Refused.append (h : (execAll engine invoke c code).Refused) (code' : List Instr) :
    (execAll engine invoke c (code ++ code')).Refused := by
  rw [execAll_append]
  generalize execAll engine invoke c code = outcome at h ⊢
  cases h with
  | trap h => exact .trap h

/-- The code goes on to a configuration of which `P` holds, unless memory is refused. -/
def Reaches (engine : Engine) (invoke : Invoke) (code : List Instr) (c : Config)
    (P : Config → Prop) : Prop :=
  (execAll engine invoke c code).Refused ∨ ∃ c', Runs engine invoke code c c' ∧ P c'

namespace Reaches

variable {P Q : Config → Prop}

theorem of_runs (h : Runs engine invoke code c c') (hc : P c') : Reaches engine invoke code c P :=
  .inr ⟨c', h, hc⟩

theorem append (h : Reaches engine invoke code c P)
    (h' : ∀ c', P c' → Reaches engine invoke code' c' Q) :
    Reaches engine invoke (code ++ code') c Q := by
  rcases h with hrefused | ⟨c', hruns, hc'⟩
  · exact .inl (hrefused.append code')
  · rcases h' c' hc' with hrefused | ⟨c'', hruns', hc''⟩
    · refine .inl ?_
      rw [execAll_append, hruns]
      exact hrefused
    · exact .inr ⟨c'', hruns.append hruns', hc''⟩

theorem after (h : Runs engine invoke code c c') (h' : Reaches engine invoke code' c' P) :
    Reaches engine invoke (code ++ code') c P :=
  (of_runs (P := fun x => x = c') h rfl).append fun _ hx => hx ▸ h'

/-- An `if` whose condition is one does what its body does. -/
theorem ifThen_one (h : Reaches engine invoke code ⟨s, locals, stack⟩ P) :
    Reaches engine invoke [.ifThen code] ⟨s, locals, .i32 1 :: stack⟩ P := by
  unfold Reaches Runs
  rw [execAll_ifThen_one]
  exact h

theorem unreachable (h : c.inst.refused = true) : Reaches engine invoke [.unreachable] c P :=
  .inl (.trap h)

theorem imp (h : Reaches engine invoke code c P) (himp : ∀ c', P c' → Q c') :
    Reaches engine invoke code c Q := by
  rcases h with hrefused | ⟨c', hruns, hc'⟩
  · exact .inl hrefused
  · exact .inr ⟨c', hruns, himp c' hc'⟩

/-- Code that goes on to a configuration goes on to no other. -/
theorem iff_of_runs (h : Runs engine invoke code c c') : Reaches engine invoke code c P ↔ P c' := by
  refine ⟨fun hreaches => ?_, of_runs h⟩
  unfold Reaches Runs at hreaches
  rw [h] at hreaches
  rcases hreaches with hrefused | ⟨c'', hnext, hc''⟩
  · cases hrefused
  · cases hnext
    exact hc''

end Reaches

/-- A function is executed on words of the types of its parameters. -/
theorem Function.execute_eq {f : Function} {words : List Val} (htypes : words.map Val.type = f.params)
    (below : List Val) :
    f.execute engine invoke (words.reverse ++ below) s =
      (execAll engine invoke ⟨s, words ++ f.locals.map Val.zero, []⟩ f.body).leave f.results.length
        below := by
  have hlength : f.params.length = words.reverse.length := by
    rw [← htypes, List.length_map, List.length_reverse]
  unfold Function.execute
  simp only [hlength, List.take_left, List.drop_left, List.reverse_reverse, htypes, if_true]

end Straightline.Wasm
