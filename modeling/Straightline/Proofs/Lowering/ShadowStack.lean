import Straightline.Proofs.Lowering.Effects
import Straightline.Proofs.Lowering.Total

/-!
# The shadow stack over a call

A call leaves the stack pointer where it was (`stack_pointer_restored`). The prologue moves it down by the
size of the frame, nothing up to the epilogue moves it, and the epilogue adds the size again to the address
that was put aside. For the code in between to leave it alone the calls in it have to, which are nested less
deep: that is the induction (`AllFramed.keeps`). Words may wrap on the way, as they wrap back.
-/

set_option autoImplicit false

namespace Straightline

namespace Wasm

variable {engine : Engine} {invoke : Invoke}

/-- Where the body of a function starts that is called with these words. -/
def Function.start (f : Function) (words : List Val) (s : Instance) : Config :=
  ⟨s, words ++ f.locals.map Val.zero, []⟩

/-- A function that comes back has executed its body. -/
theorem Function.of_execute {f : Function} {stack results : List Val} {s s' : Instance}
    (h : f.execute engine invoke stack s = .ok results s') :
    ∃ words c, words.map Val.type = f.params ∧ c.inst = s' ∧
      (execAll engine invoke (f.start words s) f.body = .next c ∨
        execAll engine invoke (f.start words s) f.body = .returned c) := by
  unfold Function.execute at h
  dsimp only at h
  split at h
  case isFalse => cases h
  case isTrue htypes =>
    have hleave : ∀ outcome : Outcome, outcome.leave f.results.length (stack.drop f.params.length) =
        .ok results s' → ∃ c, c.inst = s' ∧ (outcome = .next c ∨ outcome = .returned c) := by
      rintro (c | c | ⟨cause, t⟩) h
      case trap => cases h
      all_goals
        simp only [Outcome.leave] at h
        split at h <;> cases h
        exact ⟨c, rfl, by simp⟩
    obtain ⟨c, hc, hbody⟩ := hleave _ h
    exact ⟨_, c, htypes, hc, hbody⟩

/-- Nothing gets past a return. -/
theorem execAll_ret_ne_next (code : List Instr) (c c' : Config) :
    execAll engine invoke c (code ++ [.ret]) ≠ .next c' := by
  rw [execAll_append]
  cases execAll engine invoke c code <;> simp [execAll, exec]

end Wasm

namespace Lowering

open Wasm (Avoids Config Engine Instance Instr Invoke Passes Runs Val execAll)
open Wasm.Instr (effectsAll)

variable {ctx : FunctionContext} {frame : Frame} {code : Wasm.Function} {middle : List Instr}
variable {engine : Engine} {invoke : Invoke} {words : List Val} {s : Instance} {c c' : Config}
variable {sp base : UInt32}

/-! ## Frames at an address -/

/-- The frame lies at `base`: the stack pointer is there, and the local for the address, if there is one,
has it. -/
structure Frame.At (frame : Frame) (base : UInt32) (c : Config) : Prop where
  pointer : c.inst.globals[stackPointer]? = some base
  address : frame.size ≠ 0 → c.locals[frame.base]? = some (.i32 base)

theorem Frame.At.same (h : frame.At base c) (hsame : c.Same frame.Kept c') : frame.At base c' where
  pointer := (hsame.globals _ rfl).trans h.pointer
  address hsize := (hsame.locals _ ⟨hsize, rfl⟩).trans (h.address hsize)

namespace Framed

/-- The prologue takes the frame from below the stack pointer. -/
theorem enters (h : Framed ctx code middle) (engine : Engine) (invoke : Invoke)
    (htypes : words.map Val.type = code.params) (hsp : s.globals[stackPointer]? = some sp) :
    ∃ c, Runs engine invoke ctx.prologue (code.start words s) c ∧
      ctx.frame.At (sp - ctx.frame.size) c := by
  have hbase : ctx.frame.size ≠ 0 →
      ctx.frame.base < (words ++ code.locals.map Val.zero).length := by
    intro hsize
    obtain ⟨hlt, _⟩ := List.getElem?_eq_some_iff.mp (h.base hsize)
    rw [← htypes] at hlt
    simpa using hlt
  exact ⟨_, FunctionContext.runs_prologue hsp hbase, withStack_stackPointer hsp _,
    fun hsize => FunctionContext.entered_base hsize (hbase hsize)⟩

/-- It lies there all the way up to the epilogue. -/
theorem between (h : Framed ctx code middle) (hinvoke : invoke.Keeps ctx.frame.Kept)
    (hat : ctx.frame.At base c) (hpasses : Passes engine invoke c middle c') : ctx.frame.At base c' :=
  hat.same (hpasses.same hinvoke (.of_eq rfl rfl) h.keeps)

/-- The epilogue gives it back. -/
theorem leaves (h : Framed ctx code middle) (hinvoke : invoke.Keeps ctx.frame.Kept)
    (hat : ctx.frame.At base c)
    (hreturned : execAll engine invoke c (middle ++ (ctx.epilogue ++ [.ret])) = .returned c') :
    c'.inst.globals[stackPointer]? = some (base + ctx.frame.size) := by
  obtain ⟨c₁, hruns, hrest⟩ := Wasm.returned_of_append hinvoke h.keeps h.stays hreturned
  have hat₁ : ctx.frame.At base c₁ := h.between hinvoke hat (.of_runs hruns)
  rw [Wasm.execAll_append, FunctionContext.runs_epilogue hat₁.pointer hat₁.address] at hrest
  cases hrest
  exact withStack_stackPointer hat₁.pointer _

/-- Without a stack pointer nothing returns but code that takes no frame, and that leaves it at that. -/
theorem keeps_none (h : Framed ctx code middle) (hinvoke : invoke.Keeps ctx.frame.Kept)
    (hnone : s.globals[stackPointer]? = none)
    (hreturned : execAll engine invoke (code.start words s) code.body = .returned c') :
    c'.inst.globals[stackPointer]? = none := by
  by_cases hsize : ctx.frame.size = 0
  case neg =>
    simp [h.body, FunctionContext.prologue, hsize, execAll, Wasm.exec, Wasm.Function.start, hnone,
      Config.trap] at hreturned
  case pos =>
    have hbody : code.body = middle ++ [.ret] := by
      simp [h.body, FunctionContext.prologue, FunctionContext.epilogue, hsize]
    have havoids : Avoids ctx.frame.Kept (effectsAll (middle ++ [.ret])) := by
      rw [Wasm.Instr.effectsAll_append]
      exact Avoids.append_iff.mpr ⟨h.keeps, List.forall_mem_singleton.mpr id⟩
    have hsame : (execAll engine invoke (code.start words s) (middle ++ [.ret])).Leaves
        ((code.start words s).Same ctx.frame.Kept) (.ret ∈ effectsAll (middle ++ [.ret])) :=
      Wasm.execAll_same hinvoke (.of_eq rfl rfl) _ havoids
    rw [← hbody, hreturned] at hsame
    exact (hsame.1.globals _ rfl).trans hnone

/-- A body that returns has put the stack pointer back. -/
theorem keeps_pointer (h : Framed ctx code middle) (hinvoke : invoke.Keeps ctx.frame.Kept)
    (htypes : words.map Val.type = code.params)
    (hreturned : execAll engine invoke (code.start words s) code.body = .returned c') :
    c'.inst.globals[stackPointer]? = s.globals[stackPointer]? := by
  cases hsp : s.globals[stackPointer]? with
  | none => exact h.keeps_none hinvoke hsp hreturned
  | some sp =>
    obtain ⟨c, hruns, hat⟩ := h.enters engine invoke htypes hsp
    rw [h.body, List.append_assoc, List.append_assoc, Wasm.execAll_append, hruns] at hreturned
    rw [h.leaves hinvoke hat hreturned, UInt32.sub_add_cancel]

end Framed

/-! ## Calls -/

/-- The code of every function is framed. -/
def AllFramed (wasm : Wasm.Module) : Prop := ∀ code ∈ wasm.functions, ∃ ctx middle, Framed ctx code middle

theorem allFramed_of_lowerModule {m : IR.Module} {kinds : IR.Kinds} {pages : Nat} {wasm : Wasm.Module}
    (htyped : m.Typed kinds) (h : lowerModule m pages = .ok wasm) : AllFramed wasm := by
  obtain ⟨layouts, data, top, exports, functions, _, _, _, _, hfunctions, rfl⟩ := of_lowerModule h
  intro code hcode
  obtain ⟨i, hi⟩ := List.getElem?_of_mem hcode
  obtain ⟨f, hf, hlower⟩ := forall₂_getElem? hfunctions.flip hi
  obtain ⟨frame, middle, _, hframed⟩ :=
    framed_of_lowerFunction (htyped.functions f (List.mem_of_getElem? hf)) hlower
  exact ⟨_, middle, hframed⟩

/-- However deep calls are nested, one that comes back leaves the stack pointer where it was. -/
theorem AllFramed.keeps {wasm : Wasm.Module} (h : AllFramed wasm) (engine : Engine) (depth : Nat)
    (frame : Frame) : (wasm.callWithin engine depth).Keeps frame.Kept := by
  induction depth generalizing frame with
  | zero =>
    intro id stack s results s' hcall
    cases hcall
  | succ depth ih =>
    rintro id stack s results s' hcall i rfl
    cases hcode : wasm.functions[id]? with
    | none =>
      simp only [Wasm.Module.callWithin, hcode] at hcall
      cases hcall
    | some code =>
      simp only [Wasm.Module.callWithin, hcode] at hcall
      obtain ⟨ctx, middle, hframed⟩ := h code (List.mem_of_getElem? hcode)
      obtain ⟨words, c, htypes, rfl, hnext | hreturned⟩ := Wasm.Function.of_execute hcall
      · rw [hframed.body] at hnext
        exact absurd hnext (Wasm.execAll_ret_ne_next _ _ _)
      · exact hframed.keeps_pointer (ih ctx.frame) htypes hreturned

/-- What a body that starts in `c` does to the stack pointer, which is `sp` there. Between the prologue and
the epilogue a call is one step: what is in between for the callee is not in between for the caller. -/
structure Restores (ctx : FunctionContext) (code : Wasm.Function) (middle : List Instr)
    (engine : Engine) (invoke : Invoke) (c : Config) (sp : UInt32) : Prop where
  between : ∃ c₁, Runs engine invoke ctx.prologue c c₁ ∧ ∀ c₂, Passes engine invoke c₁ middle c₂ →
    c₂.inst.globals[stackPointer]? = some (sp - ctx.frame.size)
  returned : ∀ c', execAll engine invoke c code.body = .returned c' →
    c'.inst.globals[stackPointer]? = some sp

theorem Framed.restores (h : Framed ctx code middle) (hinvoke : invoke.Keeps ctx.frame.Kept)
    (htypes : words.map Val.type = code.params) (hsp : s.globals[stackPointer]? = some sp) :
    Restores ctx code middle engine invoke (code.start words s) sp where
  between := by
    obtain ⟨c, hruns, hat⟩ := h.enters engine invoke htypes hsp
    exact ⟨c, hruns, fun c₂ hpasses => (h.between hinvoke hat hpasses).pointer⟩
  returned _ hreturned := (h.keeps_pointer hinvoke htypes hreturned).trans hsp

end Lowering

open Lowering

/-- A call restores the stack pointer. The module is built from source and lowered; the function is called
on any words of the types of its parameters, on an instance of any contents, by any engine, and with calls
nested to any depth. Between prologue and epilogue the stack pointer is the size of the frame below where it
was; if the body returns, or the call comes back, it is where it was. Nothing is asked of sizes, and structures
may be without fields: where the frame takes no space, the stack pointer is never moved. -/
theorem stack_pointer_restored {units : List SourceUnit} {options : CompileOptions} {m : IR.Module}
    {stackPages : Nat} {wasm : Wasm.Module} (hbuild : (buildModule units options).result = .ok m)
    (hlower : lowerModule m stackPages = .ok wasm) {id : IR.FunctionId} {f : IR.Function}
    (hf : m.function? id = some f) :
    ∃ ctx code middle, Layouts.ofStructs m.structs = .ok ctx.layouts ∧
      Frame.ofFunction ctx.layouts f = .ok ctx.frame ∧ wasm.functions[id]? = some code ∧
      code.body = ctx.prologue ++ middle ++ ctx.epilogue ++ [.ret] ∧
      ∀ (engine : Wasm.Engine) (depth : Nat) (s : Wasm.Instance) (sp : UInt32),
        s.globals[stackPointer]? = some sp →
          (∀ words : List Wasm.Val, words.map Wasm.Val.type = code.params →
            Restores ctx code middle engine (wasm.callWithin engine depth) (code.start words s) sp) ∧
          ∀ stack results s', wasm.callWithin engine depth id stack s = .ok results s' →
            s'.globals[stackPointer]? = some sp := by
  obtain ⟨kinds, htyped⟩ := typed_of_buildModule hbuild
  have hall : AllFramed wasm := allFramed_of_lowerModule htyped hlower
  obtain ⟨layouts, data, top, exports, functions, hlayouts, _, _, _, hfunctions, rfl⟩ :=
    of_lowerModule hlower
  obtain ⟨code, hcode, hcoded⟩ := forall₂_getElem? hfunctions hf
  obtain ⟨frame, middle, hmade, hframed⟩ :=
    framed_of_lowerFunction (htyped.functions f (List.mem_of_getElem? hf)) hcoded
  refine ⟨⟨layouts, data, frame⟩, code, middle, hlayouts, hmade, hcode, hframed.body,
    fun engine depth s sp hsp => ⟨fun words htypes => ?_, fun stack results s' hcall => ?_⟩⟩
  · exact hframed.restores (hall.keeps engine depth frame) htypes hsp
  · exact (hall.keeps engine depth frame id stack s results s' hcall _ rfl).trans hsp

/-- A function that gives a structure, and one that keeps it in its frame. -/
def handing : SourceUnit where
  name := "handing"
  bytes := ("Pair: struct = (a: Int8, b: Int64)\nmake: (n: Int64) -> Pair = \x7b\n" ++
    "  return Pair(1, n)\n\x7d\nmain: () -> Int64 = \x7b\n  p: Pair = make(5)\n  return p.b\n" ++
    "\x7d\n").toList.map Char.toUInt8

/-- Both functions take a frame. When `main` comes back, the stack pointer is at its top again. -/
theorem stack_pointer_restored_handing :
    ∃ m wasm f, (buildModule [handing] {}).result = .ok m ∧ lowerModule m 16 = .ok wasm ∧
      m.function? 1 = some f ∧
      ∃ layouts frame, Frame.ofFunction layouts f = .ok frame ∧ frame.size ≠ 0 ∧
        ∃ s, wasm.callWithin (fun _ => false) 2 1 [] wasm.instantiate = .ok [.i64 5] s ∧
          s.globals[stackPointer]? = wasm.globals[stackPointer]? := by
  have hcheck : ∃ m, (buildModule [handing] {}).result = .ok m ∧
      ∃ wasm, lowerModule m 16 = .ok wasm ∧ ∃ f, m.function? 1 = some f ∧
        (∃ layouts, Layouts.ofStructs m.structs = .ok layouts ∧
          ∃ frame, Frame.ofFunction layouts f = .ok frame ∧ frame.size ≠ 0) ∧
        (∃ results s, wasm.callWithin (fun _ => false) 2 1 [] wasm.instantiate = .ok results s ∧
          results = [.i64 5]) ∧ ∃ sp, wasm.globals[stackPointer]? = some sp ∧ sp ≠ 0 := by
    decide +kernel
  obtain ⟨m, hbuild, wasm, hlower, f, hf, hframe, ⟨_, s, hcall, rfl⟩, sp, hsp, _⟩ := hcheck
  obtain ⟨layouts, _, frame, hmade, hsize⟩ := hframe
  obtain ⟨ctx, code, middle, _, _, _, _, hrestored⟩ := stack_pointer_restored hbuild hlower hf
  exact ⟨m, wasm, f, hbuild, hlower, hf, layouts, frame, hmade, hsize, s, hcall,
    ((hrestored _ 2 _ sp hsp).2 _ _ _ hcall).trans hsp.symm⟩

end Straightline
