import Straightline.Proofs.Lowering.Calls

/-!
# Executing functions

Every instruction does what it means (`Activation.At.lowered`), a return leaves the function, and so a body
does what it means from its first instruction to its return. With that the calls of a lowered module do
what the calls of the module mean, by induction on how deep they are nested.
-/

set_option autoImplicit false

namespace Straightline.Lowering

open IR (Computed Datum Demand Entry Held Inst Kept Kinds Op Results Value operand)
open Wasm (Config Engine Instance Instr Invoke Reaches Runs Val)

variable {m : IR.Module} {kinds : Kinds}

/-- The function has returned: it has left a world to go on in, and its result on the operand stack. -/
def Activation.Returned (a : Activation) (m : IR.Module) (kinds : Kinds) (result : Option Datum)
    (mem : IR.Memory) (limit : Nat) (c : Config) : Prop :=
  ∃ p hp, Leaves m kinds a.bounds a.caller a.places a.below a.byte limit p
      { mem with stack := mem.stack.take a.below.length } c.inst hp ∧
    Gives m p c.inst.memory.byte (· < a.bounds.top) a.f.ret result c.stack

/-- The function has come to its return, unless memory was refused on the way. -/
def Activation.Ends (a : Activation) (m : IR.Module) (kinds : Kinds) (result : Option Datum)
    (mem : IR.Memory) (limit : Nat) (outcome : Wasm.Outcome) : Prop :=
  outcome.Refused ∨ ∃ c, outcome = .returned c ∧ a.Returned m kinds result mem limit c

namespace Activation.At

variable {a : Activation} {before rest : List Inst} {inst : Inst}
variable {results : Results} {mem mem' : IR.Memory} {p p' : Places} {s s' : Instance}
variable {locals : List Val} {hp : UInt32} {engine : Engine} {invoke : Invoke} {entry : Entry}
variable {demand : Demand} {code : List Instr} {limit : Nat}

/-- The next instruction is typed. -/
theorem typed (ha : a.Proper m kinds) (hsplit : a.f.insts = before ++ inst :: rest) :
    Op.Typed m kinds a.f before inst.ty inst.op := by
  have hchain := ha.suits.function.chain
  rw [hsplit] at hchain
  exact hchain.typed.2

/-- The code of a call pushes its arguments, makes the call, and takes what it gives. -/
theorem loweredCall (ha : a.Proper m kinds) (h : a.At m kinds before results mem p s locals hp)
    {id : Nat} {ty : IRType} {callee : IR.FunctionId} {args : List Value}
    (hsplit : a.f.insts = before ++ ⟨id, ty, .call callee args⟩ :: rest)
    (hsim : Simulates m kinds a.bounds entry demand invoke)
    (hcode : Lowered a.ctx ⟨id, ty, .call callee args⟩ code) {data : List Datum}
    (hdata : args.mapM (operand a.args results) = some data) {result : Option Datum}
    (hentry : entry callee data mem = .ok result mem')
    (hroom : a.bounds.floor + (demand callee data mem).stack ≤ a.base.toNat)
    (hlimit : hp.toNat + (demand callee data mem).heap ≤ limit) (hlow : limit < UInt32.size) :
    Reaches engine invoke code ⟨s, locals, []⟩
      (a.Arrives m kinds (before ++ [⟨id, ty, .call callee args⟩]) (results.set id result) mem'
        limit) := by
  have hop : Op.Typed m kinds a.f before ty (.call callee args) := typed ha hsplit
  obtain ⟨target, htarget, hargs, htypes, hty⟩ := hop.of_call
  have hret := (ha.suits.typed.functions target (List.mem_of_getElem? htarget)).ret
  rw [← hty] at hret
  have hcall : ∀ {codes : List (List Instr)}, args.mapM a.ctx.pushValue = .ok codes →
      Reaches engine invoke (codes.flatten ++ [.call callee]) ⟨s, locals, []⟩ _ := fun hcodes =>
    h.reaches_call ha hsplit hsim (fun _ hv => hv) htarget hargs htypes hcodes hdata hentry hroom
      hlimit hlow
  rw [← hty] at hcall
  cases hcode with
  | callStruct hstruct hcodes hslot he hplace =>
    have hstored : storedType? ⟨id, ty, .call callee args⟩ = some ty := by
      simp [storedType?, hstruct]
    simp only [List.append_assoc]
    rw [← List.append_assoc]
    refine (hcall hcodes).append ?_
    rintro c ⟨hlocals, p', hp', hleaves, hgives⟩
    simpa only [List.append_assoc] using
      h.callStruct ha hsplit hop hstruct hstored hslot he hplace hlocals hleaves hgives
  | callVoid hvoid hcodes =>
    refine (hcall hcodes).imp ?_
    rintro c ⟨hlocals, p', hp', hleaves, hgives⟩
    exact h.callVoid ha hsplit (IRType.eq_void_of_isVoid hvoid) hlocals hleaves hgives
  | call hstruct hvoid hcodes hplace =>
    have hheld : Held kinds ty := hret.resolve_left (by rintro rfl; cases hvoid)
    refine (hcall hcodes).append ?_
    rintro c ⟨hlocals, p', hp', hleaves, hgives⟩
    exact h.callScalar ha hsplit hheld hstruct hplace hlocals hleaves hgives

/-- An instruction that is no return does what it means. -/
theorem lowered (ha : a.Proper m kinds) (h : a.At m kinds before results mem p s locals hp)
    (hsplit : a.f.insts = before ++ inst :: rest)
    (hsim : Simulates m kinds a.bounds entry demand invoke) (hcode : Lowered a.ctx inst code)
    {result : Option Datum} (hc : Computed entry a.args results inst.ty mem inst.op result mem')
    (hroom : a.bounds.floor + (m.opUsage demand a.args results mem inst.op).stack ≤ a.base.toNat)
    (hlimit : hp.toNat + (m.opUsage demand a.args results mem inst.op).heap ≤ limit)
    (hlow : limit < UInt32.size) :
    Reaches engine invoke code ⟨s, locals, []⟩
      (a.Arrives m kinds (before ++ [inst]) (results.set inst.id result) mem' limit) := by
  have hop := typed ha hsplit
  have hmem : inst ∈ a.f.insts := hsplit ▸ by simp
  have hbelow : hp.toNat ≤ limit := by omega
  -- The three forms of a call are put together again below: `loweredCall` tells them apart where the callee
  -- is known.
  have hlowered := hcode
  cases hcode with
  | alloca hslot hplace =>
    cases hop with
    | alloca hheld =>
      cases hc
      exact h.alloca ha hsplit (.alloca hheld) hheld hslot hplace hbelow
  | heapAlloc he hsize hplace =>
    cases hop with
    | heapAlloc hname =>
      cases hc
      exact h.heapAlloc ha hsplit hname he hsize hplace hlimit hlow
  | store hpush hstores =>
    cases hop with
    | store hkept hvalue hptr hty =>
      cases hc with
      | store hb hd hstore =>
        exact h.store ha hsplit hkept hvalue hptr hty hpush hstores hb hd hstore hbelow
  | loadStruct hstruct hslot hpush he hplace =>
    cases hc with
    | load hb hd =>
      have hop' := hop
      cases hop with
      | load hheld hptr hty =>
        exact h.loadStruct ha hsplit hop' hheld hptr hty hstruct hslot hpush he hplace hb hd hbelow
  | load hstruct hpush hload hplace =>
    cases hop with
    | load hheld hptr hty =>
      cases hc with
      | load hb hd =>
        exact h.load ha hsplit hheld hptr hty hstruct hpush hload hplace hb hd hbelow
  | add hleft hright hplace =>
    cases hop with
    | add hbits hone hlhs hrhs hlhsTy hrhsTy =>
      cases hc with
      | add hx hy hty =>
        cases hty
        exact h.arithmetic ha hsplit rfl hbits hone (fun _ hv => hv) hlhs hrhs hlhsTy hrhsTy hleft
          hright hplace hx hy (runs_add hbits hone _ _) hbelow
  | sub hleft hright hplace =>
    cases hop with
    | sub hbits hone hlhs hrhs hlhsTy hrhsTy =>
      cases hc with
      | sub hx hy hty =>
        cases hty
        exact h.arithmetic ha hsplit rfl hbits hone (fun _ hv => hv) hlhs hrhs hlhsTy hrhsTy hleft
          hright hplace hx hy (runs_sub hbits hone _ _) hbelow
  | fieldAddr hoffset hpush hplace =>
    cases hop with
    | fieldAddr hptr hty hdef hfield =>
      cases hc with
      | fieldAddr hb =>
        exact h.fieldAddr ha hsplit hptr hty hdef hfield hoffset hpush hplace hb hbelow
  | aggregate hlayout hslot hstores hplace =>
    obtain ⟨_, _, ⟨⟩, hdef, hfields, htypes⟩ := hop.of_aggregate
    cases hc with
    | aggregate hdata =>
      exact h.aggregate ha hsplit hop hdef hfields htypes hlayout hslot hstores hplace hdata hbelow
  | ret | retValue => cases hc
  | callStruct | callVoid | call =>
    cases hc with
    | call hdata hentry =>
      simp only [IR.Module.opUsage, hdata] at hroom hlimit
      exact h.loweredCall ha hsplit hsim hlowered hdata hentry hroom hlimit hlow

/-! ## Returns -/

/-- The frame is given back. -/
theorem leave (ha : a.Proper m kinds) (h : a.At m kinds before results mem p s locals hp)
    (hlimit : hp.toNat ≤ limit) :
    Leaves m kinds a.bounds a.caller a.places a.below a.byte limit (p.above p.height)
      { mem with stack := mem.stack.take a.below.length } (withStack s a.caller) hp where
  world := h.height ▸ h.world.leave ha.suits.typed rfl
  slots := rfl
  before := h.places.trans (World.before_above p _)
  stack := h.height ▸ h.below
  spared := h.spared
  heap := hlimit

theorem runs_epilogue (h : a.At m kinds before results mem p s locals hp) {stack : List Val} :
    Runs engine invoke a.ctx.epilogue ⟨s, locals, stack⟩ ⟨withStack s a.caller, locals, stack⟩ := by
  rw [← a.base_add]
  exact FunctionContext.runs_epilogue (stackPointer_eq h.world.globals) h.framed

/-- A return gives the result of the function. -/
theorem loweredRet (ha : a.Proper m kinds) (h : a.At m kinds before results mem p s locals hp)
    (hsplit : a.f.insts = before ++ inst :: rest) (hret : inst.op.isRet = true)
    (hcode : Lowered a.ctx inst code) {result : Option Datum}
    (hstep : IR.step entry a.args results inst mem = .ok (.returned result) mem')
    (hlimit : hp.toNat ≤ limit) :
    ∃ c, Wasm.execAll engine invoke ⟨s, locals, []⟩ code = .returned c ∧
      a.Returned m kinds result mem' limit c := by
  have hop := typed ha hsplit
  have hmem : inst ∈ a.f.insts := hsplit ▸ by simp
  cases hcode with
  | ret =>
    obtain ⟨rfl, _, hresult, hnone | ⟨_, _, he, _⟩⟩ := IR.of_step_ret hstep
    case inr => cases he
    cases hresult
    cases hop with
    | ret hvoid =>
      refine ⟨_, Runs.ret h.runs_epilogue, _, hp, h.leave ha hlimit, ?_⟩
      rw [hvoid, hnone.2]
      exact .nothing
  | @retValue _ _ v push hpush =>
    obtain ⟨rfl, _, hresult, ⟨he, _⟩ | ⟨_, d, he, rfl, hd⟩⟩ := IR.of_step_ret hstep
    case inl => cases he
    cases hresult
    cases he
    cases hop with
    | retValue hscoped hty =>
      have hvoid := hscoped.ne_void ha.suits.function.params
      have hheld := ha.suits.function.ret.resolve_left (hty ▸ hvoid)
      obtain ⟨w, hw, hpush⟩ :=
        h.pushValue ha (ha.suits.mem_operands hmem (List.mem_singleton_self v)) hscoped hpush hd
      rw [hty] at hw
      refine ⟨_, Runs.ret ((hpush engine invoke s []).append h.runs_epilogue), _, hp,
        h.leave ha hlimit, .value ?_⟩
      exact h.represents_above ha hheld (fun x hx => h.quiet_lt ha hsplit hx) _ hw
  | alloca | heapAlloc | store | loadStruct | load | callStruct | callVoid | call | add | sub
  | fieldAddr | aggregate => cases hret

/-! ## Bodies -/

/-- The instructions from here to the return do what they mean. -/
theorem insts (ha : a.Proper m kinds) (h : a.At m kinds before results mem p s locals hp)
    (hsplit : a.f.insts = before ++ rest) (hsim : Simulates m kinds a.bounds entry demand invoke)
    {codes : List (List Instr)} (hcodes : List.Forall₂ (Lowered a.ctx) rest codes)
    {result : Option Datum}
    (hruns : IR.runInsts entry a.args results rest mem = .ok (.returned result) mem')
    (hroom : a.bounds.floor + (m.instsUsage entry demand a.args results mem rest).stack ≤
      a.base.toNat)
    (hlimit : hp.toNat + (m.instsUsage entry demand a.args results mem rest).heap ≤ limit)
    (hlow : limit < UInt32.size) :
    a.Ends m kinds result mem' limit
      (Wasm.execAll engine invoke ⟨s, locals, []⟩ codes.flatten) := by
  induction rest generalizing before results mem p s locals hp codes with
  | nil => cases hruns
  | cons inst rest ih =>
    cases hcodes with
    | @cons _ code _ codes hcode hcodes =>
      obtain ⟨progress, mem₁, hstep, hruns⟩ := IR.of_bind_ok hruns
      simp only [IR.Module.instsUsage, hstep, IR.Usage.andThen] at hroom hlimit
      rw [List.flatten_cons]
      cases hret : inst.op.isRet with
      | true =>
        obtain ⟨result, rfl⟩ := IR.returned_of_step hret hstep
        cases hruns
        obtain ⟨c, hexec, hreturned⟩ : ∃ c, Wasm.execAll engine invoke ⟨s, locals, []⟩ code =
            .returned c ∧ a.Returned m kinds result mem' limit c :=
          h.loweredRet ha hsplit hret hcode hstep ((Nat.le_add_right _ _).trans hlimit)
        rw [Wasm.execAll_append, hexec]
        exact .inr ⟨c, rfl, hreturned⟩
      | false =>
        obtain ⟨result', rfl, hcomputed⟩ := IR.of_step_next hret hstep
        simp only at hroom hlimit
        have hfirst : Reaches engine invoke code ⟨s, locals, []⟩ (a.Arrives m kinds (before ++ [inst])
            (results.set inst.id result') mem₁ _) :=
          h.lowered ha hsplit hsim hcode hcomputed (by omega) (Nat.le_refl _) (by omega)
        rcases hfirst with hrefused | ⟨⟨s', locals', _⟩, hexec, rfl, p', hp', h', hle⟩
        · exact .inl (hrefused.append codes.flatten)
        · rw [Wasm.execAll_append, hexec]
          exact ih h' (by rw [hsplit, List.append_assoc]; rfl) hcodes hruns (by omega) (by omega)

end Activation.At

/-! ## Calls -/

/-- The frame of a function has been taken, and nothing has been executed. -/
theorem Activation.entered {a : Activation} (ha : a.Proper m kinds) {p : Places} {mem : IR.Memory}
    {s : Instance} {hp : UInt32} {words : List Val}
    (hworld : World m kinds a.bounds a.caller.toNat p mem s a.caller hp) (hslots : p.slots = [])
    (hfloor : a.bounds.floor ≤ a.base.toNat) (hbelow : a.below = mem.stack) (hplaces : a.places = p)
    (hbyte : a.byte = s.memory.byte)
    (hwords : RepresentAll m p s.memory.byte (Spared m a.bounds a.caller.toNat) a.f.params a.args
      words) :
    a.At m kinds [] .none mem p (withStack s a.base)
      (a.ctx.entered (words ++ a.ctx.frame.locals.map Val.zero) a.base) hp := by
  have hbase := ha.toNat_base
  have htypes : (words ++ a.ctx.frame.locals.map Val.zero).map Val.type =
      a.f.params.map valType ++ a.ctx.frame.locals := by
    have hzero : Val.type ∘ Val.zero = id := funext fun ty => by cases ty <;> rfl
    rw [List.map_append, hwords.types_eq, List.map_map, hzero, List.map_id]
  have hlocal : a.ctx.frame.size ≠ 0 →
      ((words ++ a.ctx.frame.locals.map Val.zero).map Val.type)[a.ctx.frame.base]? = some .i32 := by
    rw [htypes]
    exact ha.suits.frameLocal
  have hheight : p.height = mem.stack.length := by
    rw [hworld.contents.stack, hslots]
    rfl
  constructor
  case world => exact hworld.lower hfloor (by omega)
  case height => exact hbelow ▸ hheight
  case below => rw [hheight, List.take_length, hbelow]
  case slots => simp [hslots]
  case places => exact hplaces ▸ .refl p
  case spared => simp [hbyte]
  case types => exact (FunctionContext.entered_types hlocal).trans htypes
  case framed =>
    intro hsize
    have hlt := (List.getElem?_eq_some_iff.mp (hlocal hsize)).1
    rw [List.length_map] at hlt
    exact FunctionContext.entered_base hsize hlt
  case params =>
    intro i ty hty
    obtain ⟨d, v, hd, hv, hrepresents⟩ := hwords.getElem? hty
    have hlt := (List.getElem?_eq_some_iff.mp hty).1
    refine ⟨d, v, hd, ?_, hrepresents.extend ha.suits.typed (.refl p) (fun _ _ => rfl) fun _ => .inl⟩
    rw [FunctionContext.entered_of_ne (by rw [ha.suits.frame.base]; omega),
      List.getElem?_append_left (List.getElem?_eq_some_iff.mp hv).1, hv]
  case results => simp

/-- What is on the operand stack are the results of the function. -/
theorem Gives.length_eq {p : Places} {byte : Nat → UInt8} {quiet : Nat → Prop} {ty : IRType}
    {result : Option Datum} {stack : List Val} (h : Gives m p byte quiet ty result stack) :
    stack.length = (resultTypes ty).length := by
  cases h with
  | nothing => rfl
  | value hw =>
    have hvoid : ty.isVoid = false := by
      cases hw with
      | scalar hn => cases hn <;> rfl
      | struct => rfl
    rw [resultTypes, hvoid]
    rfl

/-- The calls of a lowered module do what the calls of the module mean. -/
theorem LoweredModule.simulates {layouts : Layouts} {data : DataImage} {wasm : Wasm.Module}
    (h : LoweredModule m layouts data wasm) (htyped : m.Typed kinds) (hsolid : Solid m)
    (bounds : StackBounds) (engine : Engine) (depth : Nat) :
    Simulates m kinds bounds (m.callWithin depth) (m.usageWithin depth)
      (wasm.callWithin engine depth) := by
  induction depth with
  | zero => exact fun _ _ _ _ hentry => nomatch hentry
  | succ depth ih =>
    intro id f args words mem mem' p s sp hp result limit hf hworld hslots hwords hentry hroom hlimit
      hlow below
    obtain ⟨f', after, hf', hruns, rfl⟩ := IR.of_callWithin hentry
    cases hf.symm.trans hf'
    obtain ⟨frame, codes, hwasm, hsuits, hcodes⟩ := h.function htyped hf
    simp only [IR.Module.usageWithin, hf] at hroom hlimit
    have hsize : frame.size.toNat = m.frameSize f := hsuits.frame.size
    let a : Activation :=
      ⟨⟨layouts, data, frame⟩, f, args, bounds, sp, mem.stack, p, s.memory.byte⟩
    have ha : a.Proper m kinds := ⟨hsuits, hsolid, by
      change frame.size.toNat ≤ sp.toNat
      omega⟩
    have hbase : a.base.toNat + frame.size.toNat = sp.toNat := ha.toNat_base
    have hentered := Activation.entered ha hworld hslots
      (show bounds.floor ≤ a.base.toNat by omega) rfl rfl rfl hwords
    have hsplit : a.f.insts = [] ++ f.insts := rfl
    have hinside : bounds.floor + (m.instsUsage (m.callWithin depth) (m.usageWithin depth) args .none
        mem f.insts).stack ≤ a.base.toNat := by omega
    have hbody : a.Ends m kinds result after limit
        (Wasm.execAll engine (wasm.callWithin engine depth)
          ⟨withStack s a.base, a.ctx.entered (words ++ frame.locals.map Val.zero) a.base, []⟩
          codes.flatten) := hentered.insts ha hsplit ih hcodes hruns hinside hlimit hlow
    have hlocal : frame.size ≠ 0 →
        frame.base < (words ++ frame.locals.map Val.zero).length := fun hne => by
      have hlt := (List.getElem?_eq_some_iff.mp (hsuits.frameLocal hne)).1
      have hlength := congrArg List.length hwords.types_eq
      simp only [List.length_append, List.length_map] at hlt hlength ⊢
      omega
    have hprologue : Runs engine (wasm.callWithin engine depth) a.ctx.prologue
        ⟨s, words ++ frame.locals.map Val.zero, []⟩
        ⟨withStack s a.base, a.ctx.entered (words ++ frame.locals.map Val.zero) a.base, []⟩ :=
      FunctionContext.runs_prologue (stackPointer_eq hworld.globals) hlocal
    -- The function takes its frame, does what its instructions mean, and is left.
    have hinvoke : wasm.callWithin engine (depth + 1) id (words.reverse ++ below) s =
        (Wasm.execAll engine (wasm.callWithin engine depth)
          ⟨withStack s a.base, a.ctx.entered (words ++ frame.locals.map Val.zero) a.base, []⟩
          codes.flatten).leave (resultTypes f.ret).length below := by
      simp only [Wasm.Module.callWithin, hwasm]
      rw [Wasm.Function.execute_eq hwords.types_eq, Wasm.execAll_append, hprologue]
    rw [hinvoke]
    rcases hbody with hrefused | ⟨c, hexec, p', hp', hleaves, hgives⟩
    · generalize Wasm.execAll engine _ _ codes.flatten = outcome at hrefused ⊢
      cases hrefused with
      | trap hrefused => exact .inl ⟨_, rfl, hrefused⟩
    · refine .inr ⟨c.stack, c.inst, p', hp', ?_, hleaves, hgives⟩
      have hlength := hgives.length_eq
      rw [hexec, Wasm.Outcome.leave, if_pos (Nat.le_of_eq hlength.symm),
        List.take_of_length_le (Nat.le_of_eq hlength)]

end Straightline.Lowering
