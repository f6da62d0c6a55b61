import Straightline.Proofs.Lowering.Instructions

/-!
# Calls

What is asked of the calls of an instance (`Simulates`): from a world they go on to the world that the
meaning of the call leaves, with its result on the operand stack, unless memory is refused. They leave what
is spared as it was, and the slots of the callers among it. If the calls that a function makes are so, the
code of a call does what the call means.
-/

set_option autoImplicit false

namespace Straightline.Lowering

open IR (Datum Demand Entry Held Inst Kept Kinds Op Results Value operand)
open Wasm (Config Engine Instance Instr Invoke Reaches Runs Val)

/-- What is on the operand stack when a function has returned. -/
inductive Gives (m : IR.Module) (p : Places) (byte : Nat → UInt8) (quiet : Nat → Prop) :
    IRType → Option Datum → List Val → Prop where
  | nothing : Gives m p byte quiet .void none []
  | value {ty : IRType} {d : Datum} {w : Val} : Represents m p byte quiet ty d w →
      Gives m p byte quiet ty (some d) [w]

/-- A call that began with places `p`, slots `stack` and bytes `byte` has left this world. -/
structure Leaves (m : IR.Module) (kinds : Kinds) (bounds : StackBounds) (sp : UInt32) (p : Places)
    (stack : List (Option Datum)) (byte : Nat → UInt8) (limit : Nat) (p' : Places) (mem' : IR.Memory)
    (s' : Instance) (hp' : UInt32) : Prop where
  world : World m kinds bounds sp.toNat p' mem' s' sp hp'
  slots : p'.slots = []
  before : p.Before p'
  stack : mem'.stack = stack
  spared : ∀ x, Spared m bounds sp.toNat x → s'.memory.byte x = byte x
  heap : hp'.toNat ≤ limit

/-- The calls of an instance do what the calls of the module mean, unless memory is refused. -/
def Simulates (m : IR.Module) (kinds : Kinds) (bounds : StackBounds) (entry : Entry) (demand : Demand)
    (invoke : Invoke) : Prop :=
  ∀ {id : Nat} {f : IR.Function} {args : List Datum} {words : List Val} {mem mem' : IR.Memory}
    {p : Places} {s : Instance} {sp hp : UInt32} {result : Option Datum} {limit : Nat},
    m.function? id = some f → World m kinds bounds sp.toNat p mem s sp hp → p.slots = [] →
    RepresentAll m p s.memory.byte (Spared m bounds sp.toNat) f.params args words →
    entry id args mem = .ok result mem' → bounds.floor + (demand id args mem).stack ≤ sp.toNat →
    hp.toNat + (demand id args mem).heap ≤ limit → limit < UInt32.size →
    ∀ below : List Val,
    (∃ s', invoke id (words.reverse ++ below) s = .error .unreachable s' ∧ s'.refused = true) ∨
    ∃ out s' p' hp', invoke id (words.reverse ++ below) s = .ok (out ++ below) s' ∧
      Leaves m kinds bounds sp p mem.stack s.memory.byte limit p' mem' s' hp' ∧
      Gives m p' s'.memory.byte (· < bounds.top) f.ret result out

theorem RepresentAll.imp {m : IR.Module} {p p' : Places} {byte : Nat → UInt8}
    {quiet quiet' : Nat → Prop} {tys : List IRType} {ds : List Datum} {vs : List Val}
    (h : RepresentAll m p byte quiet tys ds vs)
    (himp : ∀ {ty d v}, ty ∈ tys → Represents m p byte quiet ty d v →
      Represents m p' byte quiet' ty d v) : RepresentAll m p' byte quiet' tys ds vs := by
  induction h with
  | nil => exact .nil
  | cons hv _ ih =>
    exact .cons (himp List.mem_cons_self hv) (ih fun hty => himp (List.mem_cons_of_mem _ hty))

namespace Activation.At

variable {a : Activation} {m : IR.Module} {kinds : Kinds} {before rest : List Inst} {inst : Inst}
variable {results : Results} {mem mem' : IR.Memory} {p p' : Places} {s s' : Instance}
variable {locals : List Val} {hp hp' : UInt32} {engine : Engine} {invoke : Invoke} {entry : Entry}
variable {demand : Demand} {d : Datum} {w : Val} {place : Nat} {limit : Nat} {ty : IRType}

/-- A value in hand is one where the slots are not seen. -/
theorem represents_above (ha : a.Proper m kinds) (h : a.At m kinds before results mem p s locals hp)
    (hheld : Held kinds ty) {quiet : Nat → Prop} (hquiet : ∀ x, a.Quiet m before x → quiet x)
    (height : Nat) (hw : Represents m p s.memory.byte (a.Quiet m before) ty d w) :
    Represents m (p.above height) s.memory.byte quiet ty d w := by
  have hbefore := World.before_above p height
  refine hw.mono ha.suits.typed hbefore (fun b ty' target hty hresolves => ?_) (fun _ _ => rfl) hquiet
  subst hty
  exact ((h.world.laid.lasting ha.suits.typed hheld hresolves).mono hbefore).resolves

/-- Arguments are pushed and the call is made. -/
theorem reaches_call (ha : a.Proper m kinds) (h : a.At m kinds before results mem p s locals hp)
    (hsplit : a.f.insts = before ++ inst :: rest)
    (hsim : Simulates m kinds a.bounds entry demand invoke) {callee : IR.FunctionId}
    {target : IR.Function} {args : List Value} {data : List Datum} {result : Option Datum}
    {codes : List (List Instr)} (hoperands : ∀ v ∈ args, v ∈ inst.op.operands)
    (htarget : m.function? callee = some target)
    (hargs : ∀ arg ∈ args, arg.Scoped m a.f.params before)
    (htypes : args.map Value.ty = target.params) (hcodes : args.mapM a.ctx.pushValue = .ok codes)
    (hdata : args.mapM (operand a.args results) = some data)
    (hentry : entry callee data mem = .ok result mem')
    (hroom : a.bounds.floor + (demand callee data mem).stack ≤ a.base.toNat)
    (hlimit : hp.toNat + (demand callee data mem).heap ≤ limit) (hlow : limit < UInt32.size) :
    Reaches engine invoke (codes.flatten ++ [.call callee]) ⟨s, locals, []⟩ fun c =>
      c.locals = locals ∧ ∃ p' hp',
        Leaves m kinds a.bounds a.base (p.above mem.stack.length) mem.stack s.memory.byte limit p' mem'
          c.inst hp' ∧
        Gives m p' c.inst.memory.byte (· < a.bounds.top) target.ret result c.stack := by
  have hmem : inst ∈ a.f.insts := hsplit ▸ by simp
  obtain ⟨words, hwords, hruns⟩ := h.pushes ha
    (fun v hv => ha.suits.mem_operands hmem (hoperands v hv)) hargs hcodes hdata
  have hparams := (ha.suits.typed.functions target (List.mem_of_getElem? htarget)).params
  rw [htypes] at hwords
  have hcall := hsim htarget (h.world.enter ha.suits.typed) rfl
    (hwords.imp fun hty hw => h.represents_above ha (hparams _ hty)
      (fun x hx => h.spared_of_quiet ha hsplit hx) _ hw) hentry hroom hlimit hlow []
  refine .after (hruns engine invoke []) ?_
  rcases hcall with ⟨s', hcall, hrefused⟩ | ⟨out, s', p', hp', hcall, hleaves, hgives⟩
  · refine .inl ?_
    simp only [Wasm.execAll, Wasm.exec, Config.call, hcall]
    exact .trap hrefused
  · refine .inr ⟨⟨s', locals, out⟩, .one ?_, rfl, p', hp', hleaves, hgives⟩
    rw [List.append_nil out] at hcall
    simp only [Wasm.exec, Config.call, hcall]

/-- After a call the world of the caller goes on. -/
theorem resume (ha : a.Proper m kinds) (h : a.At m kinds before results mem p s locals hp)
    (hleaves : Leaves m kinds a.bounds a.base (p.above mem.stack.length) mem.stack s.memory.byte limit p'
      mem' s' hp') :
    World m kinds a.bounds a.caller.toNat { p with heap := p'.heap } mem' s' a.base hp' ∧
      p.Extends { p with heap := p'.heap } ∧ p'.Before { p with heap := p'.heap } := by
  have hbefore := (World.before_above p _).trans hleaves.before
  exact ⟨h.world.resume ha.suits.typed hleaves.world hleaves.stack hleaves.spared hbefore,
    ⟨⟨rfl, hbefore.heap⟩, rfl, List.prefix_refl _⟩, ⟨hbefore.globals.symm, List.prefix_refl _⟩⟩

/-- A call whose result is no structure, or that has none. -/
theorem call (ha : a.Proper m kinds) (h : a.At m kinds before results mem p s locals hp)
    (hsplit : a.f.insts = before ++ inst :: rest) {result : Option Datum} {locals' : List Val}
    (hleaves : Leaves m kinds a.bounds a.base (p.above mem.stack.length) mem.stack s.memory.byte limit p'
      mem' s' hp')
    (hgains : Gains a m before inst results { p with heap := p'.heap } s'.memory.byte locals result
      locals') :
    a.Arrives m kinds (before ++ [inst]) (results.set inst.id result) mem' limit
      ⟨s', locals', []⟩ := by
  obtain ⟨hworld, hextends, _⟩ := h.resume ha hleaves
  refine ⟨rfl, { p with heap := p'.heap }, hp', ?_, hleaves.heap⟩
  exact h.next ha hsplit hworld hextends (by rw [hleaves.stack]) (fun _ => .inl)
    (fun x hx => hleaves.spared x (h.spared_of_quiet ha hsplit hx)) hgains

theorem callVoid (ha : a.Proper m kinds) (h : a.At m kinds before results mem p s locals hp)
    (hsplit : a.f.insts = before ++ inst :: rest) {result : Option Datum} {c : Config}
    (hvoid : inst.ty = .void) (hlocals : c.locals = locals)
    (hleaves : Leaves m kinds a.bounds a.base (p.above mem.stack.length) mem.stack s.memory.byte limit p'
      mem' c.inst hp')
    (hgives : Gives m p' c.inst.memory.byte (· < a.bounds.top) inst.ty result c.stack) :
    a.Arrives m kinds (before ++ [inst]) (results.set inst.id result) mem' limit c := by
  obtain ⟨s', locals', stack⟩ := c
  obtain rfl : locals' = locals := hlocals
  rw [hvoid] at hgives
  cases hgives with
  | nothing => exact h.call ha hsplit hleaves (.nothing hvoid)
  | value hw =>
    cases hw with
    | scalar hn => cases hn

theorem callScalar (ha : a.Proper m kinds) (h : a.At m kinds before results mem p s locals hp)
    (hsplit : a.f.insts = before ++ inst :: rest) {result : Option Datum} {c : Config}
    (hheld : Held kinds inst.ty) (hstruct : inst.ty.isStruct = false)
    (hplace : a.ctx.frame.result? inst.id = some place) (hlocals : c.locals = locals)
    (hleaves : Leaves m kinds a.bounds a.base (p.above mem.stack.length) mem.stack s.memory.byte limit p'
      mem' c.inst hp')
    (hgives : Gives m p' c.inst.memory.byte (· < a.bounds.top) inst.ty result c.stack) :
    Reaches engine invoke [.localSet place] c
      (a.Arrives m kinds (before ++ [inst]) (results.set inst.id result) mem' limit) := by
  obtain ⟨s', locals', stack⟩ := c
  obtain rfl : locals' = locals := hlocals
  obtain ⟨_, _, hback⟩ := h.resume ha hleaves
  generalize hty : inst.ty = ty at hgives
  cases hgives with
  | nothing => exact absurd hty hheld.ne_void
  | @value _ d w hw =>
    subst hty
    obtain ⟨n, hn, rfl⟩ := hw.scalar_inv hstruct
    have hlasting := hleaves.world.laid.numbered ha.suits.typed (.held hheld) hn
    refine .of_runs (.localSet (h.place_bounds ha hplace).2) (h.call ha hsplit hleaves ?_)
    exact .value hheld.ne_void hplace
      (.scalar (hlasting.imp fun _ _ _ _ hl => (hl.mono hback).resolves))

theorem callStruct (ha : a.Proper m kinds) (h : a.At m kinds before results mem p s locals hp)
    (hsplit : a.f.insts = before ++ inst :: rest)
    (hop : Op.Typed m kinds a.f before inst.ty inst.op) {result : Option Datum} {c : Config}
    (hstruct : inst.ty.isStruct = true) (hstored : storedType? inst = some inst.ty)
    {slot : UInt32} (hslot : a.ctx.frame.slot? inst.id = some slot) {e : Extent}
    (he : a.ctx.layouts.extent inst.ty = .ok e)
    (hplace : a.ctx.frame.result? inst.id = some place) (hlocals : c.locals = locals)
    (hleaves : Leaves m kinds a.bounds a.base (p.above mem.stack.length) mem.stack s.memory.byte limit p'
      mem' c.inst hp')
    (hgives : Gives m p' c.inst.memory.byte (· < a.bounds.top) inst.ty result c.stack) :
    Reaches engine invoke ([.localSet place] ++ a.ctx.frameAddress slot ++ [.localGet place]
        ++ [.i32Const e.size, .memoryCopy] ++ a.ctx.frameAddress slot ++ [.localSet place]) c
      (a.Arrives m kinds (before ++ [inst]) (results.set inst.id result) mem' limit) := by
  obtain ⟨s', locals', stack⟩ := c
  obtain rfl : locals' = locals := hlocals
  have hmem : inst ∈ a.f.insts := hsplit ▸ by simp
  have hframed := ha.suits.framed ha.solid hmem hop hstored
  have hsized := Sized.of_stored ha.suits.typed hop hstored
  obtain ⟨e', he', his⟩ := ha.suits.layouts.extent hsized
  cases he.symm.trans he'
  have hwidth : e.size.toNat = m.sizeOf inst.ty := his.size
  obtain ⟨hworld, hextends, hback⟩ := h.resume ha hleaves
  obtain ⟨hplaceLow, hplaceHigh⟩ := h.place_bounds ha hplace
  generalize hty : inst.ty = ty at hgives
  cases hgives with
  | nothing =>
    rw [hty] at hstruct
    cases hstruct
  | @value _ d w hw =>
    subst hty
    obtain ⟨source, rfl, hsource, hquiet⟩ := hw.struct_inv hstruct
    -- The copy stays in memory: what the callee gives is quiet, so it ends below the top, and the slot lies
    -- in the frame.
    have hpositive := hsized.size_ne_zero ha.solid
    have hlast := hquiet (source.toNat + m.sizeOf inst.ty - 1) (by omega) (by omega)
    have hheap := hworld.laid.heap
    have hroom := hworld.room
    obtain ⟨_, hslotHigh⟩ := ha.slot_bound hmem (ha.slot hmem hstored hslot)
    have hstack := hworld.laid.stack
    simp only at hslotHigh hroom
    obtain ⟨s'', hwrote, hcopied, hruns⟩ := runs_copy (s := s') e.size source (a.base + slot)
      (by omega) (by omega)
    rw [hwidth] at hwrote hcopied
    have hbase : (locals'.set place (.i32 source))[a.ctx.frame.base]? = some (.i32 a.base) := by
      rw [List.getElem?_set_ne, h.framed hframed]
      rw [Frame.baseLocals, if_neg hframed, List.length_singleton] at hplaceLow
      rw [ha.suits.frame.base]
      omega
    have hget : (locals'.set place (.i32 source))[place]? = some (.i32 source) :=
      List.getElem?_set_self hplaceHigh
    have hset : place < (locals'.set place (.i32 source)).length := by rwa [List.length_set]
    have hcode : Runs engine invoke ([.localSet place] ++ a.ctx.frameAddress slot ++ [.localGet place]
        ++ [.i32Const e.size, .memoryCopy] ++ a.ctx.frameAddress slot ++ [.localSet place])
        ⟨s', locals', [.i32 source]⟩
        ⟨s'', (locals'.set place (.i32 source)).set place (.i32 (a.base + slot)), []⟩ :=
      ((((((Runs.localSet hplaceHigh).append (runs_frameAddress hbase slot)).append
        (.localGet hget)).append (hruns engine invoke _ [])).append
        (runs_frameAddress hbase slot)).append (.localSet hset))
    rw [List.set_set] at hcode
    refine .of_runs hcode ⟨rfl, { p with heap := p'.heap }, hp', ?_, hleaves.heap⟩
    exact h.putStruct ha hsplit hstruct hstored hworld hextends rfl (by rw [hleaves.stack])
      (fun x hx => hleaves.spared x (h.spared_of_quiet ha hsplit hx)) hslot hplace hwrote
      (hsource.copy ha.suits.typed hback hcopied)

end Activation.At

end Straightline.Lowering
