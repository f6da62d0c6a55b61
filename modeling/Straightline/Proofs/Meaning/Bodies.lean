import Straightline.Proofs.Meaning.Statements

/-!
# Functions mean what they are evaluated to

With its parameters bound to the arguments, a function executes as its definition is evaluated, whatever
the arguments, the store and the slots that are open, if only calls do (`Implements`). By induction on
the depth to which calls are nested, so do calls of all functions of a module whose functions implement
the definitions of a program.
-/

set_option autoImplicit false

namespace Straightline

open IR (Site Inst operand)
open Meaning (Activation Point Locals Calls Run Value Place Definition Program known known_bind
  Simulates)

/-! ## Parameters -/

namespace Meaning.Locals

/-- Parameters are bound to as many arguments and to no other number of them. -/
theorem enter_eq_none_iff {parameters : List (String × Ty)} {args : List Value}
    {locals : Locals} :
    locals.enter parameters args = none ↔ args.length ≠ parameters.length := by
  induction parameters generalizing args locals with
  | nil =>
    cases args with
    | nil => simp [enter]
    | cons v args => simp [enter]
  | cons parameter rest ih =>
    cases args with
    | nil => simp [enter]
    | cons v args =>
      unfold enter
      rw [ih]
      simp

end Meaning.Locals

namespace BodyContext

variable {w : Site} {scope : Scope IR.Value} {insts : List Inst} {m : IR.Module}

/-- The instructions bind `name` to the value that an operand stands for. -/
def Binds (m : IR.Module) (scope : Scope IR.Value) (insts : List Inst) (name : String) (ty : Ty)
    (value : IR.Value) (storage : Storage IR.Value) (more : List Inst) : Prop :=
  ∀ (act : Activation) (locals : Locals) (pt : Point) (v : Value),
    act.At m scope locals insts pt → operand act.params pt.results value = some v.datum →
    act.Follows pt insts more (pure ()) fun _ pt' =>
      act.Tracks (scope.declare name ty storage) (⟨name, ty, v⟩ :: locals) pt'

theorem means_parameterStorage (m : IR.Module) (scope : Scope IR.Value) (hopen : w.Open)
    (name : String) (ty : Ty) (value : IR.Value) :
    w.Emits insts (parameterStorage name ty value) (Binds m scope insts name ty value) := by
  unfold parameterStorage
  split
  · refine .bind (means_spill hopen _ _ _) fun slot more hspill => .pure ?_
    rw [List.append_nil]
    intro act locals pt v h hv
    refine (hspill act pt v h.unset hv).imp ?_
    intro _ pt' hle hslot
    exact h.tracks.declare_new hle hslot.1 hslot.2 fun name' => Locals.lookup_cons ..
  · exact .pure fun act locals pt v h hv => .pure h.unset (h.tracks.declare_direct hv)

/-- The instructions bind the parameters from number `index` on to the arguments. -/
def BindsAll (m : IR.Module) (scope : Scope IR.Value) (insts : List Inst) (index : Nat)
    (parameters : List (String × Ty)) (scope' : Scope IR.Value) (more : List Inst) : Prop :=
  ∀ (act : Activation) (locals locals' : Locals) (pt : Point) (args : List Value),
    act.At m scope locals insts pt → locals.enter parameters args = some locals' →
    (∀ i v, args[i]? = some v → act.params[index + i]? = some v.datum) →
    act.Follows pt insts more (pure ()) fun _ pt' => act.Tracks scope' locals' pt'

theorem means_bindParameters (hopen : w.Open) (index : Nat) (parameters : List (String × Ty))
    (hparams : ∀ i p, parameters[i]? = some p →
      w.function.params[index + i]? = some p.2.irType) :
    w.Emits insts (bindParameters w.id index scope parameters)
      (BindsAll m scope insts index parameters) := by
  induction parameters generalizing index scope insts with
  | nil =>
    refine .pure ?_
    intro act locals locals' pt args h henter _
    cases args with
    | nil =>
      cases henter
      exact .pure h.unset h.tracks
    | cons v args => cases henter
  | cons parameter rest ih =>
    obtain ⟨name, ty⟩ := parameter
    refine .looked (Site.param hopen (hparams 0 _ rfl)) ?_
    refine .bind (means_parameterStorage m scope hopen name ty _) ?_
    intro storage more hbinds
    have hshift : ∀ i, index + 1 + i = index + (i + 1) := fun i => by omega
    have hrest : ∀ i p, rest[i]? = some p →
        w.function.params[index + 1 + i]? = some p.2.irType :=
      fun i p hp => hshift i ▸ hparams (i + 1) p hp
    refine (ih (index + 1) hrest).imp fun scope' more' hmore act locals locals' pt args h henter
      hargs => ?_
    cases args with
    | nil => cases henter
    | cons v args =>
      refine (hbinds act locals pt v h (hargs 0 v rfl)).silent ?_
      intro pt₁ hle hunset htracks
      exact hmore act _ locals' pt₁ args ⟨h.agree, h.answer, hunset, htracks⟩ henter
        fun i v' hv' => hshift i ▸ hargs (i + 1) v' hv'

end BodyContext

/-! ## Functions -/

/-- A function does what its definition says, if calls do. -/
structure IR.Function.Implements (f : IR.Function) (m : IR.Module) (d : Definition) : Prop where
  result : f.ret = d.result.irType
  simulates : ∀ (calls : Calls) (entry : IR.Entry), calls.Agree entry → calls.Answer m →
    ∀ args s stack, Simulates (fun r s' data m' => data = r.map Value.datum ∧ m' = s'.memory stack)
      (d.evaluate calls args s) (f.execute entry (Value.data args) (s.memory stack))

namespace BodyContext

variable {w : Site}

/-- Binding the parameters and then executing a block that returns is what evaluating a definition
comes to. -/
theorem simulates_execute {m : IR.Module} {scope : Scope IR.Value} {f : IR.Function}
    {d : Definition} {more more' : List Inst} {calls : Calls} {entry : IR.Entry}
    (hinsts : f.insts = more ++ more') (hcount : f.params.length = d.parameters.length)
    (hagree : calls.Agree entry) (hanswer : calls.Answer m)
    (hbinds : BindsAll m .root [] 0 d.parameters scope more)
    (hlines : ∀ (act : Activation) (locals : Locals) (pt : Point), act.At m scope locals more pt →
      act.Returns pt more' (Meaning.evalLines d.names act.calls d.result locals d.body))
    (args : List Value) (s : Meaning.Store) (stack : List (Option IR.Datum)) :
    Simulates (fun r s' data m' => data = r.map Value.datum ∧ m' = s'.memory stack)
      (d.evaluate calls args s) (f.execute entry (Value.data args) (s.memory stack)) := by
  have hlength : (Value.data args).length = args.length := by
    rw [Value.data_eq_map, List.length_map]
  unfold Definition.evaluate IR.Function.execute
  cases henter : Locals.enter [] d.parameters args with
  | none =>
    have hne := Meaning.Locals.enter_eq_none_iff.mp henter
    rw [if_neg (by rwa [hlength, hcount])]
    exact rfl
  | some locals =>
    have heq : args.length = d.parameters.length := by
      by_contra hne
      rw [Meaning.Locals.enter_eq_none_iff.mpr hne] at henter
      cases henter
    rw [if_pos (by rw [hlength, hcount, heq]), known_bind, hinsts]
    have hstart : (⟨calls, entry, Value.data args, stack⟩ : Activation).At m .root [] []
        ⟨.none, []⟩ :=
      ⟨hagree, hanswer, IR.Results.unset_none _, by simp [Scope.root, Scope.lookup],
        fun _ _ => rfl, by simp [Activation.LivesIn, Scope.root, Scope.lookup]⟩
    have hargs : ∀ i v, args[i]? = some v → (Value.data args)[0 + i]? = some v.datum := by
      intro i v hv
      rw [Value.data_eq_map, List.getElem?_map, Nat.zero_add, hv]
      rfl
    -- The binding of the parameters ends in a point that the block can start from.
    have hbody := (hbinds _ [] locals _ args hstart henter hargs).returns
      fun _ pt _ hunset htracks => hlines _ locals pt ⟨hagree, hanswer, hunset, htracks⟩
    have hs := hbody s
    have hmemory : Activation.memory ⟨calls, entry, Value.data args, stack⟩ [] s
        = s.memory stack := congrArg s.memory (List.append_nil stack)
    rw [hmemory] at hs
    -- The frame of the function is given up, and the slots of its callers are left.
    have hwhole := hs.bind (k := pure) (l := IR.Progress.leave stack.length)
      (S := fun r s' data m' => data = r.map Value.datum ∧ m' = s'.memory stack) ?_
    · rw [bind_pure] at hwhole
      exact hwhole
    · intro r s' _ _ h
      rcases h with ⟨rfl, frame', rfl⟩
      refine ⟨rfl, ?_⟩
      simp [Activation.memory, Meaning.Store.memory]

/-- A body that is accepted implements the block that was read. -/
theorem means_emitOpened {declarations : Declarations} {source : List UInt8} {body : PendingBody}
    (hopen : w.Open) (hid : w.id = body.function)
    (hdeclarations : declarations.Sound w.base.module)
    (hparams : w.function.params = body.parameters.map fun p => p.2.irType)
    (hret : w.function.ret = body.result.irType)
    (hstorable : ∀ p ∈ body.parameters, p.2.StorableIn declarations.types) :
    w.Emits [] (emitOpened declarations source body) fun _ more =>
      ∃ lines close c, Scan.block (.seek source body.resume) = .ok (.mk lines close) c ∧
        (w.withBody more).Implements w.base.module
          ⟨body.function, declarations, body.parameters, body.result, lines⟩ := by
  have hctx : Fits ⟨declarations, body.name, body.result⟩ w := ⟨hopen, hdeclarations, hret⟩
  have hplaces : ∀ i p, body.parameters[i]? = some p →
      w.function.params[0 + i]? = some p.2.irType := by
    intro i p hp
    rw [hparams, Nat.zero_add, List.getElem?_map, hp]
    rfl
  unfold emitOpened
  rw [← hid]
  refine .bind ((means_bindParameters (m := w.base.module) hopen 0 body.parameters hplaces).and
    (typed_bindParameters hopen 0 body.parameters hplaces hstorable .root) hopen)
    ?_
  intro scope more hscope
  unfold emitBlockAt
  split
  · rename_i block c hblock
    obtain ⟨lines, close⟩ := block
    refine (means_emitLines hctx hscope.2.1.push close lines).imp ?_
    intro _ more' hlines
    refine ⟨lines, close, c, hblock, hret, fun calls entry hagree hanswer args s stack => ?_⟩
    have hinsts : (w.withBody (more ++ more')).insts = more ++ more' := by
      simp [Site.withBody, IR.Function.insts]
    refine simulates_execute hinsts ?_ hagree hanswer hscope.1
      (fun act locals pt h => ?_) args s stack
    · simp [Site.withBody, hparams]
    · exact hlines act locals pt ⟨h.agree, h.answer, h.unset, h.tracks.bound, h.tracks.free, h.tracks.apart⟩
  · exact .refuse

end BodyContext

/-! ## Results -/

namespace Meaning

section Answers

variable {names : Declarations} {calls : Calls} {result : Ty} {locals : Locals}

theorem answers_evalReturn (value : Option Expression) :
    Ensures (evalReturn names calls result locals value) fun _ r _ => r.isSome = !result.isVoid := by
  intro st r st' h
  unfold evalReturn at h
  cases hvoid : result.isVoid with
  | true =>
    rw [hvoid] at h
    cases h
    rfl
  | false =>
    rw [hvoid] at h
    cases value with
    | none => cases h
    | some value =>
      obtain ⟨v, st₁, _, h⟩ := bind_ok h
      cases h
      rfl

/-- A statement returns a value exactly where the function has a result. -/
theorem answers_evalStatement (s : Statement) :
    Ensures (evalStatement names calls result locals s) fun _ flow _ =>
      ∀ r, flow = .returned r → r.isSome = !result.isVoid := by
  intro st flow st' h
  cases s with
  | ret value start =>
    obtain ⟨r, st₁, hr, h⟩ := bind_ok h
    cases h
    rintro _ ⟨⟩
    exact answers_evalReturn value _ _ _ hr
  | cond => cases h
  | call | methodCall | assignField | assign =>
    obtain ⟨_, st₁, _, h⟩ := bind_ok h
    cases h
    rintro _ ⟨⟩
  | declare name typeName stop value =>
    simp only [evalStatement] at h
    cases hresolve : Ty.resolve names.types typeName with
    | ok ty =>
      rw [hresolve] at h
      obtain ⟨_, st₁, _, h⟩ := bind_ok h
      cases h
      rintro _ ⟨⟩
    | error fault =>
      rw [hresolve] at h
      cases h

theorem answers_evalLines (lines : List Line) :
    Ensures (evalLines names calls result locals lines) fun _ r _ =>
      r.isSome = !result.isVoid := by
  induction lines generalizing locals with
  | nil => exact Ensures.throw _
  | cons line rest ih =>
    obtain ⟨start, statement⟩ := line
    intro st r st' h
    obtain ⟨flow, st₁, hflow, h⟩ := bind_ok h
    cases flow with
    | next locals' => exact ih _ _ _ h
    | returned value =>
      cases h
      exact answers_evalStatement statement _ _ _ hflow r rfl

end Answers

/-! ## Modules -/

/-- Every function of the module does what the program says of it, and there are no others. -/
structure Program.RealizedBy (program : Program) (m : IR.Module) : Prop where
  functions : ∀ id f, m.function? id = some f →
    ∃ d, program.find? id = some d ∧ f.Implements m d
  others : ∀ id, m.function? id = none → program.find? id = none

/-- Calls do the same on both sides, however deep they are nested. -/
theorem Program.RealizedBy.calls {program : Program} {m : IR.Module} (h : program.RealizedBy m)
    (depth : Nat) :
    (program.callWithin depth).Agree (m.callWithin depth) ∧
      (program.callWithin depth).Answer m := by
  induction depth with
  | zero => exact ⟨fun id args s stack => rfl, fun id f hf hvalued args => Ensures.throw _⟩
  | succ depth ih =>
    constructor
    · intro id args s stack
      simp only [callWithin, IR.Module.callWithin]
      cases hf : m.function? id with
      | none =>
        rw [h.others id hf]
        exact rfl
      | some f =>
        obtain ⟨d, hd, himplements⟩ := h.functions id f hf
        rw [hd]
        exact himplements.simulates _ _ ih.1 ih.2 args s stack
    · intro id f hf hvalued args s r s' hr
      obtain ⟨d, hd, himplements⟩ := h.functions id f hf
      simp only [callWithin, hd, known_bind] at hr
      obtain ⟨locals, s₁, _, hr⟩ := bind_ok hr
      rw [answers_evalLines d.body _ _ _ hr, ← BodyContext.isVoid_irType, ← himplements.result, hvalued]
      rfl

end Meaning

end Straightline
