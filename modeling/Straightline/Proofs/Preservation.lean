import Straightline.Proofs.Safety.Contents
import Straightline.Proofs.Safety.Programs

/-!
# The module means what its sources mean

Whatever units a project was given, its module realizes the program of those that it accepted: calls do
the same on both sides. And they do something: on arguments and contents of their types, which are those
that a program starts with, no call is ever stuck. Everything that is known of tables, module and program
together (`Meaning.Program.Describes`) is preserved by every declaration and by every body that is
compiled.
-/

set_option autoImplicit false

namespace Straightline

open Meaning (Answers Definition Program Shape Store Value Yields)

/-! ## Bodies one after the other -/

/-- The program says what the module does, and is not stuck; the functions that it says nothing of await
their bodies. -/
structure Meaning.Program.Describes (program : Program) (d : Declarations) (b : IR.Builder)
    (bodies : List PendingBody) : Prop where
  sound : d.Awaits b bodies
  realizes : program.Awaits b.module bodies
  covers : program.Covers d bodies
  filled : d.Filled b.module

/-- Nothing is said of where bodies resume. -/
theorem Meaning.Program.Describes.of_settled {program : Program} {d d' : Declarations} {b : IR.Builder}
    {bodies : List PendingBody} (h : program.Describes d b bodies) (hsettled : d'.settled = d.settled) :
    program.Describes d' b bodies where
  sound := h.sound.of_settled hsettled
  realizes := h.realizes
  covers := h.covers.of_settled hsettled
  filled := by
    unfold Declarations.Filled
    rw [Declarations.globals_of_settled hsettled]
    exact h.filled

namespace BodyContext

variable {d : Declarations} {source : List UInt8} {program : Program}

/-- A body that is accepted can be read, and is described by what it defines. -/
theorem emitPending_describes {body : PendingBody} {rest : List PendingBody} {s s' : Emission}
    (h : program.Describes d s.builder (body :: rest))
    (hs : emitPending d source body s = .ok () s') :
    ∃ definition, body.definition? d source = some definition ∧
      Program.Describes (program ++ [definition]) d s'.builder rest := by
  obtain ⟨hsound, hrealizes, hcovers, hfilled⟩ := h
  have hsound' := emitPending_awaits hsound hs
  obtain ⟨w, hbase, hopen, hid, hparams, hret, hemits⟩ := emitPending_ok hsound hs
  rw [← hbase] at hsound hrealizes hfilled
  have hstorable := (hsound.ready body List.mem_cons_self).parameters
  obtain ⟨more, hbuilder, lines, close, c, hblock, himplements⟩ := hemits _ (means_emitOpened hopen
    hid hsound.declarations hparams hret hstorable)
  have hsafe := safe_emitOpened hsound.declarations hstorable _ _ _ hs lines close c hblock
  have hdistinct := hsound.distinct
  rw [List.map_cons, List.nodup_cons] at hdistinct
  refine ⟨⟨body.function, d, body.parameters, body.result, lines⟩, ?_, hsound', ?_, ?_, ?_⟩
  · unfold PendingBody.definition?
    rw [hblock]
  · rw [hbuilder]
    refine hrealizes.complete hopen hid rfl (fun other hother he => ?_) himplements
    exact hdistinct.1 (he ▸ List.mem_map_of_mem hother)
  · exact hcovers.complete hrealizes hsafe rfl rfl rfl rfl
  · rw [hbuilder]
    exact hfilled

theorem emitPendings_describes {bodies : List PendingBody} {s s' : Emission}
    (h : program.Describes d s.builder bodies)
    (hs : bodies.forM (emitPending d source) s = .ok () s') :
    Program.Describes (program ++ bodies.filterMap (PendingBody.definition? d source)) d
      s'.builder [] := by
  induction bodies generalizing s program with
  | nil =>
    cases hs
    rw [List.filterMap_nil, List.append_nil]
    exact h
  | cons body rest ih =>
    obtain ⟨_, s₁, hbody, hrest⟩ := bind_ok hs
    obtain ⟨definition, hdefinition, hdescribes⟩ := emitPending_describes h hbody
    rw [List.filterMap_cons_some hdefinition, List.append_cons]
    exact ih hdescribes hrest

end BodyContext

/-! ## Projects -/

namespace Project

variable {p q : Project} {program : Program}

/-- The program describes the project, and nothing is awaited. -/
def DescribedBy (p : Project) (program : Program) : Prop :=
  program.Describes p.declarations p.builder []

theorem describedBy_start (name : String) : (start name).DescribedBy [] where
  sound := sound_start name
  realizes := ⟨by simp [start, IR.Builder.start, IR.Module.function?], by simp, by simp⟩
  covers := ⟨by simp [start, SymbolTable.empty], by simp [start, SymbolTable.empty], by simp,
    by simp⟩
  filled := by simp [Declarations.Filled, start, SymbolTable.empty]

theorem DescribedBy.of_sameTables (h : p.DescribedBy program) (hsame : p.SameTables q) :
    q.DescribedBy program where
  sound := Sound.of_sameTables h.sound hsame
  realizes := hsame.module ▸ h.realizes
  covers := hsame.declarations ▸ h.covers
  filled := hsame.declarations ▸ hsame.module ▸ h.filled

/-- A unit that is accepted adds what it defines. -/
theorem DescribedBy.takeUnit {unit : SourceUnit} (h : p.DescribedBy program)
    (hok : (p.takeUnit unit).result = .ok ()) :
    (p.takeUnit unit).project.DescribedBy (program ++ p.definitions unit) := by
  obtain ⟨s, made, hdeclare, hloop, hproject⟩ := takeUnit_ok hok
  rw [hproject]
  unfold definitions
  rw [hdeclare]
  obtain ⟨log, hsteps, _⟩ := Declare.declareAll_steps (p.listed_opening unit) hdeclare
  have hstart : program.Describes p.declarations p.builder (p.opening unit).bodies := h
  have hdescribes := BodyContext.emitPendings_describes (hsteps.invariant
    (P := fun s => program.Describes s.declarations s.builder s.bodies)
    (fun ha hstep => ⟨Declaring.Sound.step ha.sound hstep, ha.realizes.step hstep,
      ha.covers.step hstep, Declaring.filled_step ha.sound ha.filled hstep⟩)
    (fun ha _ => ⟨ha.sound, ha.realizes, ha.covers, ha.filled⟩) hstart) hloop
  exact hdescribes.of_settled (s.declarations.settled_withoutResumes s.pending.names)

/-- The units that were accepted describe the project; those that were refused left nothing. -/
theorem DescribedBy.run (units : List SourceUnit) (h : p.DescribedBy program) :
    (p.run units).DescribedBy (program ++ p.program units) := by
  induction units generalizing p program with
  | nil =>
    rw [Project.program, List.append_nil]
    exact h
  | cons unit rest ih =>
    unfold Project.program Project.run
    cases hresult : (p.takeUnit unit).result with
    | ok _ =>
      have hunit := h.takeUnit hresult
      rw [compileUnit_of_ok hresult, hresult]
      dsimp only
      rw [← List.append_assoc]
      exact ih hunit
    | error refusal =>
      have htables := compileUnit_tables p unit
      rw [(compileUnit_of_error hresult).1] at htables ⊢
      exact ih (h.of_sameTables htables)

/-- The front end preserves meaning. Whatever units a project was given, the module has exactly the
functions that the accepted ones define, and calling one of them, with calls nested to any depth, on any
arguments and any contents of the globals and the models, and below any slots, executes as the sources
are evaluated: it gives the representation of the same result and leaves the representation of the same
globals and models, with the slots as they were; or it comes to no result for the same reason. On
arguments and contents of their types the only such reason is the depth of calls, and results and
contents are again of their types; the constants of the module are contents of their types. -/
theorem module_preserves_meaning (name : String) (units : List SourceUnit) :
    (∀ id, (((start name).program units).find? id).isSome
      = (((start name).run units).builder.module.function? id).isSome) ∧
    (∀ (depth : Nat) (id : IR.FunctionId) (args : List Value) (s : Store)
      (stack : List (Option IR.Datum)),
      match ((start name).program units).callWithin depth id args s,
        ((start name).run units).builder.module.callWithin depth id (Value.data args)
          (s.memory stack) with
      | .ok result s', .ok data m => data = result.map Value.datum ∧ m = s'.memory stack
      | .error stop _, .error stop' _ => stop = stop'
      | _, _ => False) ∧
    (∀ (depth : Nat) (id : IR.FunctionId) (d : Definition) (σ : Shape) (args : List Value),
      ((start name).program units).find? id = some d →
      σ.Knows ((start name).run units).declarations →
      Value.HaveTypes σ args (d.parameters.map Prod.snd) →
      Yields σ (((start name).program units).callWithin depth id args) fun σ' result =>
        Answers σ' d.result result) ∧
    ((start name).run units).builder.module.contents.Typed
      ((start name).run units).declarations.shape := by
  have h := (describedBy_start name).run units
  rw [List.nil_append] at h
  have hrealized := h.realizes.realized
  refine ⟨fun id => ?_, fun depth id args s stack => ?_, fun depth id d σ args hd hknows hargs => ?_,
    h.filled.typed⟩
  · cases hf : ((start name).run units).builder.module.function? id with
    | none => rw [hrealized.others id hf]; rfl
    | some f =>
      obtain ⟨d, hd, _⟩ := hrealized.functions id f hf
      rw [hd]
      rfl
  · have hcall := (hrealized.calls depth).1 id args s stack
    revert hcall
    generalize ((start name).program units).callWithin depth id args s = source
    generalize ((start name).run units).builder.module.callWithin depth id (Value.data args)
      (s.memory stack) = machine
    intro hcall
    cases source <;> cases machine <;> exact hcall
  · exact h.covers.take depth hknows hd σ args (.refl σ) hargs

/-- A model, a global that is one, and a function that adds to a model that it is given. -/
def adding : SourceUnit where
  name := "adding"
  bytes := ("Box: model = (n: Int8)\nbox: Box = Box(127)\nadd: (b: Box, n: Int8) -> Int8 = " ++
    "\x7b\n  b.n = b.n + n\n  return b.n\n\x7d\n").toList.map Char.toUInt8

/-- Given the global, the function of the module changes what the global holds, wrapped around, and
returns that; and so it would with any other model and number. -/
theorem module_preserves_meaning_adding :
    ((start "m").run [adding]).builder.module.callWithin 1 0 [.ptr ⟨.global 0, []⟩, .int 3]
        ((start "m").run [adding]).builder.module.memory
      = .ok (some (.int (-126))) ⟨[some (.struct [.int (-126)])], [], []⟩ ∧
    ∀ (depth : Nat) (σ : Shape) (v : Value) (n : Int),
      σ.Knows ((start "m").run [adding]).declarations →
      v.HasType σ (.aggregate "Box" .model [("n", .primitive .int8)]) → Primitive.int8.Holds n →
      Yields σ (((start "m").program [adding]).callWithin depth 0 [v, .int n]) fun σ' result =>
        Answers σ' (.primitive .int8) result := by
  obtain ⟨_, hruns, htyped, _⟩ := module_preserves_meaning "m" [adding]
  constructor
  · have hsource : ∃ result s, ((start "m").program [adding]).callWithin 1 0 [.model (.global 0), .int 3]
        ((start "m").run [adding]).builder.module.contents = .ok result s ∧
          result = some (.int (-126)) ∧ s = ⟨[.struct [.int (-126)]], []⟩ := by decide +kernel
    obtain ⟨_, _, hsource, rfl, rfl⟩ := hsource
    rw [← IR.Module.memory_contents]
    revert hsource
    -- The depth is hidden, so that no call is unfolded where the outcomes are compared.
    generalize 1 = depth
    intro hsource
    have hrun := hruns depth 0 [.model (.global 0), .int 3]
      ((start "m").run [adding]).builder.module.contents []
    rw [hsource] at hrun
    split at hrun
    · rename_i result s' data m hresult hmachine
      cases hresult
      obtain ⟨rfl, rfl⟩ := hrun
      exact hmachine
    · rename_i hresult _
      cases hresult
    · exact hrun.elim
  · have hd : (((start "m").program [adding]).find? 0).map
        (fun d => (d.parameters.map Prod.snd, d.result))
          = some ([.aggregate "Box" .model [("n", .primitive .int8)], .primitive .int8],
              .primitive .int8) := by decide +kernel
    obtain ⟨d, hd, htypes⟩ := Option.map_eq_some_iff.mp hd
    intro depth σ v n hknows hv hn
    obtain ⟨hparameters, hresult⟩ := Prod.mk.inj htypes
    have hargs : Value.HaveTypes σ [v, .int n] (d.parameters.map Prod.snd) := by
      rw [hparameters]
      exact .cons hv (.cons (.int hn) .nil)
    rw [← hresult]
    exact htyped depth 0 d σ _ hd hknows hargs

end Project

end Straightline
