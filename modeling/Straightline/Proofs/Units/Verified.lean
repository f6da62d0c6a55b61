import Straightline.Project.Artifact
import Straightline.Proofs.Emission.TypedBody
import Straightline.Proofs.Units.AllOrNothing

/-!
# What is accepted passes the check

Whatever units a project was given, its module passes. Between units nothing is awaited: the tables
agree with the module, no defect was met and every function is finished (`Project.Sound`). A unit that
is accepted first adds functions that await their bodies and then gives each its own; one that is
refused changes no table.
-/

set_option autoImplicit false

namespace Straightline

open IR (Site Inst)

/-! ## Bodies one after the other -/

namespace Declarations

variable {d : Declarations} {b : IR.Builder}

/-- The tables ask for nothing that a body changes. -/
theorem Sound.of_offers {m m' : IR.Module} (h : d.Sound m) (hoffers : m.Offers m')
    (hstructs : m'.structs = m.structs) (hglobals : m'.globals = m.globals) : d.Sound m' where
  types := h.types
  laid := hstructs.trans h.laid
  globals := h.globals
  placed := (congrArg List.length hglobals).trans h.placed
  functions := fun entry hentry => (h.functions entry hentry).mono List.prefix_rfl hoffers
  methods := fun entry hentry => (h.methods entry hentry).mono List.prefix_rfl hoffers

/-- The function of the first body that is awaited is there to be opened. -/
theorem Awaits.site {body : PendingBody} {rest : List PendingBody}
    (h : d.Awaits b (body :: rest)) :
    ∃ f, IR.Site.Open ⟨b, body.function, f⟩ ∧
      f.params = body.parameters.map (fun p => p.2.irType) ∧ f.ret = body.result.irType := by
  obtain ⟨f, hf, hparams, hret, hblocks⟩ := (h.ready body List.mem_cons_self).function
  exact ⟨f, ⟨hf, hblocks⟩, hparams, hret⟩

/-- A function that gets a complete body is not awaited any more. -/
theorem Awaits.complete {w : Site} {body : PendingBody} {rest : List PendingBody}
    {more : List Inst} (h : d.Awaits w.base (body :: rest)) (hopen : w.Open)
    (hid : w.id = body.function) (hmore : w.Completes more) : d.Awaits (w.builder more) rest := by
  have hoffers := Site.offers hopen more
  have hdistinct := h.distinct
  rw [List.map_cons, List.nodup_cons] at hdistinct
  have hne : ∀ other ∈ rest, w.id ≠ other.function := by
    intro other hother he
    exact hdistinct.1 (hid ▸ he ▸ List.mem_map_of_mem hother)
  refine ⟨h.declarations.of_offers hoffers rfl rfl,
    fun g hg => hoffers.verifyGlobal (h.globals g hg), h.defects, fun id f hf => ?_,
    fun other hother => ?_, hdistinct.2⟩
  · by_cases hself : w.id = id
    · subst hself
      rw [Site.function?_self hopen] at hf
      cases hf
      obtain ⟨init, last, rfl, hinit, hlast, hverify⟩ := hmore
      refine Or.inl ⟨"entry", init, last, rfl, hlast, fun inst hinst => (hinit inst hinst).1, ?_⟩
      intro inst hinst
      refine hoffers.verifyInst rfl ?_
      rcases List.mem_append.mp hinst with hinst | hinst
      · exact (hinit inst hinst).2
      · rw [List.mem_singleton.mp hinst]
        exact hverify
    · rw [Site.function?_of_ne hself] at hf
      rcases h.functions id f hf with hfinished | ⟨other, hother, rfl⟩
      · exact Or.inl (hfinished.mono hoffers)
      · rcases List.mem_cons.mp hother with rfl | hother
        · exact absurd hid hself
        · exact Or.inr ⟨other, hother, rfl⟩
  · obtain ⟨⟨f, hf, hrest⟩, hparameters, hresult⟩ :=
      h.ready other (List.mem_cons_of_mem _ hother)
    exact ⟨⟨f, (Site.function?_of_ne (hne other hother)).trans hf, hrest⟩, hparameters, hresult⟩

end Declarations

namespace BodyContext

variable {d : Declarations} {source : List UInt8}

/-- What is left of a body begins where its function has no instructions. -/
theorem opened_eq {body : PendingBody} {s : Emission} {f : IR.Function}
    (hopen : IR.Site.Open ⟨s.builder, body.function, f⟩) :
    opened body s = ⟨Site.builder ⟨s.builder, body.function, f⟩ [],
      s.log ++ [.bodyStarted body.name body.resume]⟩ :=
  congrArg (fun r : Unit × IR.Builder => Emission.mk r.2 _) (Site.openEntry hopen)

/-- A body that is accepted has added instructions to the function that awaits it, and what emitting
them ensures may be used. -/
theorem emitPending_ok {body : PendingBody} {rest : List PendingBody} {s s' : Emission}
    (h : d.Awaits s.builder (body :: rest)) (hs : emitPending d source body s = .ok () s') :
    ∃ w : Site, w.base = s.builder ∧ w.Open ∧ w.id = body.function ∧
      w.function.params = body.parameters.map (fun p => p.2.irType) ∧
      w.function.ret = body.result.irType ∧
      ∀ Q, w.Emits [] (emitOpened d source body) Q →
        ∃ more, s'.builder = w.builder more ∧ Q () more := by
  obtain ⟨f, hopen, hparams, hret⟩ := h.site
  refine ⟨⟨s.builder, body.function, f⟩, rfl, hopen, rfl, hparams, hret, fun Q hQ => ?_⟩
  rw [emitPending_eq, opened_eq hopen] at hs
  obtain ⟨more, log, rfl, hmore⟩ := hQ _ _ _ hs
  exact ⟨more, rfl, hmore⟩

/-- A body that is accepted completes the function that awaits it. -/
theorem emitPending_awaits {body : PendingBody} {rest : List PendingBody} {s s' : Emission}
    (h : d.Awaits s.builder (body :: rest)) (hs : emitPending d source body s = .ok () s') :
    d.Awaits s'.builder rest := by
  obtain ⟨w, hbase, hopen, hid, hparams, hret, hemits⟩ := emitPending_ok h hs
  rw [← hbase] at h
  obtain ⟨more, hbuilder, hmore⟩ := hemits _ (typed_emitOpened hopen hid h.declarations hparams hret
    (h.ready body List.mem_cons_self).parameters)
  rw [hbuilder]
  exact h.complete hopen hid hmore

/-- After some of the bodies the others are awaited. -/
theorem emitPendings_awaits {bodies rest : List PendingBody} {s s' : Emission}
    (h : d.Awaits s.builder (bodies ++ rest))
    (hs : bodies.forM (emitPending d source) s = .ok () s') : d.Awaits s'.builder rest :=
  forM_ok (P := fun s bodies => d.Awaits s.builder bodies) (fun _ _ _ _ => emitPending_awaits) h hs

end BodyContext

/-! ## Projects -/

/-- Nothing is awaited: the tables agree with the module, and every function is finished. -/
def Project.Sound (p : Project) : Prop := p.declarations.Awaits p.builder []

namespace Project

variable {p q : Project}

theorem sound_start (name : String) : (start name).Sound where
  declarations :=
    { types := ⟨by simp [start, SymbolTable.empty], by simp [start, SymbolTable.empty],
        by simp [start, SymbolTable.empty]⟩
      laid := rfl
      globals := by simp [start, SymbolTable.empty]
      placed := rfl
      functions := by simp [start, SymbolTable.empty]
      methods := by simp [start, SymbolTable.empty] }
  globals := by simp [start, IR.Builder.start]
  defects := rfl
  functions := by simp [start, IR.Builder.start, IR.Module.function?]
  ready := by simp
  distinct := by simp

theorem Sound.of_sameTables (h : p.Sound) (hsame : p.SameTables q) : q.Sound := by
  unfold Sound at h ⊢
  rw [hsame.declarations]
  obtain ⟨hdeclarations, hglobals, hdefects, hfunctions, hbodies, hdistinct⟩ := h
  exact ⟨hsame.module ▸ hdeclarations, hsame.module ▸ hglobals, hsame.defects.trans hdefects,
    hsame.module ▸ hfunctions, hsame.module ▸ hbodies, hdistinct⟩

/-- After the first phase the bodies that were put off are awaited. -/
theorem Sound.declareAll {unit : SourceUnit} {pending : Pending} {s : Declaring} (h : p.Sound)
    (hs : Declare.declareAll (p.opening unit) = .ok pending s) :
    s.declarations.Awaits s.builder s.bodies := by
  obtain ⟨log, hsteps, rfl⟩ := Declare.declareAll_steps (p.listed_opening unit) hs
  exact Declaring.Sound.steps hsteps h

theorem Sound.takeUnit {unit : SourceUnit} (h : p.Sound)
    (hok : (p.takeUnit unit).result = .ok ()) : (p.takeUnit unit).project.Sound := by
  obtain ⟨s, made, hdeclare, hloop, hproject⟩ := takeUnit_ok hok
  rw [hproject]
  have hawaits : s.declarations.Awaits s.builder (s.bodies ++ []) := by
    rw [List.append_nil]
    exact h.declareAll hdeclare
  exact (BodyContext.emitPendings_awaits hawaits hloop).of_settled (Declarations.settled_withoutResumes _ _)

theorem Sound.run (h : p.Sound) (units : List SourceUnit) : (p.run units).Sound :=
  run_invariant Sound.of_sameTables Sound.takeUnit h units

theorem Sound.finishes (h : p.Sound) {f : IR.Function} (hf : f ∈ p.builder.module.functions) :
    p.builder.module.Finishes f := by
  obtain ⟨id, hid⟩ := List.getElem?_of_mem hf
  rcases h.functions id f hid with hfinished | ⟨body, hbody, _⟩
  · exact hfinished
  · cases hbody

/-- The module of every project passes the check, whatever units it was given and whichever of them it
accepted. No defect was recorded; every global holds a constant of its type; and every function has
one block of accepted instructions, of which the last returns and no other does. -/
theorem module_passes (name : String) (units : List SourceUnit) :
    ((start name).run units).finish = .ok ((start name).run units).builder.module ∧
    ((start name).run units).builder.defects = [] ∧
    (∀ g ∈ ((start name).run units).builder.module.globals,
      ((start name).run units).builder.module.checkConstant g.ty g.init = .ok ()) ∧
    ∀ f ∈ ((start name).run units).builder.module.functions,
      ∃ label init last, f.blocks = [⟨label, init ++ [last]⟩] ∧ last.op.isRet = true ∧
        (∀ inst ∈ init, inst.op.isRet = false) ∧
        ∀ inst ∈ init ++ [last],
          ((start name).run units).builder.module.verifyInst f inst = .ok () := by
  have h := (sound_start name).run units
  have hverify : ((start name).run units).builder.verify = .ok () :=
    IR.Builder.verify_ok h.defects h.globals fun f hf => h.finishes hf
  refine ⟨?_, h.defects, fun g hg => ?_, fun f hf => (h.finishes hf).body⟩
  · unfold finish
    rw [hverify]
  · have hg := h.globals g hg
    unfold IR.Module.verifyGlobal at hg
    cases hconstant : ((start name).run units).builder.module.checkConstant g.ty g.init with
    | ok _ => rfl
    | error problem =>
      rw [hconstant] at hg
      cases hg

end Project

end Straightline
