import Straightline.IR.Verify
import Straightline.Proofs.Declaring.Headers

/-!
# What an instruction asks of its module

Checking an instruction asks the module for the fields of structures and for the types that functions
take and give, and for nothing else. A module that goes on offering these (`IR.Module.Offers`), however
it grows, goes on accepting every instruction, every constant and every finished function.
-/

set_option autoImplicit false

namespace Straightline.IR

/-- `m'` has the structures of `m`, and functions of the same types in the same places. -/
structure Module.Offers (m m' : Module) : Prop where
  structs : ∀ {name d}, m.structDef? name = some d → m'.structDef? name = some d
  functions : ∀ {id f}, m.function? id = some f →
    ∃ f', m'.function? id = some f' ∧ f'.params = f.params ∧ f'.ret = f.ret

namespace Module.Offers

variable {m m' : Module}

/-- Adding structures and functions at the end takes nothing away. -/
theorem of_growth (hstructs : m.structs <+: m'.structs)
    (hfunctions : m.functions <+: m'.functions) : m.Offers m' := by
  refine ⟨fun {name d} hd => ?_, fun {id f} hf => ⟨f, ?_, rfl, rfl⟩⟩
  · obtain ⟨more, hmore⟩ := hstructs
    unfold structDef? at hd ⊢
    rw [← hmore, List.find?_append, hd]
    rfl
  · obtain ⟨more, hmore⟩ := hfunctions
    unfold function? at hf ⊢
    rw [← hmore, List.getElem?_append_left (List.getElem?_eq_some_iff.mp hf).1]
    exact hf

mutual

theorem checkConstant (h : m.Offers m') {ty : IRType} (c : Constant)
    (hc : m.checkConstant ty c = .ok ()) : m'.checkConstant ty c = .ok () := by
  cases c with
  | int value =>
    rw [Module.checkConstant] at hc ⊢
    exact hc
  | struct values =>
    rw [Module.checkConstant.eq_def] at hc ⊢
    dsimp only at hc ⊢
    cases ty with
    | struct name =>
      dsimp only at hc ⊢
      cases hd : m.structDef? name with
      | none =>
        rw [hd] at hc
        cases hc
      | some d =>
        rw [hd] at hc
        rw [h.structs hd]
        dsimp only at hc ⊢
        split at hc
        · cases hc
        · rename_i hcount
          rw [if_neg hcount]
          exact h.checkConstants d.fields values hc
    | void | int | ptr => cases hc

theorem checkConstants (h : m.Offers m') (tys : List IRType) (values : List Constant)
    (hc : m.checkConstants tys values = .ok ()) : m'.checkConstants tys values = .ok () := by
  cases values with
  | nil =>
    cases tys <;> (unfold Module.checkConstants; rfl)
  | cons value rest =>
    cases tys with
    | nil =>
      unfold Module.checkConstants
      rfl
    | cons ty tys =>
      rw [Module.checkConstants] at hc ⊢
      obtain ⟨_, hvalue, hrest⟩ := Except.bind_ok hc
      rw [h.checkConstant value hvalue]
      exact h.checkConstants tys rest hrest

end

theorem verifyGlobal (h : m.Offers m') {g : Global} (hg : m.verifyGlobal g = .ok ()) :
    m'.verifyGlobal g = .ok () := by
  unfold Module.verifyGlobal at hg ⊢
  cases hc : m.checkConstant g.ty g.init with
  | ok _ =>
    rw [h.checkConstant g.init hc]
    rfl
  | error problem =>
    rw [hc] at hg
    cases hg

/-- Of the function that holds the instruction only the type it gives is asked for. -/
theorem verifyInst (h : m.Offers m') {f f' : Function} {inst : Inst} (hret : f'.ret = f.ret)
    (hinst : m.verifyInst f inst = .ok ()) : m'.verifyInst f' inst = .ok () := by
  obtain ⟨id, ty, op⟩ := inst
  unfold Module.verifyInst at hinst ⊢
  cases op with
  | alloca | heapAlloc | load | fieldAddr => rfl
  | store | add | sub => exact hinst
  | ret value =>
    cases value <;>
    · dsimp only at hinst ⊢
      rw [hret]
      exact hinst
  | call callee args =>
    dsimp only at hinst ⊢
    cases hf : m.function? callee with
    | none =>
      rw [hf] at hinst
      cases hinst
    | some target =>
      obtain ⟨target', htarget, hparams, _⟩ := h.functions hf
      rw [hf] at hinst
      rw [htarget]
      dsimp only at hinst ⊢
      rw [hparams]
      split at hinst
      · cases hinst
      · rename_i hcount
        rw [if_neg hcount]
        exact hinst
  | aggregate fields =>
    dsimp only at hinst ⊢
    cases ty with
    | struct name =>
      dsimp only at hinst ⊢
      cases hd : m.structDef? name with
      | none =>
        rw [hd] at hinst
        cases hinst
      | some d =>
        rw [hd] at hinst
        rw [h.structs hd]
        exact hinst
    | void | int | ptr => cases hinst

end Module.Offers

/-! ## Finished functions -/

/-- `f` has a body: one block of accepted instructions, of which the last, and no other, returns. -/
structure Module.Finishes (m : Module) (f : Function) : Prop where
  body : ∃ label init last, f.blocks = [⟨label, init ++ [last]⟩] ∧ last.op.isRet = true ∧
    (∀ inst ∈ init, inst.op.isRet = false) ∧ ∀ inst ∈ init ++ [last], m.verifyInst f inst = .ok ()

namespace Module.Finishes

variable {m m' : Module} {f : Function}

theorem mono (h : m.Finishes f) (hoffers : m.Offers m') : m'.Finishes f := by
  obtain ⟨label, init, last, hblocks, hlast, hinit, hinsts⟩ := h.body
  exact ⟨label, init, last, hblocks, hlast, hinit,
    fun inst hinst => hoffers.verifyInst rfl (hinsts inst hinst)⟩

theorem verifyInsts_ok {label : String} {init : List Inst} {last : Inst}
    (hinit : ∀ inst ∈ init, inst.op.isRet = false)
    (hinsts : ∀ inst ∈ init ++ [last], m.verifyInst f inst = .ok ()) :
    m.verifyInsts f label (init ++ [last]) = .ok () := by
  induction init with
  | nil =>
    rw [List.nil_append, verifyInsts]
    exact hinsts last (List.mem_singleton_self last)
  | cons inst rest ih =>
    rw [List.forall_mem_cons] at hinit
    rw [List.cons_append, List.forall_mem_cons] at hinsts
    have hrest := ih hinit.2 hinsts.2
    rw [List.cons_append]
    cases htail : rest ++ [last] with
    | nil => simp at htail
    | cons next others =>
      rw [htail] at hrest
      rw [verifyInsts, hinit.1, hinsts.1]
      · exact hrest
      · intro hnil
        cases hnil

/-- A finished function passes the check. -/
theorem verifyFunction (h : m.Finishes f) : m.verifyFunction f = .ok () := by
  obtain ⟨label, init, last, hblocks, hlast, hinit, hinsts⟩ := h.body
  have hblock : m.verifyBlock f ⟨label, init ++ [last]⟩ = .ok () := by
    simp only [verifyBlock, List.getLast?_concat, hlast, if_true]
    exact verifyInsts_ok hinit hinsts
  unfold Module.verifyFunction
  rw [hblocks]
  exact forM_ok_iff.mpr fun block hmem => by rw [List.mem_singleton.mp hmem, hblock]

end Module.Finishes

/-- A builder that met no defect passes if its globals and functions do. -/
theorem Builder.verify_ok {b : Builder} (hdefects : b.defects = [])
    (hglobals : ∀ g ∈ b.module.globals, b.module.verifyGlobal g = .ok ())
    (hfunctions : ∀ f ∈ b.module.functions, b.module.Finishes f) : b.verify = .ok () := by
  unfold Builder.verify
  rw [hdefects]
  have hg : (b.module.globals.forM fun g =>
      (b.module.verifyGlobal g).mapError fun p => (⟨none, p⟩ : Defect)) = .ok () :=
    forM_ok_iff.mpr fun g hg => by rw [hglobals g hg]; rfl
  have hf : (b.module.functions.forM fun f =>
      (b.module.verifyFunction f).mapError fun p => (⟨some f.name, p⟩ : Defect)) = .ok () :=
    forM_ok_iff.mpr fun f hf => by rw [(hfunctions f hf).verifyFunction]; rfl
  change (Module.verify b.module) = .ok ()
  unfold Module.verify
  rw [hg]
  exact hf

end Straightline.IR
