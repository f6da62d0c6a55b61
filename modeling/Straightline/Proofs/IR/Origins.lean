import Straightline.IR.Verify

/-!
# The check does not see where values come from

An operand has a source and a type, and the check reads only the type. Putting values of other sources and
the same types in the places of all operands thus leaves its answer as it is (`Module.verify_redirect`).
-/

set_option autoImplicit false

namespace Straightline.IR

namespace Op

/-- Puts another value in the place of each operand. -/
def redirect (put : Value → Value) : Op → Op
  | alloca ty name => alloca ty name
  | heapAlloc ty => heapAlloc ty
  | store value ptr => store (put value) (put ptr)
  | load ptr => load (put ptr)
  | call callee args => call callee (args.map put)
  | add lhs rhs => add (put lhs) (put rhs)
  | sub lhs rhs => sub (put lhs) (put rhs)
  | fieldAddr ptr index => fieldAddr (put ptr) index
  | aggregate fields => aggregate (fields.map put)
  | ret value => ret (value.map put)

theorem isRet_redirect (put : Value → Value) (op : Op) : (op.redirect put).isRet = op.isRet := by
  cases op <;> rfl

end Op

def Inst.redirect (put : Value → Value) (inst : Inst) : Inst :=
  { inst with op := inst.op.redirect put }

def Block.redirect (put : Value → Value) (block : Block) : Block :=
  { block with insts := block.insts.map (Inst.redirect put) }

def Function.redirect (put : Value → Value) (f : Function) : Function :=
  { f with blocks := f.blocks.map (Block.redirect put) }

namespace Module

def redirect (put : Value → Value) (m : Module) : Module :=
  { m with functions := m.functions.map (Function.redirect put) }

variable {put : Value → Value} {m : Module}

theorem forM_map {ε α β : Type} {f : β → Except ε Unit} {g : α → Except ε Unit} {r : α → β}
    (h : ∀ a, f (r a) = g a) (l : List α) : (l.map r).forM f = l.forM g := by
  induction l with
  | nil => rfl
  | cons a rest ih =>
    change (f (r a) >>= fun _ => (rest.map r).forM f) = (g a >>= fun _ => rest.forM g)
    rw [h, ih]

theorem expectTypes_redirect (hput : ∀ v, (put v).ty = v.ty) (what : String) (expected : List IRType)
    (values : List Value) :
    expectTypes what expected (values.map put) = expectTypes what expected values := by
  unfold expectTypes
  rw [List.zip_map_right]
  exact forM_map (fun pair => by simp [hput]) _

mutual

theorem checkConstant_redirect (ty : IRType) (c : Constant) :
    (m.redirect put).checkConstant ty c = m.checkConstant ty c := by
  cases c with
  | int value => rw [checkConstant, checkConstant]
  | struct values =>
    rw [checkConstant.eq_def, checkConstant.eq_def]
    dsimp only
    split
    · rename_i name
      have hstruct : (m.redirect put).structDef? name = m.structDef? name := rfl
      rw [hstruct]
      cases m.structDef? name with
      | none => rfl
      | some d =>
        dsimp only
        rw [checkConstants_redirect d.fields values]
    · rfl

theorem checkConstants_redirect (tys : List IRType) (values : List Constant) :
    (m.redirect put).checkConstants tys values = m.checkConstants tys values := by
  cases values with
  | nil => cases tys <;> simp only [checkConstants]
  | cons value rest =>
    cases tys with
    | nil => simp only [checkConstants]
    | cons ty tys =>
      rw [checkConstants, checkConstants, checkConstant_redirect ty value,
        checkConstants_redirect tys rest]

end

theorem verifyInst_redirect (hput : ∀ v, (put v).ty = v.ty) (f : Function) (inst : Inst) :
    (m.redirect put).verifyInst (f.redirect put) (inst.redirect put) = m.verifyInst f inst := by
  obtain ⟨id, ty, op⟩ := inst
  cases op with
  | alloca | heapAlloc | load | fieldAddr => rfl
  | store value ptr | add lhs rhs | sub lhs rhs =>
    simp only [verifyInst, Inst.redirect, Op.redirect, hput]
  | call callee args =>
    simp only [verifyInst, Inst.redirect, Op.redirect, function?, redirect, List.getElem?_map]
    cases m.functions[callee]? with
    | none => rfl
    | some target => simp [Function.redirect, expectTypes_redirect hput]
  | aggregate fields =>
    simp only [verifyInst, Inst.redirect, Op.redirect, List.length_map, expectTypes_redirect hput]
    rfl
  | ret value =>
    cases value with
    | none => rfl
    | some value =>
      simp only [verifyInst, Inst.redirect, Op.redirect, Option.map_some, hput]
      rfl

theorem verifyInsts_redirect (hput : ∀ v, (put v).ty = v.ty) (f : Function) (label : String)
    (insts : List Inst) :
    (m.redirect put).verifyInsts (f.redirect put) label (insts.map (Inst.redirect put)) =
      m.verifyInsts f label insts := by
  induction insts with
  | nil => rfl
  | cons inst rest ih =>
    cases rest with
    | nil => exact verifyInst_redirect hput f inst
    | cons next rest =>
      simp only [List.map_cons, verifyInsts] at ih ⊢
      rw [ih, verifyInst_redirect hput]
      simp only [Inst.redirect, Op.isRet_redirect]

theorem verifyBlock_redirect (hput : ∀ v, (put v).ty = v.ty) (f : Function) (block : Block) :
    (m.redirect put).verifyBlock (f.redirect put) (block.redirect put) = m.verifyBlock f block := by
  simp only [verifyBlock, Block.redirect, List.getLast?_map]
  cases block.insts.getLast? with
  | none => rfl
  | some last =>
    simp only [Option.map_some, Inst.redirect, Op.isRet_redirect]
    rw [← verifyInsts_redirect hput f block.label block.insts]

/-- Where operands come from makes no difference to the check. -/
theorem verify_redirect (hput : ∀ v, (put v).ty = v.ty) : (m.redirect put).verify = m.verify := by
  have hglobal (g : Global) : (m.redirect put).verifyGlobal g = m.verifyGlobal g := by
    simp only [verifyGlobal, checkConstant_redirect]
  have hfunction (f : Function) :
      (m.redirect put).verifyFunction (f.redirect put) = m.verifyFunction f := by
    have hblocks : (f.redirect put).blocks = f.blocks.map (Block.redirect put) := rfl
    simp only [verifyFunction, hblocks, List.isEmpty_map, forM_map (verifyBlock_redirect hput f)]
  simp only [verify, hglobal]
  congr 1
  funext _
  exact forM_map (fun f => by rw [hfunction]; rfl) _

end Module
end Straightline.IR
