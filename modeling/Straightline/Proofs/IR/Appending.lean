import Mathlib.Data.List.Basic
import Straightline.IR.Builder

/-!
# Adding an instruction

A step of a builder that makes an instruction either puts it at the end of the last block of the function that
is open, numbered by how many that function had, and hands out its result; or notes a defect and answers with
a placeholder (`Build.Emits`). Everything that is known of the instructions of a builder follows from this.
-/

set_option autoImplicit false

namespace Straightline.IR

/-! ## Functions -/

namespace Function

variable {f : Function} {earlier : List Block} {last : Block}

theorem append_of_blocks (h : f.blocks = earlier ++ [last]) (inst : Inst) :
    f.append inst = { f with blocks := earlier ++ [{ last with insts := last.insts ++ [inst] }] } := by
  simp [append, h, List.modify_eq_take_cons_drop]

theorem insts_append_of_blocks (h : f.blocks = earlier ++ [last]) (inst : Inst) :
    (f.append inst).insts = f.insts ++ [inst] := by
  simp [append_of_blocks h, insts, h]

theorem insts_append (f : Function) (inst : Inst) (h : f.blocks ≠ []) :
    (f.append inst).insts = f.insts ++ [inst] :=
  insts_append_of_blocks (List.dropLast_concat_getLast h).symm inst

theorem insts_openBlock (f : Function) (label : String) : (f.openBlock label).insts = f.insts := by
  simp [insts, openBlock]

/-- In its place among the functions of a module, too, only the last block changes. -/
theorem modify_append {functions : List Function} {id : FunctionId} (hf : functions[id]? = some f)
    (h : f.blocks = earlier ++ [last]) (inst : Inst) :
    functions.modify id (fun f' => f'.append inst) =
      functions.set id { f with blocks := earlier ++ [{ last with insts := last.insts ++ [inst] }] } := by
  rw [List.modify_eq_set_getElem?, hf, ← append_of_blocks h inst]
  rfl

end Function

/-! ## Builders -/

/-- `b'` is `b` with `inst` at the end of the last block of the function that is open, numbered by how many
there were, and with nothing else changed. -/
inductive Builder.Appended (b : Builder) (inst : Inst) : Builder → Prop where
  | intro {id : FunctionId} {f : Function} {earlier : List Block} {last : Block} :
      b.current = some id → b.module.functions[id]? = some f → f.blocks = earlier ++ [last] →
      inst.id = f.insts.length →
      Appended b inst
        { b with
          module :=
            { b.module with
              functions := b.module.functions.set id
                { f with blocks := earlier ++ [{ last with insts := last.insts ++ [inst] }] } } }

/-- Instructions can be added: a function is open, and has a block. -/
def Builder.Ready (b : Builder) : Prop := ∃ f, b.currentFunction? = some f ∧ f.blocks ≠ []

namespace Build

/-- What can come of a step that adds this operation and hands out its result. -/
inductive Emitted (b : Builder) (op : Op) : Value → Builder → Prop where
  | appended {inst : Inst} {b' : Builder} : inst.op = op → b.Appended inst b' →
      Emitted b op ⟨.inst inst.id, inst.ty⟩ b'
  | refused {problem : Problem} {ty : IRType} : Emitted b op (placeholder ty) (b.record problem)

def Emits (op : Op) (step : Build Value) : Prop := ∀ b : Builder, Emitted b op (step b).1 (step b).2

theorem emits_fail (op : Op) (problem : Problem) (ty : IRType) : Emits op (fail problem ty) :=
  fun _ => .refused

theorem emits_emit (ty : IRType) (op : Op) : Emits op (emit ty op) := by
  intro b
  unfold emit
  split
  case h_2 => exact emits_fail op _ _ b
  case h_1 id f hcurrent hf =>
    split
    case isTrue => exact emits_fail op _ _ b
    case isFalse hblocks =>
      rw [Builder.currentFunction?, hcurrent] at hf
      have hf : b.module.functions[id]? = some f := hf
      obtain ⟨earlier, last, hsplit⟩ : ∃ earlier last, f.blocks = earlier ++ [last] :=
        ⟨_, _, (List.dropLast_concat_getLast (by simpa using hblocks)).symm⟩
      dsimp only
      rw [Function.modify_append hf hsplit]
      have hnew : b.Appended ⟨f.instCount, ty, op⟩ _ := .intro hcurrent hf hsplit rfl
      exact .appended rfl hnew

theorem emits_load (ptr : Value) : Emits (.load ptr) (load ptr) := by
  unfold load
  split
  · exact emits_emit _ _
  · exact emits_fail _ _ _

theorem emits_call (callee : FunctionId) (args : List Value) :
    Emits (.call callee args) (call callee args) := by
  intro b
  unfold call
  split
  · exact emits_emit _ _ b
  · exact emits_fail _ _ _ b

theorem emits_fieldAddr (ptr : Value) (index : Nat) :
    Emits (.fieldAddr ptr index) (fieldAddr ptr index) := by
  intro b
  unfold fieldAddr
  split
  · exact emits_emit _ _ b
  · exact emits_fail _ _ _ b

theorem defects_fail_ne (b : Builder) (problem : Problem) (ty : IRType) :
    (fail problem ty b).2.defects ≠ b.defects := by
  simp [fail, Builder.record]

theorem defects_emit_iff (b : Builder) (ty : IRType) (op : Op) :
    (emit ty op b).2.defects = b.defects ↔ b.Ready := by
  unfold emit
  split
  case h_1 id f _ hf =>
    split
    case isTrue hblocks =>
      refine iff_of_false (defects_fail_ne b _ _) ?_
      rintro ⟨f', hf', hne⟩
      cases hf.symm.trans hf'
      exact hne (List.isEmpty_iff.mp hblocks)
    case isFalse hblocks => exact iff_of_true rfl ⟨f, hf, by simpa using hblocks⟩
  case h_2 hnone =>
    refine iff_of_false (defects_fail_ne b _ _) ?_
    rintro ⟨f, hf, _⟩
    cases hcurrent : b.current with
    | none => simp [Builder.currentFunction?, hcurrent] at hf
    | some id => exact hnone id f hcurrent hf

end Build

end Straightline.IR
