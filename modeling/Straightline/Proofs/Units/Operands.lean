import Straightline.Proofs.IR.Escape
import Straightline.Proofs.Safety.Contents
import Straightline.Proofs.Units.Typed

/-!
# What the instructions of a project refer to

Values go through scopes, storage, records of globals and lists of arguments before an instruction uses
them. The module of every project is well typed (`Project.typed_module`), so whichever way a value took, it
is one of the function that uses it and was there before (`Project.module_scoped`), and it is no address
of a slot unless an instruction goes through it at once (`Project.slots_stay`). Neither is checked by
`verify`.
-/

set_option autoImplicit false

namespace Straightline

/-- In every function the instructions are numbered by their places, and each operand is the result of an
instruction before, with the type of that result, which is not `void`; or a parameter or the address of a
global that is there, with its type; or a constant of its type. -/
def IR.Module.Scoped (m : Module) : Prop :=
  ∀ f ∈ m.functions, ∀ (k : Nat) (inst : Inst), f.insts[k]? = some inst →
    inst.id = k ∧ ∀ v ∈ inst.op.operands, v.Scoped m f.params (f.insts.take k)

namespace Project

open IR (Datum)

/-- The module of every project is well scoped. -/
theorem module_scoped (name : String) (units : List SourceUnit) :
    ((start name).run units).builder.module.Scoped := by
  intro f hf k inst hk
  obtain ⟨hid, hop⟩ := ((typed_module name units).functions f hf).typed_at hk
  exact ⟨hid, hop.operands⟩

/-- The memory in which a module starts has no address in it. -/
theorem memory_lasts (m : IR.Module) : m.memory.Lasts := by
  intro base d hcell
  cases base with
  | global index =>
    have hcell : (m.globals.map fun g => some g.init.datum)[index]? = some (some d) := hcell
    rw [List.getElem?_map] at hcell
    obtain ⟨g, _, hd⟩ := Option.map_eq_some_iff.mp hcell
    cases hd
    exact g.init.lasts
  | heap | slot => cases hcell

/-- Addresses of slots stay in their functions. In every function of a project the address of a slot, or
of a field of a field in one, is an operand only where an instruction goes through it, and never handed on.
An address that is handed on is a parameter, the address of a global, or the result of an allocation that
outlives the function, of a load or of a call. So calls that are given no address of a slot, in memory that
has none, give none and leave none; the memory in which the module starts is such. -/
theorem slots_stay (name : String) (units : List SourceUnit) :
    (∀ f ∈ ((start name).run units).builder.module.functions, ∀ inst ∈ f.insts,
      (∀ v ∈ inst.op.operands, ∀ id, v.source = .inst id → f.InFrame id →
        inst.op.target? = some v ∧ v ∉ inst.op.passed) ∧
      ∀ v ∈ inst.op.passed, ∀ t, v.ty = .ptr t → f.Origin v.source) ∧
    (∀ (depth : Nat) (id : IR.FunctionId) (args : List Datum) (mem mem' : IR.Memory)
      (result : Option Datum),
      ((start name).run units).builder.module.callWithin depth id args mem = .ok result mem' →
      (∀ d ∈ args, d.Lasts) → mem.Lasts → (∀ d, result = some d → d.Lasts) ∧ mem'.Lasts) ∧
    ((start name).run units).builder.module.memory.Lasts := by
  have htyped := typed_module name units
  refine ⟨fun f hf inst hinst => ⟨fun v hv id hsource hframe => ?_, fun v hv t hty => ?_⟩,
    fun depth id args mem mem' result h hargs hmem => htyped.lasting depth h hargs hmem,
    memory_lasts _⟩
  · have hpassed : v ∉ inst.op.passed := fun hpassed =>
      (htyped.functions f hf).stays htyped hinst hpassed hsource hframe
    rw [inst.op.operands_eq, List.mem_append, Option.mem_toList] at hv
    exact ⟨hv.resolve_right hpassed, hpassed⟩
  · exact (htyped.functions f hf).origin htyped hinst hv hty

end Project

end Straightline
