import Straightline.Proofs.IR.Typed
import Straightline.Proofs.Reading.Bindings
import Straightline.Proofs.Trees.Emission

/-!
# What emission leaves alone

Whatever emission does, it does by adding instructions one at a time and by recording defects. So a relation
of builders that both respect is respected by a whole body, however its emission ends
(`BodyContext.framed_emitOpened`). What is known of every instruction without regard to what was declared may
be used: slots are named by words, and a structure that is put together has fields (`IR.Builder.Frame`).

The frame rule is the main case: adding instructions changes the function that is open and nothing else. The
structures, the globals, the number of functions and every other function are as before, and defects are
only added (`IR.Builder.Amends`). It holds also of a body that is refused halfway.
-/

set_option autoImplicit false

namespace Straightline

namespace IR

/-! ## Relations of builders -/

/-- A relation of builders that is respected when a defect is recorded, and when an instruction is added whose
slot is named as words are. -/
class Builder.Frame (P : outParam (String → Prop)) (R : Builder → Builder → Prop) : Prop where
  word : Ensures Scan.nonemptyWord fun _ name _ => P name
  refl : ∀ b, R b b
  trans : ∀ {b b' b''}, R b b' → R b' b'' → R b b''
  record : ∀ b problem, R b (b.record problem)
  emit : ∀ b ty {op : Op}, op.Written P → R b (Build.emit ty op b).2

namespace Build

/-- Whatever the builder, the step respects the relation. -/
def Framed {α : Type} (R : Builder → Builder → Prop) (step : Build α) : Prop := ∀ b, R b (step b).2

theorem Framed.discard {α : Type} {R : Builder → Builder → Prop} {step : Build α} (h : Framed R step) :
    Framed R (discard step) := h

section Framed

variable {P : String → Prop} {R : Builder → Builder → Prop} [hR : Builder.Frame P R]

include hR

theorem framed_fail (problem : Problem) (ty : IRType) : Framed R (fail problem ty) :=
  fun b => Builder.Frame.record b problem

theorem framed_emit (ty : IRType) (op : Op) (hop : op.Written P) : Framed R (emit ty op) :=
  fun b => Builder.Frame.emit b ty hop

theorem framed_alloca (ty : IRType) (name : Option String) (hname : ∀ text, name = some text → P text) :
    Framed R (alloca ty name) := by
  refine framed_emit _ _ ?_
  cases name with
  | none => trivial
  | some text => exact hname text rfl

theorem framed_heapAlloc (ty : IRType) : Framed R (heapAlloc ty) := framed_emit _ (.heapAlloc ty) trivial

theorem framed_store (value ptr : Value) : Framed R (store value ptr) :=
  (framed_emit .void (.store value ptr) trivial).discard

theorem framed_load (ptr : Value) : Framed R (load ptr) := by
  unfold load
  split
  · exact framed_emit _ (.load ptr) trivial
  · exact framed_fail _ _

theorem framed_call (callee : FunctionId) (args : List Value) : Framed R (call callee args) := by
  intro b
  unfold call
  split
  · exact framed_emit _ (.call callee args) trivial b
  · exact framed_fail _ _ b

theorem framed_add (lhs rhs : Value) : Framed R (add lhs rhs) := framed_emit _ (.add lhs rhs) trivial

theorem framed_sub (lhs rhs : Value) : Framed R (sub lhs rhs) := framed_emit _ (.sub lhs rhs) trivial

theorem framed_fieldAddr (ptr : Value) (index : Nat) : Framed R (fieldAddr ptr index) := by
  intro b
  unfold fieldAddr
  split
  · exact framed_emit _ (.fieldAddr ptr index) trivial b
  · exact framed_fail _ _ b

/-- A structure without fields is a constant. -/
theorem framed_struct (ty : IRType) (fields : List Value) : Framed R (struct ty fields) := by
  unfold struct
  split
  · exact Builder.Frame.refl
  · rename_i hfields
    refine framed_emit _ (.aggregate fields) ?_
    rintro rfl
    cases hfields

theorem framed_ret (value : Option Value) : Framed R (ret value) :=
  (framed_emit .void (.ret value) trivial).discard

theorem framed_param (id : FunctionId) (index : Nat) : Framed R (param id index) := by
  intro b
  unfold param
  split <;> exact Builder.Frame.refl b

end Framed

end Build

/-! ## The open function -/

/-- `b'` is `b` after instructions were added to the function that is open, or defects recorded. -/
structure Builder.Amends (b b' : Builder) : Prop where
  name : b'.module.name = b.module.name
  structs : b'.module.structs = b.module.structs
  globals : b'.module.globals = b.module.globals
  current : b'.current = b.current
  count : b'.module.functions.length = b.module.functions.length
  others : ∀ id, b.current ≠ some id → b'.module.functions[id]? = b.module.functions[id]?
  defects : b.defects <+: b'.defects

namespace Builder.Amends

variable {b b' b'' : Builder}

theorem refl (b : Builder) : b.Amends b :=
  ⟨rfl, rfl, rfl, rfl, rfl, fun _ _ => rfl, List.prefix_rfl⟩

theorem trans (h : b.Amends b') (h' : b'.Amends b'') : b.Amends b'' where
  name := h'.name.trans h.name
  structs := h'.structs.trans h.structs
  globals := h'.globals.trans h.globals
  current := h'.current.trans h.current
  count := h'.count.trans h.count
  others := fun id hid => (h'.others id (h.current ▸ hid)).trans (h.others id hid)
  defects := h.defects.trans h'.defects

theorem record (b : Builder) (problem : Problem) : b.Amends (b.record problem) :=
  ⟨rfl, rfl, rfl, rfl, rfl, fun _ _ => rfl, List.prefix_append _ _⟩

theorem emit (b : Builder) (ty : IRType) (op : Op) : b.Amends (Build.emit ty op b).2 := by
  cases hcurrent : b.current with
  | none =>
    simp only [Build.emit, hcurrent]
    exact .record b _
  | some id =>
    cases hf : b.currentFunction? with
    | none =>
      simp only [Build.emit, hcurrent, hf]
      exact .record b _
    | some f =>
      simp only [Build.emit, hcurrent, hf]
      split
      · exact .record b _
      · refine ⟨rfl, rfl, rfl, hcurrent.symm, List.length_modify .., fun id' hid => ?_,
          List.prefix_rfl⟩
        have hne : id ≠ id' := fun he => hid (he ▸ hcurrent)
        simp [hne]

instance : Frame (fun _ => True) Amends where
  word := fun _ _ _ _ => trivial
  refl := refl
  trans := trans
  record := record
  emit := fun b ty {op} _ => emit b ty op

end Builder.Amends

end IR

/-! ## Emission -/

/-- However `m` ends, the builders before and after are related. -/
abbrev Emit.Framed {α : Type} (R : IR.Builder → IR.Builder → Prop) (m : Emit α) : Prop :=
  Keeps (fun s s' : Emission => R s.builder s'.builder) m

/-- However `m` ends, it has only added instructions and defects. -/
abbrev Emit.Amends {α : Type} (m : Emit α) : Prop := Emit.Framed IR.Builder.Amends m

namespace Emit.Framed

variable {α β : Type} {P : String → Prop} {R : IR.Builder → IR.Builder → Prop} [hR : IR.Builder.Frame P R]

include hR

theorem pure (a : α) : Framed R (pure a) := fun s => IR.Builder.Frame.refl s.builder

theorem refuse (fault : Fault) (offset : Nat) : Framed R (Emit.refuse fault offset : Emit α) :=
  fun s => IR.Builder.Frame.refl s.builder

theorem bind {m : Emit α} {k : α → Emit β} (hm : Framed R m) (hk : ∀ a, Framed R (k a)) :
    Framed R (m >>= k) :=
  Keeps.bind (fun h h' => IR.Builder.Frame.trans h h') hm hk

theorem discard {m : Emit α} (hm : Framed R m) : Framed R (discard m) := by
  rw [discard_eq]
  exact hm.bind fun _ => pure ()

omit hR in
theorem build {step : IR.Build α} (h : IR.Build.Framed R step) : Framed R (Emit.build step) :=
  fun s => h s.builder

theorem report (event : Event) : Framed R (Emit.report event) := fun _ => IR.Builder.Frame.refl _

theorem require (holds : Bool) (fault : Fault) (offset : Nat) :
    Framed R (Emit.require holds fault offset) := by
  unfold Emit.require
  split
  · exact pure ()
  · exact refuse _ _

theorem check (offset : Nat) (outcome : Except Fault α) : Framed R (Emit.check offset outcome) := by
  cases outcome with
  | ok value => exact pure _
  | error fault => exact refuse _ _

end Emit.Framed

namespace BodyContext

section Framed

variable {P : String → Prop} {R : IR.Builder → IR.Builder → Prop} [hR : IR.Builder.Frame P R]
  {ctx : BodyContext} {scope : Scope IR.Value}

include hR

open IR.Build

theorem framed_valueOf (storage : Storage IR.Value) : Emit.Framed R (valueOf storage) := by
  cases storage with
  | slot address => exact .build (framed_load address)
  | direct value => exact .pure _

theorem framed_spill (ty : Ty) {name : Option String} (hname : ∀ text, name = some text → P text)
    (value : IR.Value) : Emit.Framed R (spill ty name value) :=
  .bind (.build (framed_alloca _ _ hname)) fun _ =>
    .bind (.build (framed_store _ _)) fun _ => .pure _

theorem framed_fieldsAddress (ty : Ty) (storage : Storage IR.Value) :
    Emit.Framed R (fieldsAddress ty storage) := by
  unfold fieldsAddress
  split
  · exact .build (framed_load _)
  · exact .pure _
  · exact .pure _
  · exact framed_spill _ (by rintro _ ⟨⟩) _

theorem framed_construct (ty : Ty) (fields : List IR.Value) :
    Emit.Framed R (construct ty fields) := by
  refine .bind (.build (framed_struct _ _)) ?_
  intro value
  split
  · exact .pure _
  · exact .bind (.build (framed_heapAlloc _)) fun _ =>
      .bind (.build (framed_store _ _)) fun _ => .pure _

theorem framed_emitWord (expected : Ty) (text : String) (stop : Nat) :
    Emit.Framed R (ctx.emitWord scope expected text stop) := by
  unfold emitWord
  split
  · exact .pure _
  · split
    · exact .bind (.check _ _) fun _ => framed_valueOf _
    · split <;> exact .refuse _ _

theorem framed_emitField (expected : Ty) (target member : String) (stop : Nat) :
    Emit.Framed R (ctx.emitField scope expected target member stop) :=
  .bind (.check _ _) fun _ => .bind (.check _ _) fun _ => .bind (.check _ _) fun _ =>
    .bind (framed_fieldsAddress _ _) fun _ => .bind (.build (framed_fieldAddr _ _)) fun _ =>
      .build (framed_load _)

theorem framed_callFunction {callee : String} {stop : Nat} {expected : Option Ty}
    {arguments : List Ty → Emit (List IR.Value)}
    (harguments : ∀ types, Emit.Framed R (arguments types)) :
    Emit.Framed R (ctx.callFunction callee stop expected arguments) := by
  unfold callFunction
  split
  · exact .refuse _ _
  · exact .bind (.check _ _) fun _ => .bind (harguments _) fun _ => .build (framed_call _ _)

theorem framed_callMethod {target member : String} {stop : Nat} {expected : Option Ty}
    {arguments : List Ty → Emit (List IR.Value)}
    (harguments : ∀ types, Emit.Framed R (arguments types)) :
    Emit.Framed R (ctx.callMethod scope target member stop expected arguments) := by
  refine .bind (.check _ _) fun found => .bind (.require _ _ _) ?_
  intro _
  split
  · exact .refuse _ _
  · exact .bind (.check _ _) fun _ => .bind (framed_valueOf _) fun _ =>
      .bind (harguments _) fun _ => .build (framed_call _ _)

theorem framed_emitOperator (operator : Operator) (lhs rhs : IR.Value) :
    IR.Build.Framed R (emitOperator operator lhs rhs) := by
  cases operator with
  | add => exact framed_add lhs rhs
  | sub => exact framed_sub lhs rhs

mutual

theorem framed_emitTerm (expected : Ty) (t : Term) :
    Emit.Framed R (ctx.emitTerm scope expected t) := by
  cases t with
  | word text stop => exact framed_emitWord _ _ _
  | field target member stop => exact framed_emitField _ _ _ _
  | call callee stop arguments close =>
    unfold emitTerm
    split
    · exact .bind (.check _ _) fun _ =>
        .bind (framed_emitArguments _ _ _ arguments) fun _ => framed_construct _ _
    · exact framed_callFunction fun types => framed_emitArguments _ _ _ arguments
  | methodCall target member stop arguments close =>
    unfold emitTerm
    exact framed_callMethod fun types => framed_emitArguments _ _ _ arguments

theorem framed_emitSteps (expected : Ty) (value : IR.Value) (steps : List Step) :
    Emit.Framed R (ctx.emitSteps scope expected value steps) := by
  cases steps with
  | nil => exact .pure _
  | cons step rest =>
    obtain ⟨operator, stop, operand⟩ := step
    unfold emitSteps
    exact .bind (.require _ _ _) fun _ => .bind (framed_emitTerm expected operand) fun _ =>
      .bind (.build (framed_emitOperator _ _ _)) fun result =>
        framed_emitSteps expected result rest

theorem framed_emitExpression (expected : Ty) (e : Expression) :
    Emit.Framed R (ctx.emitExpression scope expected e) := by
  obtain ⟨first, steps, stop⟩ := e
  unfold emitExpression
  exact .bind (framed_emitTerm expected first) fun value => framed_emitSteps expected value steps

theorem framed_emitArguments (total close : Nat) (types : List Ty) (arguments : List Argument) :
    Emit.Framed R (ctx.emitArguments scope total close types arguments) := by
  cases arguments with
  | nil =>
    cases types with
    | nil => unfold emitArguments; exact .pure _
    | cons ty types => unfold emitArguments; exact .refuse _ _
  | cons argument rest =>
    obtain ⟨label, start, value⟩ := argument
    cases types with
    | nil => unfold emitArguments; exact .refuse _ _
    | cons ty types =>
      unfold emitArguments
      exact .bind (framed_emitExpression ty value) fun _ =>
        .bind (framed_emitArguments total close types rest) fun _ => .pure _

end

theorem framed_emitAssign {name : String} (hname : P name) (stop : Nat) (value : Expression) :
    Emit.Framed R (ctx.emitAssign scope name stop value) := by
  refine .bind (.check _ _) fun found => .bind (framed_emitExpression _ value) ?_
  intro result
  split
  · exact .bind (.build (framed_store _ _)) fun _ => .pure _
  · split
    · exact .bind (framed_spill _ (by rintro _ ⟨⟩; exact hname) _) fun _ => .pure _
    · exact .refuse _ _

theorem framed_emitReturn (value : Option Expression) (start : Nat) :
    Emit.Framed R (ctx.emitReturn scope value start) := by
  unfold emitReturn
  split
  · exact .build (framed_ret _)
  · exact .bind (.report _) fun _ => .build (framed_ret _)
  · exact .refuse _ _
  · exact .bind (framed_emitExpression _ _) fun _ => .build (framed_ret _)

theorem framed_emitStatement {s : Statement} (hs : s.Binds P) :
    Emit.Framed R (ctx.emitStatement scope s) := by
  cases s with
  | ret value start => exact .bind (framed_emitReturn value start) fun _ => .pure _
  | cond stop condition thenBlock elseBlock => exact .refuse _ _
  | call callee stop arguments close =>
    exact .bind (framed_callFunction fun _ => framed_emitArguments _ _ _ _).discard
      fun _ => .pure _
  | methodCall target member stop arguments close =>
    exact .bind (framed_callMethod fun _ => framed_emitArguments _ _ _ _).discard
      fun _ => .pure _
  | assignField target member stop value =>
    exact .bind (.check _ _) fun _ => .bind (.check _ _) fun _ =>
      .bind (framed_fieldsAddress _ _) fun _ => .bind (framed_emitExpression _ value) fun _ =>
        .bind (.build (framed_fieldAddr _ _)) fun _ =>
          .bind (.build (framed_store _ _)) fun _ => .pure _
  | declare name typeName stop value =>
    exact .bind (.check _ _) fun _ => .bind (.check _ _) fun _ =>
      .bind (.build (framed_alloca _ _ (by rintro _ ⟨⟩; exact hs))) fun _ =>
        .bind (framed_emitExpression _ value) fun _ => .bind (.build (framed_store _ _)) fun _ => .pure _
  | assign name stop value => exact .bind (framed_emitAssign hs _ _) fun _ => .pure _

theorem framed_emitLines (close : Nat) (scope : Scope IR.Value) {lines : List Line}
    (hlines : ∀ line ∈ lines, line.Binds P) : Emit.Framed R (ctx.emitLines close scope lines) := by
  induction lines generalizing scope with
  | nil => exact .refuse _ _
  | cons line rest ih =>
    obtain ⟨start, statement⟩ := line
    obtain ⟨hstatement, hrest⟩ := List.forall_mem_cons.mp hlines
    refine .bind (framed_emitStatement hstatement) ?_
    intro after
    cases after with
    | some scope => exact ih scope hrest
    | none =>
      dsimp only
      clear ih hlines hrest
      induction rest with
      | nil => exact .pure _
      | cons line rest ih =>
        obtain ⟨start, statement⟩ := line
        exact .bind (.report _) fun _ => ih

theorem framed_bindParameters (function : IR.FunctionId) {parameters : List (String × Ty)}
    (hparameters : ∀ p ∈ parameters, P p.1) (index : Nat) (scope : Scope IR.Value) :
    Emit.Framed R (bindParameters function index scope parameters) := by
  induction parameters generalizing index scope with
  | nil => exact .pure _
  | cons parameter rest ih =>
    obtain ⟨name, ty⟩ := parameter
    obtain ⟨hname, hrest⟩ := List.forall_mem_cons.mp hparameters
    refine .bind (.build (framed_param _ _)) fun value => .bind ?_ fun _ => ih hrest _ _
    unfold parameterStorage
    split
    · exact .bind (framed_spill _ (by rintro _ ⟨⟩; exact hname) _) fun _ => .pure _
    · exact .pure _

theorem framed_emitBlockAt (source : List UInt8) (start : Nat) :
    Emit.Framed R (ctx.emitBlockAt scope source start) := by
  unfold emitBlockAt
  split
  · rename_i block c hblock
    have hbinds := Scan.binds_block hR.word _ _ _ hblock
    obtain ⟨lines, close⟩ := block
    exact framed_emitLines close scope hbinds
  · exact .refuse _ _

end Framed

/-! ## Whole bodies -/

theorem framed_emitOpened {P : String → Prop} {R : IR.Builder → IR.Builder → Prop}
    [IR.Builder.Frame P R] (declarations : Declarations) (source : List UInt8) {body : PendingBody}
    (hbody : ∀ p ∈ body.parameters, P p.1) :
    Emit.Framed R (emitOpened declarations source body) :=
  .bind (framed_bindParameters _ hbody _ _) fun _ => framed_emitBlockAt _ _

theorem amends_emitOpened (declarations : Declarations) (source : List UInt8) (body : PendingBody) :
    Emit.Amends (emitOpened declarations source body) :=
  framed_emitOpened declarations source fun _ _ => trivial

end BodyContext

end Straightline
