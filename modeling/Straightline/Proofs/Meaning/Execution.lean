import Straightline.Proofs.Meaning.Agreement

/-!
# Instructions that follow a run

A body is executed beside its evaluation. What stays the same meanwhile is an `Activation`; what
changes, besides the memory that stands for the store, is a `Point`: the results so far and the slots of
the frame. `Follows` says that a stretch of instructions does to the memory what a run does to the
store. Stretches compose by appending, as runs do by sequencing, and there is one lemma for each
instruction that is emitted.
-/

set_option autoImplicit false

namespace Straightline

namespace IR

section Results

variable {results results' results'' : Results} {n : Nat} {d : Option Datum}

/-- Every result that is there stays what it is. -/
def Results.Le (results results' : Results) : Prop :=
  ∀ id d, results id = some d → results' id = some d

/-- No instruction from number `n` on has a result. -/
def Results.Unset (results : Results) (n : Nat) : Prop := ∀ id, n ≤ id → results id = Option.none

namespace Results

theorem Le.refl (results : Results) : results.Le results := fun _ _ h => h

theorem Le.trans (h : results.Le results') (h' : results'.Le results'') : results.Le results'' :=
  fun id d hd => h' id d (h id d hd)

theorem unset_none (n : Nat) : Results.none.Unset n := fun _ _ => rfl

theorem set_self : results.set n d n = d := if_pos rfl

theorem Unset.le_set (h : results.Unset n) : results.Le (results.set n d) := by
  intro id d' hid
  have hne : id ≠ n := by
    rintro rfl
    rw [h id (Nat.le_refl _)] at hid
    cases hid
  unfold set
  rw [if_neg hne]
  exact hid

theorem Unset.set (h : results.Unset n) : (results.set n d).Unset (n + 1) := by
  intro id hid
  unfold Results.set
  rw [if_neg (Nat.ne_of_gt hid)]
  exact h id (Nat.le_of_succ_le hid)

end Results

variable {params : List Datum} {value : Value}

theorem operand_le {d : Datum} (h : results.Le results')
    (hvalue : operand params results value = some d) :
    operand params results' value = some d := by
  obtain ⟨source, ty⟩ := value
  cases source with
  | inst id => exact h id d hvalue
  | param index => exact hvalue
  | const c => exact hvalue
  | global index => exact hvalue

end Results

section Sequence

variable {entry : Entry} {params : List Datum} {results : Results}

theorem step_of_computes {inst : Inst} (h : inst.op.isRet = false) :
    step entry params results inst
      = (do
        let result ← compute entry params results inst.ty inst.op
        return .next (results.set inst.id result)) := by
  unfold step
  cases hop : inst.op <;> first | rfl | (rw [hop] at h; cases h)

/-- An instruction that computes is one step on the way. -/
theorem runInsts_of_computes {inst : Inst} {rest : List Inst} {m n : Memory} {d : Option Datum}
    (hop : inst.op.isRet = false)
    (h : compute entry params results inst.ty inst.op m = .ok d n) :
    runInsts entry params results (inst :: rest) m
      = runInsts entry params (results.set inst.id d) rest n := by
  simp only [runInsts, step_of_computes hop, bind_assoc]
  exact bind_of_ok h

theorem runInsts_append (insts more : List Inst) :
    runInsts entry params results (insts ++ more)
      = (do
        let progress ← runInsts entry params results insts
        match progress with
        | .next results => runInsts entry params results more
        | .returned value => return .returned value) := by
  induction insts generalizing results with
  | nil => rfl
  | cons inst rest ih =>
    simp only [List.cons_append, runInsts, bind_assoc]
    congr 1
    funext progress
    cases progress with
    | next results => exact ih
    | returned value => rfl

end Sequence

end IR

namespace Meaning

open IR (Inst Datum Memory Results operand runInsts)

/-- What is fixed while a body is evaluated and executed: what calls do, the arguments, and the slots
of the frames below. -/
structure Activation where
  calls : Calls
  entry : IR.Entry
  params : List Datum
  below : List (Option Datum)

/-- Calls do the same on both sides, whatever the arguments, the store and the slots that are open. -/
def Calls.Agree (calls : Calls) (entry : IR.Entry) : Prop :=
  ∀ id args s stack, Simulates
    (fun r s' d m => d = r.map Value.datum ∧ m = s'.memory stack)
    (calls id args s) (entry id (Value.data args) (s.memory stack))

/-- A function of the module that has a result gives one. -/
def Calls.Answer (calls : Calls) (m : IR.Module) : Prop :=
  ∀ id f, m.function? id = some f → f.ret.isVoid = false →
    ∀ args, Ensures (calls id args) fun _ r _ => r.isSome = true

/-- How far an execution has come. -/
structure Point where
  results : Results
  frame : List (Option Datum)

namespace Activation

variable {act : Activation} {α β : Type}

def memory (act : Activation) (frame : List (Option Datum)) (s : Store) : Memory :=
  s.memory (act.below ++ frame)

/-- The address of slot `k` of the frame. -/
def slot (act : Activation) (k : Nat) : IR.Address := ⟨.slot (act.below.length + k), []⟩

section Slots

variable {frame : List (Option Datum)} {s : Store} {k index : Nat} {d : Datum} {v w : Value}

theorem cell?_slot : (act.memory frame s).cell? (act.slot k).base = frame[k]? := by
  change (act.below ++ frame)[act.below.length + k]? = _
  rw [List.getElem?_append_right (Nat.le_add_right _ _), Nat.add_sub_cancel_left]

theorem set_slot :
    (act.memory frame s).set d (act.slot k).base = act.memory (frame.set k (some d)) s := by
  have hset : (act.below ++ frame).set (act.below.length + k) (some d)
      = act.below ++ frame.set k (some d) := by
    rw [List.set_append_right _ _ (Nat.le_add_right _ _), Nat.add_sub_cancel_left]
  exact congrArg (Memory.mk _ _) hset

theorem load?_slot (h : frame[k]? = some (some d)) :
    (act.memory frame s).load? (act.slot k) = some d := by
  unfold Memory.load?
  rw [cell?_slot, h]
  rfl

theorem load?_slotField (h : frame[k]? = some (some v.datum)) :
    (act.memory frame s).load? ⟨(act.slot k).base, [index]⟩
      = (v.field? index).map Value.datum := by
  unfold Memory.load?
  rw [cell?_slot, h]
  exact at?_datum

theorem store?_slot (h : k < frame.length) :
    (act.memory frame s).store? (act.slot k) d = some (act.memory (frame.set k (some d)) s) := by
  unfold Memory.store?
  rw [cell?_slot, List.getElem?_eq_getElem h]
  exact congrArg some set_slot

theorem store?_slotField (h : frame[k]? = some (some v.datum)) :
    (act.memory frame s).store? ⟨(act.slot k).base, [index]⟩ w.datum
      = (v.setField? index w).map fun v' => act.memory (frame.set k (some v'.datum)) s := by
  unfold Memory.store?
  rw [cell?_slot, h]
  simp only [Option.bind_eq_bind, Option.bind_some, put?_datum]
  cases v.setField? index w with
  | none => rfl
  | some v' => exact congrArg some set_slot

end Slots

/-- From `pt` on, where `insts` were executed, the instructions `more` do what `run` does, and `R`
relates its value to where they lead. -/
def Follows (act : Activation) (pt : Point) (insts more : List Inst) (run : Run α)
    (R : α → Point → Prop) : Prop :=
  ∀ s, Simulates
    (fun a s' progress m => ∃ pt' : Point, progress = .next pt'.results ∧
      m = act.memory pt'.frame s' ∧ pt.results.Le pt'.results ∧
      pt'.results.Unset (insts ++ more).length ∧ R a pt')
    (run s) (runInsts act.entry act.params pt.results more (act.memory pt.frame s))

namespace Follows

variable {pt : Point} {insts more more' : List Inst} {run : Run α} {k : α → Run β}
  {R R' : α → Point → Prop} {S : β → Point → Prop}

theorem imp (h : act.Follows pt insts more run R)
    (hR : ∀ a pt', pt.results.Le pt'.results → R a pt' → R' a pt') :
    act.Follows pt insts more run R' := by
  refine fun s => (h s).imp ?_
  intro a s' progress m h
  rcases h with ⟨pt', hprogress, hm, hle, hunset, ha⟩
  exact ⟨pt', hprogress, hm, hle, hunset, hR a pt' hle ha⟩

theorem pure {a : α} (hunset : pt.results.Unset insts.length) (h : R a pt) :
    act.Follows pt insts [] (pure a) R :=
  fun _ => ⟨pt, rfl, rfl, .refl _, by rwa [List.append_nil], h⟩

theorem bind (h : act.Follows pt insts more run R)
    (hk : ∀ a pt', pt.results.Le pt'.results → pt'.results.Unset (insts ++ more).length → R a pt' →
      act.Follows pt' (insts ++ more) more' (k a) S) :
    act.Follows pt insts (more ++ more') (run >>= k) S := by
  intro s
  rw [IR.runInsts_append]
  refine (h s).bind ?_
  intro a s' _ _ h
  rcases h with ⟨pt', rfl, rfl, hle, hunset, ha⟩
  refine (hk a pt' hle hunset ha s').imp ?_
  intro b s'' progress m h
  rcases h with ⟨pt'', hprogress, hm, hle', hunset', hb⟩
  refine ⟨pt'', hprogress, hm, hle.trans hle', ?_, hb⟩
  rwa [← List.append_assoc]

/-- Instructions to which nothing in the run corresponds. -/
theorem silent {Q : Unit → Point → Prop} (h : act.Follows pt insts more (Pure.pure ()) Q)
    (hk : ∀ pt', pt.results.Le pt'.results → pt'.results.Unset (insts ++ more).length → Q () pt' →
      act.Follows pt' (insts ++ more) more' run R) :
    act.Follows pt insts (more ++ more') run R :=
  bind (k := fun _ => run) h fun _ => hk

/-- An instruction that computes what the run does. -/
theorem one {ty : IRType} {op : IR.Op} (hop : op.isRet = false) (hunset : pt.results.Unset insts.length)
    (h : ∀ s, Simulates
      (fun a s' d m => ∃ frame', m = act.memory frame' s' ∧ R a ⟨pt.results.set insts.length d, frame'⟩)
      (run s) (IR.compute act.entry act.params pt.results ty op (act.memory pt.frame s))) :
    act.Follows pt insts [⟨insts.length, ty, op⟩] run R := by
  intro s
  rw [← bind_pure run]
  have hstep : (⟨insts.length, ty, op⟩ : Inst).op.isRet = false := hop
  simp only [runInsts, IR.step_of_computes hstep, bind_assoc]
  refine (h s).bind ?_
  intro a s' d m h
  rcases h with ⟨frame', rfl, ha⟩
  refine ⟨⟨pt.results.set insts.length d, frame'⟩, rfl, rfl, hunset.le_set, ?_, ha⟩
  rw [List.length_append]
  exact hunset.set

end Follows

/-! ## Instructions -/

/-- The frame is as at `pt`, and `value` has the representation `d`. -/
abbrev Gives (act : Activation) (pt : Point) (value : IR.Value) (d : Datum) (pt' : Point) : Prop :=
  pt'.frame = pt.frame ∧ operand act.params pt'.results value = some d

section Instructions

variable {pt : Point} {insts : List Inst} {ty : IRType} {ptr value : IR.Value} {a : IR.Address}

theorem follows_load {run : Run Value} (f : Store → Option Value)
    (hunset : pt.results.Unset insts.length) (hptr : operand act.params pt.results ptr = some (.ptr a))
    (hrun : ∀ s, run s = known (f s) s)
    (hload : ∀ s, (act.memory pt.frame s).load? a = (f s).map Value.datum) :
    act.Follows pt insts [⟨insts.length, ty, .load ptr⟩] run fun v pt' =>
      act.Gives pt ⟨.inst insts.length, ty⟩ v.datum pt' := by
  refine .one rfl hunset ?_
  intro s
  have hcompute : IR.compute act.entry act.params pt.results ty (.load ptr)
      (act.memory pt.frame s) = known ((f s).map fun v => some v.datum) (act.memory pt.frame s) := by
    simp only [IR.compute, hptr, known_bind, IR.Exec.load, IR.Exec.address, pure_bind]
    change (known ((act.memory pt.frame s).load? a) >>= fun d => pure (some d)) _ = _
    rw [hload]
    cases f s <;> rfl
  rw [hrun, hcompute]
  exact .known fun v _ => ⟨pt.frame, rfl, rfl, IR.Results.set_self⟩

/-- Storing changes the store, the frame or both to what the run makes of them. -/
theorem follows_store {run : Run Unit} (f : Store → Option Store)
    (frame' : List (Option Datum)) {d : Datum} (hunset : pt.results.Unset insts.length)
    (hptr : operand act.params pt.results ptr = some (.ptr a))
    (hvalue : operand act.params pt.results value = some d)
    (hrun : ∀ s, run s = (known (f s) >>= fun s' => set s') s)
    (hstore : ∀ s, (act.memory pt.frame s).store? a d = (f s).map (act.memory frame')) :
    act.Follows pt insts [⟨insts.length, ty, .store value ptr⟩] run fun _ pt' => pt'.frame = frame' := by
  refine .one rfl hunset ?_
  intro s
  have hcompute : IR.compute act.entry act.params pt.results ty (.store value ptr)
      (act.memory pt.frame s)
        = (known ((f s).map (act.memory frame')) >>= fun m => do set m; return none)
            (act.memory pt.frame s) := by
    simp only [IR.compute, hptr, hvalue, known_bind, IR.Exec.store, IR.Exec.address, pure_bind]
    rw [← hstore]
    simp only [bind_assoc]
    rfl
  rw [hrun, hcompute]
  cases f s with
  | none => exact rfl
  | some s' => exact ⟨frame', rfl, rfl⟩

theorem follows_fieldAddr (base : IR.Base) {index : Nat} (hunset : pt.results.Unset insts.length)
    (hptr : operand act.params pt.results ptr = some (.ptr ⟨base, []⟩)) :
    act.Follows pt insts [⟨insts.length, ty, .fieldAddr ptr index⟩] (pure ()) fun _ pt' =>
      act.Gives pt ⟨.inst insts.length, ty⟩ (.ptr ⟨base, [index]⟩) pt' := by
  refine .one rfl hunset ?_
  intro s
  simp only [IR.compute, hptr, known_bind, IR.Exec.fieldAddr, IR.Exec.address, pure_bind]
  exact ⟨pt.frame, rfl, rfl, IR.Results.set_self⟩

/-- The address of a field of a value is one only if the value is a model. -/
theorem follows_target {v : Value} {index : Nat} (hunset : pt.results.Unset insts.length)
    (hptr : operand act.params pt.results ptr = some v.datum) :
    act.Follows pt insts [⟨insts.length, ty, .fieldAddr ptr index⟩] (target v) fun ref pt' =>
      act.Gives pt ⟨.inst insts.length, ty⟩ (.ptr ⟨ref.base, [index]⟩) pt' := by
  refine .one rfl hunset ?_
  intro s
  simp only [IR.compute, hptr, known_bind, IR.Exec.fieldAddr]
  cases v with
  | int value => exact rfl
  | struct fields => exact rfl
  | model ref => exact ⟨pt.frame, rfl, rfl, IR.Results.set_self⟩

theorem follows_alloca {name : Option String} {of : IRType} (hunset : pt.results.Unset insts.length) :
    act.Follows pt insts [⟨insts.length, ty, .alloca of name⟩] (pure ()) fun _ pt' =>
      pt'.frame = pt.frame ++ [none] ∧
        operand act.params pt'.results ⟨.inst insts.length, ty⟩ = some (.ptr (act.slot pt.frame.length)) := by
  refine .one rfl hunset fun s => ⟨pt.frame ++ [none], ?_, rfl, ?_⟩
  · simp [memory, Store.memory]
  · refine IR.Results.set_self.trans ?_
    simp [slot, memory, Store.memory]

theorem follows_aggregate {fields : List IR.Value} {values : List Value}
    (hunset : pt.results.Unset insts.length)
    (hfields : fields.mapM (operand act.params pt.results) = some (Value.data values)) :
    act.Follows pt insts [⟨insts.length, ty, .aggregate fields⟩] (pure ()) fun _ pt' =>
      act.Gives pt ⟨.inst insts.length, ty⟩ (Value.datum (.struct values)) pt' := by
  refine .one rfl hunset ?_
  intro s
  simp only [IR.compute, hfields, known_bind]
  exact ⟨pt.frame, rfl, rfl, IR.Results.set_self⟩

/-- Storage is allocated for a model and given its contents. -/
theorem follows_make {v : Value} {of ty' : IRType} (hunset : pt.results.Unset insts.length)
    (hvalue : operand act.params pt.results value = some v.datum) :
    act.Follows pt insts
      [⟨insts.length, ty, .heapAlloc of⟩,
        ⟨insts.length + 1, ty', .store value ⟨.inst insts.length, ty⟩⟩] (make v)
      fun model pt' => act.Gives pt ⟨.inst insts.length, ty⟩ model.datum pt' := by
  intro s
  have hallocated : operand act.params
      (pt.results.set insts.length (some (.ptr ⟨.heap s.models.length, []⟩))) ⟨.inst insts.length, ty⟩
        = some (.ptr ⟨.heap s.models.length, []⟩) := IR.Results.set_self
  have hvalue' := IR.operand_le (d := v.datum) (hunset.le_set (d := some
    (.ptr ⟨.heap s.models.length, []⟩))) hvalue
  have hlength : (cells s.models).length = s.models.length := List.length_map ..
  have hstored : Memory.store?
      ⟨cells s.globals, cells s.models ++ [none], act.below ++ pt.frame⟩
      ⟨.heap s.models.length, []⟩ v.datum
        = some (act.memory pt.frame { s with models := s.models ++ [v] }) := by
    simp [Memory.store?, Memory.cell?, Memory.set, memory, Store.memory, cells,
      List.set_append_right]
  rw [IR.runInsts_of_computes (d := some (.ptr ⟨.heap s.models.length, []⟩))
      (n := ⟨cells s.globals, cells s.models ++ [none], act.below ++ pt.frame⟩) rfl (by
        rw [← hlength]
        rfl),
    IR.runInsts_of_computes (d := none) rfl (by
      simp only [IR.compute, hallocated, hvalue', known_bind, IR.Exec.store, IR.Exec.address,
        pure_bind, bind_assoc]
      exact (bind_of_ok rfl).trans (by rw [hstored]; rfl))]
  refine ⟨⟨_, pt.frame⟩, rfl, rfl, hunset.le_set.trans hunset.set.le_set, ?_, rfl, ?_⟩
  · rw [List.length_append]
    exact hunset.set.set
  · exact hunset.set.le_set _ _ IR.Results.set_self

theorem follows_operator {operator : Operator} {of : Ty} {op : IR.Op} {v w : Value}
    {lhs rhs : IR.Value} (hunset : pt.results.Unset insts.length)
    (hlhs : operand act.params pt.results lhs = some v.datum)
    (hrhs : operand act.params pt.results rhs = some w.datum) (hty : ty = .int (width of))
    (hop : op = match operator with | .add => .add lhs rhs | .sub => .sub lhs rhs) :
    act.Follows pt insts [⟨insts.length, ty, op⟩] (combine of operator v w) fun result pt' =>
      act.Gives pt ⟨.inst insts.length, ty⟩ result.datum pt' := by
  have hcompute : ∀ m, IR.compute act.entry act.params pt.results ty op m
      = (IR.Exec.arithmetic ty (apply operator) v.datum w.datum >>= fun d => pure (some d)) m := by
    subst hop
    cases operator <;> simp only [IR.compute, hlhs, hrhs, known_bind] <;> intro m <;> rfl
  have hret : op.isRet = false := by
    subst hop
    cases operator <;> rfl
  refine .one hret hunset ?_
  intro s
  rw [hcompute]
  subst hty
  cases v <;> cases w <;> first | exact rfl | exact ⟨pt.frame, rfl, rfl, IR.Results.set_self⟩

end Instructions

/-! ## Calls -/

section Call

variable {pt : Point} {insts : List Inst} {ty : IRType}

theorem follows_call {callee : IR.FunctionId} {args : List IR.Value} {values : List Value}
    {Q : Option Value → Prop} (hunset : pt.results.Unset insts.length)
    (hargs : args.mapM (operand act.params pt.results) = some (Value.data values))
    (hagree : act.calls.Agree act.entry)
    (hcalls : Ensures (act.calls callee values) fun _ r _ => Q r) :
    act.Follows pt insts [⟨insts.length, ty, .call callee args⟩] (act.calls callee values) fun r pt' =>
      pt'.frame = pt.frame ∧
        operand act.params pt'.results ⟨.inst insts.length, ty⟩ = r.map Value.datum ∧ Q r := by
  refine .one rfl hunset ?_
  intro s
  simp only [IR.compute, hargs, known_bind]
  refine ((hagree callee values s _).ensures hcalls).imp ?_
  intro r s' d m h
  rcases h with ⟨⟨rfl, rfl⟩, hr⟩
  exact ⟨pt.frame, rfl, rfl, IR.Results.set_self, hr⟩

end Call

end Activation

end Meaning

end Straightline
