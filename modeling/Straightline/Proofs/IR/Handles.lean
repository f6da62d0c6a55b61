import Straightline.Proofs.IR.Appending
import Straightline.Proofs.IR.Origins
import Straightline.Proofs.IR.Sessions
import Straightline.Proofs.Meaning.Computed

/-!
# Values where they belong

A value that is given to an instruction of the function for which it was handed out is in scope there,
and so is the address of a global that is still in the module, whatever else was asked of the builder
(`Session.operands_in_scope`). A value that is used elsewhere may not be, and passes the check all the same
(`Session.verify_misses_misplaced`).

What carries this from command to command is that a session vouches for its values (`Session.Sound`): each
refers to something in the declaration that it was handed out for, for as long as that declaration is in
the module. A rollback may take the declaration away and give its place to another, but not its number.
-/

set_option autoImplicit false

namespace Straightline.IR

/-! ## Adding an instruction -/

/-- `b'` is `b` after an instruction with these operands was added to the function that is open, or after
nothing was added; the answer is the result of that instruction, or else a constant. -/
inductive Builder.Adds (b : Builder) (operands : List Value) : Value → Builder → Prop where
  | added {id : FunctionId} {f : Function} {ty : IRType} {op : Op} : b.current = some id →
      b.module.function? id = some f → f.blocks ≠ [] → op.operands = operands →
      Adds b operands ⟨.inst f.instCount, ty⟩
        { b with
          module :=
            { b.module with
              functions :=
                b.module.functions.modify id fun f' => f'.append ⟨f.instCount, ty, op⟩ } }
  | kept {c : Constant} {ty : IRType} {b' : Builder} : b'.module = b.module →
      b'.current = b.current → Adds b operands ⟨.const c, ty⟩ b'

namespace Build

/-- The step adds one instruction with these operands, or none. -/
def Adding (operands : List Value) (step : Build Value) : Prop :=
  ∀ b : Builder, b.Adds operands (step b).1 (step b).2

theorem Emits.adding {op : Op} {step : Build Value} (h : Emits op step) : Adding op.operands step := by
  intro b
  have hstep := h b
  revert hstep
  generalize (step b).1 = v
  generalize (step b).2 = b'
  intro hstep
  cases hstep with
  | refused => exact .kept rfl rfl
  | @appended inst _ hop happended =>
    obtain ⟨_, ty, op'⟩ := inst
    cases happended with
    | @intro id f earlier last hcurrent hf hblocks hid =>
      cases hop
      cases hid
      rw [← Function.modify_append hf hblocks]
      exact .added hcurrent hf (by simp [hblocks]) rfl

theorem adding_emit (ty : IRType) (op : Op) : Adding op.operands (emit ty op) := (emits_emit ty op).adding

theorem adding_load (ptr : Value) : Adding [ptr] (load ptr) := (emits_load ptr).adding

theorem adding_call (callee : FunctionId) (args : List Value) : Adding args (call callee args) :=
  (emits_call callee args).adding

theorem adding_fieldAddr (ptr : Value) (index : Nat) : Adding [ptr] (fieldAddr ptr index) :=
  (emits_fieldAddr ptr index).adding

theorem adding_struct (ty : IRType) (fields : List Value) : Adding fields (struct ty fields) := by
  unfold struct
  split
  · exact fun b => .kept rfl rfl
  · exact adding_emit _ (.aggregate fields)

end Build

/-! ## What a session knows -/

/-- Numbers in rising order, below the next one that is free. -/
def Numbered (serials : List Nat) (next : Nat) : Prop := (serials ++ [next]).Pairwise (· < ·)

namespace Numbered

variable {serials : List Nat} {next : Nat}

theorem lt (h : Numbered serials next) {i serial : Nat} (hi : serials[i]? = some serial) :
    serial < next :=
  (List.pairwise_append.mp h).2.2 _ (List.mem_of_getElem? hi) _ (List.mem_singleton_self _)

theorem take (h : Numbered serials next) (count : Nat) : Numbered (serials.take count) next :=
  h.sublist ((List.take_sublist _ _).append_right _)

theorem later (h : Numbered serials next) : Numbered serials (next + 1) := by
  refine List.pairwise_append.mpr ⟨(List.pairwise_append.mp h).1, List.pairwise_singleton _ _, ?_⟩
  intro serial hserial last hlast
  obtain ⟨i, hi⟩ := List.getElem?_of_mem hserial
  rw [List.mem_singleton.mp hlast]
  exact Nat.lt_succ_of_lt (h.lt hi)

theorem push (h : Numbered serials next) : Numbered (serials ++ [next]) (next + 1) := by
  refine List.pairwise_append.mpr ⟨h, List.pairwise_singleton _ _, ?_⟩
  intro serial hserial last hlast
  rw [List.mem_singleton.mp hlast]
  rcases List.mem_append.mp hserial with hserial | hserial
  · obtain ⟨i, hi⟩ := List.getElem?_of_mem hserial
    exact Nat.lt_succ_of_lt (h.lt hi)
  · rw [List.mem_singleton.mp hserial]
    exact Nat.lt_succ_self next

/-- A number is that of one place. -/
theorem place_eq (h : Numbered serials next) {i j serial : Nat} (hi : serials[i]? = some serial)
    (hj : serials[j]? = some serial) : i = j := by
  have hnodup : serials.Nodup := (List.pairwise_append.mp h).1.imp Nat.ne_of_lt
  exact (List.getElem?_inj (List.getElem?_eq_some_iff.mp hi).1 hnodup).mp (hi.trans hj.symm)

end Numbered

namespace Session

/-- The function at a place, with its history. -/
def Has (s : Session) (id : FunctionId) (f : Function) (h : History) : Prop :=
  s.builder.module.functions[id]? = some f ∧ s.functions[id]? = some h

/-- What a handle refers to is found in the declaration that it was handed out for, for as long as that
is there. -/
def Vouches (s : Session) (h : Handed) : Prop :=
  ∀ serial, h.home = some serial → serial < s.declared ∧
    match h.value.source with
    | .param index => ∀ id f hist, s.Has id f hist → hist.serial = serial →
        f.params[index]? = some h.value.ty
    | .inst n => ∀ id f hist, s.Has id f hist → hist.serial = serial →
        ∃ inst, f.insts[n]? = some inst ∧ inst.ty = h.value.ty
    | .global index => ∀ place, s.globals[place]? = some serial → place = index ∧
        ∃ g, s.builder.module.globals[place]? = some g ∧ h.value.ty = .ptr g.ty
    | .const _ => True

/-- `s'` has come from `s`: what was declared before and is still there has only grown. -/
structure Follows (s s' : Session) : Prop where
  declared : s.declared ≤ s'.declared
  handed : s.handed <+: s'.handed
  functions : ∀ id f' h', s'.Has id f' h' → h'.serial < s.declared →
    ∃ f h, s.Has id f h ∧ h.serial = h'.serial ∧ f'.params = f.params ∧ f.insts <+: f'.insts
  globals : ∀ place serial : Nat, s'.globals[place]? = some serial → serial < s.declared →
    s.globals[place]? = some serial ∧
      s'.builder.module.globals[place]? = s.builder.module.globals[place]?

theorem Vouches.follows {s s' : Session} {h : Handed} (hv : s.Vouches h) (hfollows : s.Follows s') :
    s'.Vouches h := by
  intro serial hserial
  obtain ⟨hlt, hv⟩ := hv serial hserial
  refine ⟨Nat.lt_of_lt_of_le hlt hfollows.declared, ?_⟩
  split at hv
  · intro id f' h' hhas heq
    obtain ⟨f, h, hhas, hsame, hparams, _⟩ := hfollows.functions id f' h' hhas (heq ▸ hlt)
    rw [hparams]
    exact hv id f h hhas (hsame.trans heq)
  · intro id f' h' hhas heq
    obtain ⟨f, h, hhas, hsame, _, more, hmore⟩ := hfollows.functions id f' h' hhas (heq ▸ hlt)
    obtain ⟨inst, hinst, hty⟩ := hv id f h hhas (hsame.trans heq)
    refine ⟨inst, ?_, hty⟩
    rw [← hmore, List.getElem?_append_left (List.getElem?_eq_some_iff.mp hinst).1]
    exact hinst
  · intro place hplace
    obtain ⟨hbefore, hsame⟩ := hfollows.globals place serial hplace hlt
    rw [hsame]
    exact hv place hbefore
  · trivial

/-- The history of `f` tells what each of its instructions was given, and what of that is of `f` was
there before. -/
structure Tells (s : Session) (f : Function) (h : History) : Prop where
  count : h.used.length = f.insts.length
  numbers : ∀ (k : Nat) (inst : Inst), f.insts[k]? = some inst → inst.id = k
  used : ∀ (k : Nat) (inst : Inst) (used : List Handed), f.insts[k]? = some inst → h.used[k]? = some used →
    used.map Handed.value = inst.op.operands ∧
      ∀ given ∈ used, given ∈ s.handed ∧
        ∀ n, given.value.source = .inst n → given.home = some h.serial → n < k

theorem Tells.kept {s s' : Session} {f f' : Function} {h : History} (htells : s.Tells f h)
    (hhanded : s.handed <+: s'.handed) (hinsts : f'.insts = f.insts) : s'.Tells f' h where
  count := hinsts ▸ htells.count
  numbers := hinsts ▸ htells.numbers
  used := hinsts ▸ fun k inst used hinst hused =>
    (htells.used k inst used hinst hused).imp_right fun hgiven given hmem =>
      (hgiven given hmem).imp_left fun hin => hhanded.subset hin

/-- The session has noted everything, and knows what every value it handed out refers to. -/
structure Sound (s : Session) : Prop where
  functionCount : s.functions.length = s.builder.module.functions.length
  globalCount : s.globals.length = s.builder.module.globals.length
  serials : Numbered (s.functions.map History.serial) s.declared
  globalSerials : Numbered s.globals s.declared
  tells : ∀ id f h, s.Has id f h → s.Tells f h
  vouches : ∀ h ∈ s.handed, s.Vouches h

namespace Sound

variable {s s' : Session}

/-- Where functions keep their instructions, or are new, and globals stay, all that was known still
holds. -/
theorem kept (h : s.Sound) (hdeclared : s.declared ≤ s'.declared) (hhanded : s'.handed = s.handed)
    (hfunctions : ∀ id f' hist, s'.Has id f' hist →
      (∃ f, s.Has id f hist ∧ f'.params = f.params ∧ f'.insts = f.insts) ∨
        s.declared ≤ hist.serial ∧ hist.used = [] ∧ f'.insts = [])
    (hglobals : ∀ place serial : Nat, s'.globals[place]? = some serial → serial < s.declared →
      s.globals[place]? = some serial ∧
        s'.builder.module.globals[place]? = s.builder.module.globals[place]?)
    (hcount : s'.functions.length = s'.builder.module.functions.length)
    (hglobalCount : s'.globals.length = s'.builder.module.globals.length)
    (hserials : Numbered (s'.functions.map History.serial) s'.declared)
    (hglobalSerials : Numbered s'.globals s'.declared) : s'.Sound where
  functionCount := hcount
  globalCount := hglobalCount
  serials := hserials
  globalSerials := hglobalSerials
  tells := by
    intro id f' hist hhas
    rcases hfunctions id f' hist hhas with ⟨f, hhas, _, hinsts⟩ | ⟨_, hused, hinsts⟩
    · exact (h.tells id f hist hhas).kept (hhanded ▸ List.prefix_rfl) hinsts
    · refine ⟨by rw [hused, hinsts]; rfl, ?_, ?_⟩ <;> simp [hinsts]
  vouches := by
    intro given hgiven
    refine (h.vouches given (hhanded ▸ hgiven)).follows
      ⟨hdeclared, hhanded ▸ List.prefix_rfl, fun id f' hist hhas hlt => ?_, hglobals⟩
    rcases hfunctions id f' hist hhas with ⟨f, hhas, hparams, hinsts⟩ | ⟨hnew, _, _⟩
    · exact ⟨f, hist, hhas, rfl, hparams, hinsts ▸ List.prefix_rfl⟩
    · exact absurd hlt (Nat.not_lt.mpr hnew)

/-- Structures, defects and the function that is open do not matter. -/
theorem rebuild (h : s.Sound) {b : Builder}
    (hfunctions : b.module.functions = s.builder.module.functions)
    (hglobals : b.module.globals = s.builder.module.globals) : Sound { s with builder := b } :=
  h.kept (Nat.le_refl _) rfl
    (fun id f hist hhas => .inl ⟨f, ⟨hfunctions ▸ hhas.1, hhas.2⟩, rfl, rfl⟩)
    (fun place serial hplace _ => ⟨hplace, by rw [hglobals]⟩) (hfunctions ▸ h.functionCount)
    (hglobals ▸ h.globalCount) h.serials h.globalSerials

theorem hand (h : s.Sound) {given : Handed} (hgiven : s.Vouches given) :
    Sound { s with handed := s.handed ++ [given] } := by
  have hfollows : s.Follows { s with handed := s.handed ++ [given] } :=
    ⟨Nat.le_refl _, List.prefix_append _ _,
      fun id f hist hhas _ => ⟨f, hist, hhas, rfl, rfl, List.prefix_rfl⟩,
      fun place serial hplace _ => ⟨hplace, rfl⟩⟩
  refine ⟨h.functionCount, h.globalCount, h.serials, h.globalSerials, fun id f hist hhas =>
    (h.tells id f hist hhas).kept hfollows.handed rfl, fun other hother => ?_⟩
  rcases List.mem_append.mp hother with hother | hother
  · exact (h.vouches other hother).follows hfollows
  · rw [List.mem_singleton.mp hother]
    exact hgiven.follows hfollows

/-- A function is known by its number. -/
theorem has_eq (h : s.Sound) {id id' : FunctionId} {f f' : Function} {hist hist' : History}
    (hhas : s.Has id f hist) (hhas' : s.Has id' f' hist') (heq : hist'.serial = hist.serial) :
    id' = id ∧ f' = f ∧ hist' = hist := by
  have hserial {id : FunctionId} {f : Function} {hist : History} (hhas : s.Has id f hist) :
      (s.functions.map History.serial)[id]? = some hist.serial := by
    rw [List.getElem?_map, hhas.2, Option.map_some]
  obtain rfl := h.serials.place_eq (heq ▸ hserial hhas') (hserial hhas)
  exact ⟨rfl, Option.some.inj (hhas'.1.symm.trans hhas.1), Option.some.inj (hhas'.2.symm.trans hhas.2)⟩

/-- Each function of the module has its history. -/
theorem has (h : s.Sound) {id : FunctionId} {f : Function}
    (hf : s.builder.module.functions[id]? = some f) : ∃ hist, s.Has id f hist := by
  have hlt := (List.getElem?_eq_some_iff.mp hf).1
  exact ⟨_, hf, List.getElem?_eq_getElem (h.functionCount ▸ hlt)⟩

/-! ### Commands -/

theorem start (name : String) : (Session.start name).Sound where
  functionCount := rfl
  globalCount := rfl
  serials := List.pairwise_singleton _ _
  globalSerials := List.pairwise_singleton _ _
  tells := fun _ _ _ hhas => nomatch hhas.1
  vouches := fun _ hmem => nomatch hmem

theorem function (h : s.Sound) (name : String) (params : List IRType) (ret : IRType) :
    Sound { s with
      builder := (Build.declareFunction name params ret s.builder).2
      functions := s.functions ++ [{ serial := s.declared }]
      declared := s.declared + 1 } := by
  refine h.kept (Nat.le_succ _) rfl (fun id f' hist hhas => ?_)
    (fun place serial hplace _ => ⟨hplace, rfl⟩) ?_ h.globalCount ?_ h.globalSerials.later
  · obtain ⟨hf, hhist⟩ := hhas
    change (s.builder.module.functions ++ [⟨name, params, ret, []⟩])[id]? = some f' at hf
    rcases both_of_getElem?_concat h.functionCount hf hhist with hold | ⟨_, rfl, rfl⟩
    · exact .inl ⟨f', hold, rfl, rfl⟩
    · exact .inr ⟨Nat.le_refl _, rfl, rfl⟩
  · simp [Build.declareFunction, h.functionCount]
  · rw [List.map_append]
    exact h.serials.push

theorem entry (h : s.Sound) (id : FunctionId) :
    Sound { s with builder := (Build.openEntry id s.builder).2 } := by
  unfold Build.openEntry
  split
  · refine h.kept (Nat.le_refl _) rfl (fun id' f' hist hhas => .inl ?_)
      (fun place serial hplace _ => ⟨hplace, rfl⟩) (by simp [h.functionCount]) h.globalCount
      h.serials h.globalSerials
    obtain ⟨hf, hhist⟩ := hhas
    change (s.builder.module.functions.modify id _)[id']? = some f' at hf
    rw [List.getElem?_modify] at hf
    obtain ⟨f, hbefore, rfl⟩ := Option.map_eq_some_iff.mp hf
    refine ⟨f, ⟨hbefore, hhist⟩, ?_⟩
    split
    · exact ⟨rfl, f.insts_openBlock _⟩
    · exact ⟨rfl, rfl⟩
  · exact h.rebuild rfl rfl

theorem rollback (h : s.Sound) (c : Checkpoint) :
    Sound { s with
      builder := s.builder.rollback c
      functions := s.functions.take c.functions
      globals := s.globals.take c.globals } := by
  have hstays {α : Type} {l : List α} {count i : Nat} {x : α} (hx : (l.take count)[i]? = some x) :
      i < count ∧ l[i]? = some x := by
    rw [List.getElem?_take] at hx
    split at hx
    · exact ⟨‹_›, hx⟩
    · cases hx
  refine h.kept (Nat.le_refl _) rfl
    (fun id f hist hhas => .inl ⟨f, ⟨(hstays hhas.1).2, (hstays hhas.2).2⟩, rfl, rfl⟩)
    (fun place serial hplace _ => ⟨(hstays hplace).2, List.getElem?_take_of_lt (hstays hplace).1⟩)
    ?_ ?_ ?_ (h.globalSerials.take _)
  · simp [Builder.rollback, h.functionCount]
  · simp [Builder.rollback, h.globalCount]
  · rw [List.map_take]
    exact h.serials.take _

/-- A constant belongs nowhere. -/
theorem handFree (h : s.Sound) {v : Value} (hv : s.home? v = none) : (s.hand v).Sound :=
  h.hand fun serial hserial => by rw [hv] at hserial; cases hserial

theorem addGlobal (h : s.Sound) (name : String) (init : Value) :
    (s.addGlobal name init).Sound := by
  unfold Session.addGlobal Build.addGlobal
  cases init.constant? with
  | none =>
    refine (h.rebuild ?_ ?_).handFree ?_ <;> rfl
  | some c =>
    dsimp only
    have hnew : Sound { s with
        builder := { s.builder with
          module := { s.builder.module with
            globals := s.builder.module.globals ++ [⟨name, init.ty, c⟩] } }
        globals := s.globals ++ [s.declared]
        declared := s.declared + 1 } := by
      refine h.kept (Nat.le_succ _) rfl (fun id f hist hhas => .inl ⟨f, hhas, rfl, rfl⟩)
        (fun place serial hplace hlt => ?_) h.functionCount (by simp [h.globalCount])
        h.serials.later h.globalSerials.push
      rcases of_getElem?_concat hplace with hplace | ⟨_, rfl⟩
      · have hbefore := (List.getElem?_eq_some_iff.mp hplace).1
        exact ⟨hplace, List.getElem?_append_left (h.globalCount ▸ hbefore)⟩
      · exact absurd hlt (Nat.lt_irrefl _)
    refine hnew.hand fun serial hserial => ?_
    have hlast : (s.globals ++ [s.declared])[s.builder.module.globals.length]? = some s.declared := by
      simp [h.globalCount]
    obtain rfl : s.declared = serial := Option.some.inj (hlast.symm.trans hserial)
    refine ⟨Nat.lt_succ_self _, fun place hplace => ?_⟩
    obtain rfl := hnew.globalSerials.place_eq hplace hlast
    exact ⟨rfl, _, List.getElem?_concat_length, rfl⟩

/-- A step that adds nothing leaves no trace in the histories. -/
theorem perform_kept (h : s.Sound) {α : Type} {step : Build α} (used : List Handed)
    (hmodule : (step s.builder).2.module = s.builder.module) :
    s.perform used step = { s with builder := (step s.builder).2 } := by
  unfold Session.perform
  dsimp only
  split
  · rename_i id _
    congr 1
    refine List.ext_getElem? fun place => ?_
    rw [List.getElem?_modify]
    cases hhist : s.functions[place]? with
    | none => rfl
    | some hist =>
      have hlt : place < s.builder.module.functions.length :=
        h.functionCount ▸ (List.getElem?_eq_some_iff.mp hhist).1
      have hf := List.getElem?_eq_getElem hlt
      have hcount := (h.tells place _ hist ⟨hf, hhist⟩).count
      by_cases hid : id = place
      · subst hid
        simp [hmodule, Module.function?, hf, Function.instCount, History.note, hcount]
      · simp [hid]
  · rfl

end Sound

/-! ### A new instruction -/

/-- The session after an instruction, given `used`, was added to the function at a place. -/
def extend (s : Session) (id : FunctionId) (inst : Inst) (used : List Handed) : Session :=
  { s with
    builder :=
      { s.builder with
        module :=
          { s.builder.module with
            functions := s.builder.module.functions.modify id fun f => f.append inst } }
    functions := s.functions.modify id fun h => { h with used := h.used ++ [used] } }

section Extend

variable {s : Session} {id : FunctionId} {f : Function} {hist : History} {inst : Inst}
variable {used : List Handed}

theorem has_extend (hhas : s.Has id f hist) {id' : FunctionId} {f' : Function} {hist' : History} :
    (s.extend id inst used).Has id' f' hist' ↔
      id' = id ∧ f' = f.append inst ∧ hist' = { hist with used := hist.used ++ [used] } ∨
        id' ≠ id ∧ s.Has id' f' hist' := by
  unfold Has extend
  simp only [List.getElem?_modify]
  by_cases hid : id = id'
  · subst hid
    simp [hhas.1, hhas.2, eq_comm]
  · simp [hid, Ne.symm hid]

theorem serial_extend :
    (s.extend id inst used).functions.map History.serial = s.functions.map History.serial := by
  refine List.ext_getElem? fun place => ?_
  simp only [extend, List.getElem?_map, List.getElem?_modify]
  cases s.functions[place]? with
  | none => rfl
  | some hist => by_cases hid : id = place <;> simp [hid]

theorem Sound.perform_added (h : s.Sound) {α : Type} {step : Build α}
    (hcurrent : s.builder.current = some id) (hhas : s.Has id f hist) (hblocks : f.blocks ≠ [])
    (hstep : (step s.builder).2 = (s.extend id inst used).builder) :
    s.perform used step = s.extend id inst used := by
  have hf : ((step s.builder).2.module.function? id) = some (f.append inst) := by
    rw [hstep]
    exact ((has_extend hhas).mpr (.inl ⟨rfl, rfl, rfl⟩)).1
  have hcurrent' : (step s.builder).2.current = some id := by
    rw [hstep]
    exact hcurrent
  unfold perform
  simp only [hcurrent', hf, Option.elim_some, Function.instCount, f.insts_append inst hblocks,
    List.length_append, List.length_singleton]
  rw [hstep]
  unfold extend
  congr 1
  refine List.ext_getElem? fun place => ?_
  simp only [List.getElem?_modify]
  by_cases hid : id = place
  · subst hid
    simp [hhas.2, History.note, (h.tells id f hist hhas).count]
  · simp [hid]

/-- What is known of a function holds of it with one more instruction, as what that was given is vouched
for. -/
theorem Sound.extend (h : s.Sound) (hhas : s.Has id f hist) (hblocks : f.blocks ≠ [])
    (hinst : inst.id = f.instCount) (hused : ∀ given ∈ used, given ∈ s.handed)
    (hoperands : used.map Handed.value = inst.op.operands) : (s.extend id inst used).Sound := by
  have hinsts := f.insts_append inst hblocks
  have htells := h.tells id f hist hhas
  have hfollows : s.Follows (s.extend id inst used) := by
    refine ⟨Nat.le_refl _, List.prefix_rfl, fun id' f' hist' hhas' _ => ?_,
      fun place serial hplace _ => ⟨hplace, rfl⟩⟩
    rcases (has_extend hhas).mp hhas' with ⟨rfl, rfl, rfl⟩ | ⟨_, hhas'⟩
    · exact ⟨f, hist, hhas, rfl, rfl, hinsts ▸ List.prefix_append _ _⟩
    · exact ⟨f', hist', hhas', rfl, rfl, List.prefix_rfl⟩
  refine ⟨?_, h.globalCount, ?_, h.globalSerials, fun id' f' hist' hhas' => ?_,
    fun given hgiven => (h.vouches given hgiven).follows hfollows⟩
  · simp [Session.extend, h.functionCount]
  · rw [serial_extend]
    exact h.serials
  rcases (has_extend hhas).mp hhas' with ⟨rfl, rfl, rfl⟩ | ⟨_, hhas'⟩
  · refine ⟨by simp [hinsts, htells.count], fun k other hother => ?_,
      fun k other given hother hgiven => ?_⟩
    · rw [hinsts] at hother
      rcases of_getElem?_concat hother with hother | ⟨rfl, rfl⟩
      · exact htells.numbers k other hother
      · exact hinst
    · rw [hinsts] at hother
      rcases both_of_getElem?_concat htells.count hother hgiven with ⟨hother, hgiven⟩ | ⟨rfl, rfl, rfl⟩
      · exact htells.used k other given hother hgiven
      · refine ⟨hoperands, fun one hone => ⟨hused one hone, fun n hsource hhome => ?_⟩⟩
        have hvouches := (h.vouches one (hused one hone) _ hhome).2
        rw [hsource] at hvouches
        obtain ⟨_, hn, _⟩ := hvouches _ f hist hhas rfl
        exact (List.getElem?_eq_some_iff.mp hn).1
  · exact (h.tells id' f' hist' hhas').kept List.prefix_rfl rfl

end Extend

namespace Sound

variable {s : Session}

theorem handed_of_mapM {places : List Nat} {used : List Handed}
    (h : places.mapM (s.handed[·]?) = some used) : ∀ given ∈ used, given ∈ s.handed := by
  intro given hgiven
  obtain ⟨_, _, hplace⟩ := Option.exists_of_mem_mapM h hgiven
  exact List.mem_of_getElem? hplace

/-- A parameter that is not there belongs to no function. -/
theorem param (h : s.Sound) (id : FunctionId) (index : Nat) :
    Sound { s with handed := s.handed ++ [⟨(Build.param id index s.builder).1,
      match (s.builder.module.function? id).bind fun f => f.params[index]? with
      | some _ => s.functions[id]?.map History.serial
      | none => none⟩] } := by
  refine h.hand fun serial hserial => ?_
  cases hparam : (s.builder.module.function? id).bind fun f => f.params[index]? with
  | none =>
    rw [hparam] at hserial
    cases hserial
  | some ty =>
    obtain ⟨f, hf, hty⟩ := Option.bind_eq_some_iff.mp hparam
    obtain ⟨hist, hhas⟩ := h.has hf
    rw [hparam] at hserial
    simp only [hhas.2, Option.map_some, Option.some.injEq] at hserial
    subst hserial
    have hvalue : (Build.param id index s.builder).1 = ⟨.param index, ty⟩ := by
      simp only [Build.param, hparam]
    rw [hvalue]
    refine ⟨h.serials.lt (i := id) (by rw [List.getElem?_map, hhas.2]; rfl),
      fun id' f' hist' hhas' hsame => ?_⟩
    obtain ⟨_, rfl, _⟩ := h.has_eq hhas hhas' hsame
    exact hty

/-- A step that adds at most one instruction keeps what is known, and its answer is vouched for. -/
theorem perform (h : s.Sound) {α : Type} {step : Build α} {used : List Handed} {v : Value}
    (hused : ∀ given ∈ used, given ∈ s.handed)
    (hadds : s.builder.Adds (used.map Handed.value) v (step s.builder).2) :
    (s.perform used step).Sound ∧
      (s.perform used step).Vouches ⟨v, (s.perform used step).home? v⟩ := by
  generalize hb : (step s.builder).2 = b at hadds
  cases hadds with
  | kept hmodule =>
    rw [h.perform_kept used (hb ▸ hmodule)]
    exact ⟨h.rebuild (by rw [hb, hmodule]) (by rw [hb, hmodule]),
      fun serial hserial => by cases hserial⟩
  | @added id f ty op hcurrent hf hblocks hop =>
    obtain ⟨hist, hhas⟩ := h.has hf
    rw [h.perform_added hcurrent hhas hblocks hb]
    have hsound : (s.extend id ⟨f.instCount, ty, op⟩ used).Sound :=
      h.extend hhas hblocks rfl hused hop.symm
    have hnew : (s.extend id ⟨f.instCount, ty, op⟩ used).Has id _ _ :=
      (has_extend hhas).mpr (.inl ⟨rfl, rfl, rfl⟩)
    have hserials := hsound.serials.lt (i := id) (by rw [List.getElem?_map, hnew.2]; rfl)
    refine ⟨hsound, fun serial hserial => ?_⟩
    have hhome : (s.extend id ⟨f.instCount, ty, op⟩ used).home? ⟨.inst f.instCount, ty⟩ =
        some hist.serial := by
      simp only [home?]
      rw [show (s.extend id ⟨f.instCount, ty, op⟩ used).builder.current = some id from hcurrent,
        Option.bind_some, hnew.2]
      rfl
    obtain rfl := Option.some.inj (hhome.symm.trans hserial)
    refine ⟨hserials, fun id' f' hist' hhas' hsame => ⟨⟨f.instCount, ty, op⟩, ?_, rfl⟩⟩
    obtain ⟨_, rfl, _⟩ := hsound.has_eq hnew hhas' hsame
    rw [f.insts_append _ hblocks]
    exact List.getElem?_concat_length

/-- A step that adds at most one instruction keeps what is known, and so does handing out its answer. -/
theorem give (h : s.Sound) {step : Build Value} {used : List Handed}
    (hused : ∀ given ∈ used, given ∈ s.handed)
    (hadds : Build.Adding (used.map Handed.value) step) : (s.give used step).Sound :=
  have ⟨hsound, hvouches⟩ := h.perform hused (hadds s.builder)
  hsound.hand hvouches

/-- Every command keeps what is known. -/
theorem step (h : s.Sound) {command : Command} {s' : Session} (hstep : s.step command = some s') :
    s'.Sound := by
  -- Commands that read values fail unless these were handed out.
  cases command with
  | struct name fields =>
    cases hstep
    exact h.rebuild rfl rfl
  | function name params ret =>
    cases hstep
    exact h.function name params ret
  | entry id =>
    cases hstep
    exact h.entry id
  | param id index =>
    cases hstep
    exact h.param id index
  | const ty value =>
    cases hstep
    exact h.handFree rfl
  | global name init =>
    obtain ⟨init, _, hstep⟩ := Option.bind_eq_some_iff.mp hstep
    cases hstep
    exact h.addGlobal name init.value
  | alloca ty name =>
    cases hstep
    exact h.give (List.forall_mem_nil _) (Build.adding_emit _ (.alloca ty name))
  | heapAlloc ty =>
    cases hstep
    exact h.give (List.forall_mem_nil _) (Build.adding_emit _ (.heapAlloc ty))
  | store value ptr =>
    obtain ⟨value, hvalue, hstep⟩ := Option.bind_eq_some_iff.mp hstep
    obtain ⟨ptr, hptr, hstep⟩ := Option.bind_eq_some_iff.mp hstep
    cases hstep
    have hadds : s.builder.Adds ([ptr, value].map Handed.value) _
        (Build.store value.value ptr.value s.builder).2 :=
      Build.adding_emit .void (.store value.value ptr.value) s.builder
    exact (h.perform (by simp [List.mem_of_getElem? hvalue, List.mem_of_getElem? hptr]) hadds).1
  | load ptr =>
    obtain ⟨ptr, hptr, hstep⟩ := Option.bind_eq_some_iff.mp hstep
    cases hstep
    exact h.give (by simp [List.mem_of_getElem? hptr]) (Build.adding_load _)
  | call callee args =>
    obtain ⟨args, hargs, hstep⟩ := Option.bind_eq_some_iff.mp hstep
    cases hstep
    exact h.give (handed_of_mapM hargs) (Build.adding_call _ _)
  | add lhs rhs =>
    obtain ⟨lhs, hlhs, hstep⟩ := Option.bind_eq_some_iff.mp hstep
    obtain ⟨rhs, hrhs, hstep⟩ := Option.bind_eq_some_iff.mp hstep
    cases hstep
    exact h.give (by simp [List.mem_of_getElem? hlhs, List.mem_of_getElem? hrhs])
      (Build.adding_emit _ (.add lhs.value rhs.value))
  | sub lhs rhs =>
    obtain ⟨lhs, hlhs, hstep⟩ := Option.bind_eq_some_iff.mp hstep
    obtain ⟨rhs, hrhs, hstep⟩ := Option.bind_eq_some_iff.mp hstep
    cases hstep
    exact h.give (by simp [List.mem_of_getElem? hlhs, List.mem_of_getElem? hrhs])
      (Build.adding_emit _ (.sub lhs.value rhs.value))
  | fieldAddr ptr index =>
    obtain ⟨ptr, hptr, hstep⟩ := Option.bind_eq_some_iff.mp hstep
    cases hstep
    exact h.give (by simp [List.mem_of_getElem? hptr]) (Build.adding_fieldAddr _ index)
  | aggregate ty fields =>
    obtain ⟨fields, hfields, hstep⟩ := Option.bind_eq_some_iff.mp hstep
    cases hstep
    exact h.give (handed_of_mapM hfields) (Build.adding_struct ty _)
  | ret value =>
    cases value with
    | none =>
      cases hstep
      exact (h.perform (List.forall_mem_nil _) (Build.adding_emit _ (.ret none) s.builder)).1
    | some value =>
      obtain ⟨value, hvalue, hstep⟩ := Option.bind_eq_some_iff.mp hstep
      cases hstep
      have hadds : s.builder.Adds ([value].map Handed.value) _
          (Build.ret (some value.value) s.builder).2 :=
        Build.adding_emit .void (.ret (some value.value)) s.builder
      exact (h.perform (by simp [List.mem_of_getElem? hvalue]) hadds).1
  | checkpoint =>
    cases hstep
    exact ⟨h.functionCount, h.globalCount, h.serials, h.globalSerials, fun id f hist hhas =>
      (h.tells id f hist hhas).kept List.prefix_rfl rfl, h.vouches⟩
  | rollback place =>
    obtain ⟨c, _, hstep⟩ := Option.bind_eq_some_iff.mp hstep
    cases hstep
    exact h.rollback c

/-- So do all commands, one after the other. -/
theorem run (h : s.Sound) {commands : List Command} {s' : Session}
    (hrun : s.run commands = some s') : s'.Sound := by
  induction commands generalizing s with
  | nil =>
    cases hrun
    exact h
  | cons command rest ih =>
    obtain ⟨next, hstep, hrun⟩ := Option.bind_eq_some_iff.mp hrun
    exact ih (h.step hstep) hrun

/-- A value that was given to an instruction, and belongs there, is in scope there. -/
theorem inScope (h : s.Sound) {id : FunctionId} {f : Function} {hist : History}
    (hhas : s.Has id f hist) {k : Nat} {inst : Inst} {used : List Handed}
    (hinst : f.insts[k]? = some inst) (hused : hist.used[k]? = some used) {given : Handed}
    (hgiven : given ∈ used) (hbelongs : given.Belongs s hist.serial) :
    given.value.InScope s.builder.module f k := by
  have htells := h.tells id f hist hhas
  obtain ⟨hhanded, hearlier⟩ := (htells.used k inst used hinst hused).2 given hgiven
  have hvouches := h.vouches given hhanded
  obtain ⟨⟨source, ty⟩, home⟩ := given
  cases source with
  | param index => exact .param ((hvouches _ hbelongs).2 id f hist hhas rfl)
  | inst n =>
    obtain ⟨other, hother, rfl⟩ := (hvouches _ hbelongs).2 id f hist hhas rfl
    exact .inst (hearlier n rfl hbelongs) hother (htells.numbers n other hother)
  | const c => exact .const
  | global index =>
    obtain ⟨serial, hserial, hhome⟩ := hbelongs
    obtain ⟨place, hplace⟩ := List.getElem?_of_mem hserial
    obtain ⟨rfl, g, hg, rfl⟩ := (hvouches serial hhome).2 place hplace
    exact .global hg

end Sound

/-- A session that passes the check. The second function adds a parameter of the first to the result of
the first instruction of the first, in its own first instruction, and reads a global that is then taken
back; the third returns a parameter that it does not have. -/
def misplaced : List Command :=
  [.function "f" [.int 32] (.int 32), .function "g" [] (.int 32), .function "h" [] .void,
    .param 0 0, .entry 0, .add 0 0, .ret (some 1), .checkpoint, .const (.int 32) 7, .global "n" 2,
    .entry 1, .add 0 1, .load 3, .ret (some 5), .rollback 0, .param 2 5, .entry 2, .ret (some 6)]

theorem verify_misses_misplaced :
    ∃ s, (start "test").run misplaced = some s ∧ s.builder.verify = .ok () ∧
      ∀ operand ∈ ([(1, 0, ⟨.param 0, .int 32⟩), (1, 0, ⟨.inst 0, .int 32⟩),
          (1, 1, ⟨.global 0, .ptr (.int 32)⟩), (2, 0, ⟨.param 5, .void⟩)] : List (Nat × Nat × Value)),
        ∃ f inst, s.builder.module.functions[operand.1]? = some f ∧
          f.insts[operand.2.1]? = some inst ∧ operand.2.2 ∈ inst.op.operands ∧
            ¬operand.2.2.InScope s.builder.module f operand.2.1 := by
  refine ⟨_, rfl, rfl, ?_⟩
  simp only [List.forall_mem_cons]
  refine ⟨⟨_, _, rfl, rfl, by decide, ?_⟩, ⟨_, _, rfl, rfl, by decide, ?_⟩,
    ⟨_, _, rfl, rfl, by decide, ?_⟩, ⟨_, _, rfl, rfl, by decide, ?_⟩, by simp⟩
  · exact fun h => nomatch h.of_param
  · exact fun h => absurd h.of_inst (by decide)
  · exact fun h => nomatch h.of_global
  · exact fun h => nomatch h.of_param

/-- Whatever was asked of a builder, and whatever `verify` says of it: in every function of the module the
instructions are numbered by their places, and of the values that an instruction was given, its operands,
each that belongs to this function, or to a global that is still there, is in scope. The answer of `verify`
does not depend on where operands come from. -/
theorem operands_in_scope {name : String} {commands : List Command} {s : Session}
    (hrun : (start name).run commands = some s) :
    (∀ (id : FunctionId) (f : Function), s.builder.module.functions[id]? = some f →
      ∃ hist, s.functions[id]? = some hist ∧ hist.used.length = f.insts.length ∧
        ∀ (k : Nat) (inst : Inst) (used : List Handed), f.insts[k]? = some inst →
          hist.used[k]? = some used → inst.id = k ∧ used.map Handed.value = inst.op.operands ∧
            ∀ given ∈ used, given.Belongs s hist.serial →
              given.value.InScope s.builder.module f k) ∧
    ∀ put : Value → Value, (∀ v, (put v).ty = v.ty) →
      (s.builder.module.redirect put).verify = s.builder.module.verify := by
  have hsound := (Sound.start name).run hrun
  refine ⟨fun id f hf => ?_, fun put hput => Module.verify_redirect hput⟩
  obtain ⟨hist, hhas⟩ := hsound.has hf
  have htells := hsound.tells id f hist hhas
  exact ⟨hist, hhas.2, htells.count, fun k inst used hinst hused =>
    ⟨htells.numbers k inst hinst, (htells.used k inst used hinst hused).1,
      fun given hgiven hbelongs => hsound.inScope hhas hinst hused hgiven hbelongs⟩⟩

/-- In that session the second function returns a value of its own, though it was given others before. -/
theorem operands_in_scope_misplaced :
    ∃ s f hist, (start "test").run misplaced = some s ∧ s.builder.module.functions[1]? = some f ∧
      s.functions[1]? = some hist ∧ hist.used[2]? = some [⟨⟨.inst 1, .int 32⟩, some hist.serial⟩] ∧
        Value.InScope s.builder.module f 2 ⟨.inst 1, .int 32⟩ := by
  obtain ⟨s, hrun⟩ : ∃ s, (start "test").run misplaced = some s := ⟨_, rfl⟩
  have hfunction : (((start "test").run misplaced).bind fun s => s.builder.module.functions[1]?) =
      some ⟨"g", [], .int 32, [⟨"entry",
        [⟨0, .int 32, .add ⟨.param 0, .int 32⟩ ⟨.inst 0, .int 32⟩⟩,
          ⟨1, .int 32, .load ⟨.global 0, .ptr (.int 32)⟩⟩,
          ⟨2, .void, .ret (some ⟨.inst 1, .int 32⟩)⟩]⟩]⟩ := rfl
  have hhistory : (((start "test").run misplaced).bind fun s => s.functions[1]?) =
      some ⟨1, [[⟨⟨.param 0, .int 32⟩, some 0⟩, ⟨⟨.inst 0, .int 32⟩, some 0⟩],
        [⟨⟨.global 0, .ptr (.int 32)⟩, some 3⟩], [⟨⟨.inst 1, .int 32⟩, some 1⟩]]⟩ := rfl
  rw [hrun, Option.bind_some] at hfunction hhistory
  obtain ⟨hist, hhist, _, hall⟩ := (operands_in_scope hrun).1 1 _ hfunction
  obtain rfl := Option.some.inj (hhistory.symm.trans hhist)
  exact ⟨s, _, _, hrun, hfunction, hhistory, rfl,
    (hall 2 _ _ rfl rfl).2.2 _ List.mem_cons_self rfl⟩

end Session

end Straightline.IR
