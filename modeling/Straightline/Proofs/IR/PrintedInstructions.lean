import Straightline.Proofs.IR.PrintedValues

/-!
# Instructions in print

A line begins with the name of the result, if there is one, and the word for what is done; this tells one
operation from another (`told_lead`). Behind it the types, operands and numbers follow one another, each told
from another in its place. Results are numbered in order, so the number need not be read.

A function that is called is told by its name alone, which is as much as can be said before all functions
have been read (`Op.Agrees`, `told_inst`).
-/

set_option autoImplicit false

namespace Straightline.IR

/-- Lines of text, each with its end. -/
def lined (lines : List String) : List Char := lines.flatMap fun line => line.toList ++ ['\n']

/-- How the first line of an instruction begins. -/
inductive Form where
  | slot
  | heap
  | store
  | load
  | call
  /-- A call without a result. -/
  | perform
  | add
  | sub
  | field
  /-- The first of several fields that are filled in. -/
  | part
  /-- The only field that is filled in. -/
  | whole
  | ret
deriving DecidableEq

namespace Form

/-- Whether the name of the result comes first. -/
def named : Form → Bool
  | store | perform | ret => false
  | _ => true

/-- What stands in front of the first type. -/
def word : Form → String
  | slot => " = alloca "
  | heap => ".end = getelementptr "
  | store => "store "
  | load => " = load "
  | call => " = call "
  | perform => "call void "
  | add => " = add "
  | sub => " = sub "
  | field => " = getelementptr inbounds "
  | part => ".0 = insertvalue "
  | whole => " = insertvalue "
  | ret => "ret "

/-- The beginning of the first line of instruction `id`. -/
def lead (form : Form) (id : Nat) : List Char :=
  ' ' :: ' ' :: ((if form.named then '%' :: 't' :: Nat.toDigits 10 id else []) ++ form.word.toList)

/-- No word begins with another. -/
theorem eq_of_word_begins {form form' : Form} (hnamed : form.named = form'.named)
    (hbegins : form.word.toList <+: form'.word.toList) : form = form' := by
  revert hnamed hbegins
  cases form <;> cases form' <;> decide

theorem told_word {form form' : Form} (hnamed : form.named = form'.named) {rest rest' : List Char}
    (heq : form.word.toList ++ rest = form'.word.toList ++ rest') : form = form' ∧ rest = rest' := by
  have hleft : form.word.toList <+: form.word.toList ++ rest := List.prefix_append _ _
  have hright : form'.word.toList <+: form.word.toList ++ rest := heq ▸ List.prefix_append _ _
  have hform : form = form' := by
    rcases List.prefix_or_prefix_of_prefix hleft hright with h | h
    · exact eq_of_word_begins hnamed h
    · exact (eq_of_word_begins hnamed.symm h).symm
  subst hform
  exact ⟨rfl, List.append_cancel_left heq⟩

/-- Without the name of a result the word comes first, and does not look like a name. -/
theorem word_ne_percent {form : Form} (hnamed : form.named = false) (rest more : List Char) :
    form.word.toList ++ rest ≠ '%' :: more := by
  have hhead : form.word.toList.head? ≠ some '%' ∧ form.word.toList ≠ [] := by
    revert hnamed
    cases form <;> decide
  intro heq
  obtain ⟨c, word, hword⟩ := List.exists_cons_of_ne_nil hhead.2
  rw [hword] at heq hhead
  exact hhead.1 (congrArg some (List.cons.inj heq).1)

/-- The beginning of an instruction tells its form. -/
theorem told_lead {form form' : Form} {id : Nat} {rest rest' : List Char}
    (heq : form.lead id ++ rest = form'.lead id ++ rest') : form = form' ∧ rest = rest' := by
  simp only [lead, List.cons_append, List.append_assoc, List.cons.injEq, true_and] at heq
  cases hnamed : form.named <;> cases hnamed' : form'.named <;>
    simp only [hnamed, hnamed', if_true, Bool.false_eq_true, if_false, List.nil_append, List.cons_append]
      at heq
  · exact told_word (hnamed.trans hnamed'.symm) heq
  · exact absurd heq (word_ne_percent hnamed _ _)
  · exact absurd heq.symm (word_ne_percent hnamed' _ _)
  · exact told_word (hnamed.trans hnamed'.symm)
      (List.append_cancel_left (List.cons.inj (List.cons.inj heq).2).2)

end Form

/-- The form of an instruction with a result of type `ty`. -/
def Op.form (ty : IRType) : Op → Form
  | .alloca .. => .slot
  | .heapAlloc _ => .heap
  | .store .. => .store
  | .load _ => .load
  | .call .. => if ty.isVoid then .perform else .call
  | .add .. => .add
  | .sub .. => .sub
  | .fieldAddr .. => .field
  | .aggregate [_] => .whole
  | .aggregate _ => .part
  | .ret _ => .ret

/-- The form that stands for all forms of one operation. -/
def Form.sort : Form → Form
  | perform => call
  | whole => part
  | form => form

def Op.sort : Op → Form
  | .alloca .. => .slot
  | .heapAlloc _ => .heap
  | .store .. => .store
  | .load _ => .load
  | .call .. => .call
  | .add .. => .add
  | .sub .. => .sub
  | .fieldAddr .. => .field
  | .aggregate _ => .part
  | .ret _ => .ret

theorem sort_form (ty : IRType) (op : Op) : (op.form ty).sort = op.sort := by
  cases op with
  | call =>
    change (if ty.isVoid then Form.perform else Form.call).sort = .call
    split <;> rfl
  | aggregate fields =>
    match fields with
    | [] | [_] | _ :: _ :: _ => rfl
  | _ => rfl

section Lines

-- The equations are derived once, here, and not by all of the proofs below at the same time.
attribute [local simp] lined Module.instLines Form.lead Form.named Form.word

variable (m : Module) (id : Nat) (ty : IRType) (rest : List Char)

theorem lined_cons (line : String) (lines : List String) :
    lined (line :: lines) ++ rest = line.toList ++ '\n' :: (lined lines ++ rest) := by
  simp

theorem lined_slot (contents : IRType) (name : Option String) :
    lined (m.instLines ⟨id, ty, .alloca contents name⟩) ++ rest = Form.slot.lead id ++
      (contents.text.toList ++ (match name with
        | some name => ' ' :: ';' :: ' ' :: (name.toList ++ '\n' :: rest)
        | none => '\n' :: rest)) := by
  cases name <;>
    simp [String.toList_append, toString]

/-- Only the first of the four lines is looked at. -/
theorem lined_heap (contents : IRType) : ∃ more,
    lined (m.instLines ⟨id, .ptr contents, .heapAlloc contents⟩) ++ rest =
      Form.heap.lead id ++ (contents.text.toList ++ ',' :: more) := by
  let lines := m.instLines ⟨id, .ptr contents, .heapAlloc contents⟩
  refine ⟨' ' :: ((IRType.ptr contents).text.toList ++
    (" null, i32 1".toList ++ '\n' :: (lined lines.tail ++ rest))), ?_⟩
  simp [lines, String.toList_append, toString]

theorem lined_store (value ptr : Value) :
    lined (m.instLines ⟨id, ty, .store value ptr⟩) ++ rest = Form.store.lead id ++
      (((m.typedText value).toList ++ ',' :: ' ' :: (m.typedText ptr).toList) ++ '\n' :: rest) := by
  simp [String.toList_append, toString]

theorem lined_load (ptr : Value) :
    lined (m.instLines ⟨id, ty, .load ptr⟩) ++ rest = Form.load.lead id ++
      ((ty.text.toList ++ ',' :: ' ' :: (m.typedText ptr).toList) ++ '\n' :: rest) := by
  simp [String.toList_append, toString]

theorem lined_perform (callee : FunctionId) (args : List Value) (hvoid : ty.isVoid = true) :
    lined (m.instLines ⟨id, ty, .call callee args⟩) ++ rest = Form.perform.lead id ++
      ((m.calleeText callee).toList ++
        '(' :: ((commaSeparated (args.map m.typedText)).toList ++ ')' :: '\n' :: rest)) := by
  simp [hvoid, String.toList_append, toString]

theorem lined_call (callee : FunctionId) (args : List Value) (hvoid : ty.isVoid = false) :
    lined (m.instLines ⟨id, ty, .call callee args⟩) ++ rest = Form.call.lead id ++
      (ty.text.toList ++ ' ' :: ((m.calleeText callee).toList ++
        '(' :: ((commaSeparated (args.map m.typedText)).toList ++ ')' :: '\n' :: rest))) := by
  simp [hvoid, String.toList_append, toString]

theorem lined_add (lhs rhs : Value) :
    lined (m.instLines ⟨id, ty, .add lhs rhs⟩) ++ rest = Form.add.lead id ++
      ((ty.text.toList ++ ' ' :: ((m.operandText lhs).toList ++ ',' :: ' ' :: (m.operandText rhs).toList))
        ++ '\n' :: rest) := by
  simp [String.toList_append, toString]

theorem lined_sub (lhs rhs : Value) :
    lined (m.instLines ⟨id, ty, .sub lhs rhs⟩) ++ rest = Form.sub.lead id ++
      ((ty.text.toList ++ ' ' :: ((m.operandText lhs).toList ++ ',' :: ' ' :: (m.operandText rhs).toList))
        ++ '\n' :: rest) := by
  simp [String.toList_append, toString]

theorem lined_field (ptr : Value) (index : Nat) :
    lined (m.instLines ⟨id, ty, .fieldAddr ptr index⟩) ++ rest = Form.field.lead id ++
      (((ptr.ty.pointee?.getD .void).text.toList ++ ',' :: ' ' :: ((m.typedText ptr).toList ++
        ',' :: ' ' :: ("i32 0, i32 ".toList ++ Nat.toDigits 10 index))) ++ '\n' :: rest) := by
  simp [String.toList_append, toString]

theorem lined_ret :
    lined (m.instLines ⟨id, ty, .ret none⟩) ++ rest = Form.ret.lead id ++ ("void".toList ++ '\n' :: rest) := by
  simp

theorem lined_retValue (value : Value) :
    lined (m.instLines ⟨id, ty, .ret (some value)⟩) ++ rest =
      Form.ret.lead id ++ ((m.typedText value).toList ++ '\n' :: rest) := by
  simp [String.toList_append, toString]

end Lines

/-! ## Structures that are put together -/

section Aggregates

variable {m m' : Module} {kinds kinds' : Kinds} {params params' : List IRType} {before before' : List Inst}
  {ty ty' : IRType}

/-- What stands behind the word on a line that fills in a field. -/
def insertText (m : Module) (ty : IRType) (previous : String) (field : Value) (index : Nat) : List Char :=
  ty.text.toList ++ ' ' :: (previous.toList ++
    ',' :: ' ' :: ((m.typedText field).toList ++ ',' :: ' ' :: Nat.toDigits 10 index))

/-- The name of a structure in which the fields up to `index` are filled in. -/
def partName (result : String) (index : Nat) : String := s!"{result}.{index}"

theorem lined_insert_last (m : Module) (ty : IRType) (result : String) (index : Nat) (previous : String)
    (field : Value) (rest : List Char) :
    lined (m.insertLines ty result index previous [field]) ++ rest =
      ' ' :: ' ' :: (result.toList ++
        (" = insertvalue ".toList ++ (insertText m ty previous field index ++ '\n' :: rest))) := by
  simp [lined, Module.insertLines, insertText, String.toList_append, toString]

theorem lined_insert_next (m : Module) (ty : IRType) (result : String) (index : Nat) (previous : String)
    (field next : Value) (fields : List Value) (rest : List Char) :
    lined (m.insertLines ty result index previous (field :: next :: fields)) ++ rest =
      ' ' :: ' ' :: (result.toList ++ '.' :: (Nat.toDigits 10 index ++
        (" = insertvalue ".toList ++ (insertText m ty previous field index ++ '\n' ::
          (lined (m.insertLines ty result (index + 1) (partName result index) (next :: fields)) ++
            rest))))) := by
  rw [Module.insertLines]
  simp [lined, insertText, partName, String.toList_append, toString]

theorem lined_whole (m : Module) (id : Nat) (ty : IRType) (field : Value) (rest : List Char) :
    lined (m.instLines ⟨id, ty, .aggregate [field]⟩) ++ rest =
      Form.whole.lead id ++ (insertText m ty "undef" field 0 ++ '\n' :: rest) := by
  rw [Module.instLines, lined_insert_last]
  simp [Form.lead, Form.named, Form.word, String.toList_append, toString]

theorem lined_part (m : Module) (id : Nat) (ty : IRType) (field next : Value) (fields : List Value)
    (rest : List Char) :
    lined (m.instLines ⟨id, ty, .aggregate (field :: next :: fields)⟩) ++ rest =
      Form.part.lead id ++ (insertText m ty "undef" field 0 ++ '\n' ::
        (lined (m.insertLines ty s!"%t{id}" 1 (partName s!"%t{id}" 0) (next :: fields)) ++ rest)) := by
  rw [Module.instLines, lined_insert_next]
  simp [Form.lead, Form.named, Form.word, String.toList_append, toString]

theorem told_insertText (h : m.Abreast m' kinds kinds') (hat : NamedAt params before)
    (hat' : NamedAt params' before') (hty : ty.Named) (hty' : ty'.Named) {field field' : Value}
    (hfield : field.Scoped m params before) (hfield' : field'.Scoped m' params' before')
    (previous : String) (index : Nat) :
    Told (insertText m ty previous field index) (insertText m' ty' previous field' index)
      (ty = ty' ∧ field = field') :=
  (told_type hty hty').blank fun _ => .behind _ (.cons _ (.cons _
    (((told_typed h hat hat' hfield hfield').comma fun _ => .same _ trivial).imp And.left)))

/-- The lines that fill in the fields tell them all; the last defines the result itself. -/
theorem told_insertLines (h : m.Abreast m' kinds kinds') (hat : NamedAt params before)
    (hat' : NamedAt params' before') (hty : ty.Named) (hty' : ty'.Named) {fields fields' : List Value}
    (hne : fields ≠ []) (hne' : fields' ≠ []) (hfields : ∀ v ∈ fields, v.Scoped m params before)
    (hfields' : ∀ v ∈ fields', v.Scoped m' params' before') {result : String} {index : Nat}
    {previous : String} {rest rest' : List Char}
    (heq : lined (m.insertLines ty result index previous fields) ++ rest =
      lined (m'.insertLines ty' result index previous fields') ++ rest') :
    ty = ty' ∧ fields = fields' ∧ rest = rest' := by
  induction fields generalizing fields' index previous with
  | nil => exact absurd rfl hne
  | cons field fields ih =>
    obtain ⟨field', fields', rfl⟩ := List.exists_cons_of_ne_nil hne'
    obtain ⟨hfield, hothers⟩ := List.forall_mem_cons.mp hfields
    obtain ⟨hfield', hothers'⟩ := List.forall_mem_cons.mp hfields'
    have htold := told_insertText h hat hat' hty hty' hfield hfield' previous index
    cases fields with
    | nil =>
      cases fields' with
      | nil =>
        simp only [lined_insert_last, List.cons.injEq, true_and, List.append_cancel_left_eq] at heq
        obtain ⟨⟨rfl, rfl⟩, hrest⟩ := htold.line heq
        exact ⟨rfl, rfl, hrest⟩
      | cons next' fields' =>
        rw [lined_insert_last, lined_insert_next] at heq
        simp at heq
    | cons next fields =>
      cases fields' with
      | nil =>
        rw [lined_insert_last, lined_insert_next] at heq
        simp at heq
      | cons next' fields' =>
        simp only [lined_insert_next, List.cons.injEq, true_and, List.append_cancel_left_eq] at heq
        obtain ⟨⟨_, rfl⟩, hmore⟩ := htold.line heq
        obtain ⟨hty, hnext, hrest⟩ := ih (List.cons_ne_nil next fields) (List.cons_ne_nil next' fields')
          hothers hothers' hmore
        exact ⟨hty, congrArg _ hnext, hrest⟩

end Aggregates

/-! ## Instructions -/

section Instructions

variable {m m' : Module} {kinds kinds' : Kinds} {f f' : Function} {before before' : List Inst}
  {ty ty' : IRType} {op op' : Op}

/-- The operations are the same, except that functions of one name may have different numbers. -/
inductive Op.Agrees (m m' : Module) : Op → Op → Prop where
  | same (op : Op) : Op.Agrees m m' op op
  | call {callee callee' : FunctionId} {target target' : Function} (args : List Value) :
      m.function? callee = some target → m'.function? callee' = some target' →
      target.name = target'.name → Op.Agrees m m' (.call callee args) (.call callee' args)

/-- An instruction begins with the lead of its form. -/
theorem lined_lead (h : Op.Typed m kinds f before ty op) (hwritten : op.Written IsName) (id : Nat)
    (rest : List Char) :
    ∃ more, lined (m.instLines ⟨id, ty, op⟩) ++ rest = (op.form ty).lead id ++ more := by
  cases h with
  | alloca => exact ⟨_, lined_slot _ _ _ _ _ _⟩
  | heapAlloc =>
    obtain ⟨more, hmore⟩ := lined_heap m id rest _
    exact ⟨_, hmore⟩
  | store => exact ⟨_, lined_store _ _ _ _ _ _⟩
  | load => exact ⟨_, lined_load _ _ _ _ _⟩
  | @call callee target args htarget =>
    unfold Op.form
    cases hvoid : target.ret.isVoid with
    | true => exact ⟨_, lined_perform _ _ _ _ _ _ hvoid⟩
    | false => exact ⟨_, lined_call _ _ _ _ _ _ hvoid⟩
  | add => exact ⟨_, lined_add _ _ _ _ _ _⟩
  | sub => exact ⟨_, lined_sub _ _ _ _ _ _⟩
  | fieldAddr => exact ⟨_, lined_field _ _ _ _ _ _⟩
  | @aggregate name d fields =>
    cases fields with
    | nil => exact absurd rfl hwritten
    | cons field fields =>
      cases fields with
      | nil => exact ⟨_, lined_whole _ _ _ _ _⟩
      | cons next fields => exact ⟨_, lined_part _ _ _ _ _ _ _⟩
  | ret => exact ⟨_, lined_ret _ _ _ _⟩
  | retValue => exact ⟨_, lined_retValue _ _ _ _ _⟩

theorem sort_eq (hop : Op.Typed m kinds f before ty op) (hop' : Op.Typed m' kinds' f' before' ty' op')
    (hwritten : op.Written IsName) (hwritten' : op'.Written IsName) {id : Nat} {rest rest' : List Char}
    (heq : lined (m.instLines ⟨id, ty, op⟩) ++ rest = lined (m'.instLines ⟨id, ty', op'⟩) ++ rest') :
    op.form ty = op'.form ty' ∧ op.sort = op'.sort := by
  obtain ⟨more, hlead⟩ := lined_lead hop hwritten id rest
  obtain ⟨more', hlead'⟩ := lined_lead hop' hwritten' id rest'
  rw [hlead, hlead'] at heq
  have hform := (Form.told_lead heq).1
  exact ⟨hform, by rw [← sort_form ty op, hform, sort_form]⟩

theorem told_slot {contents contents' : IRType} {name name' : Option String} (hty : contents.Named)
    (hty' : contents'.Named) (hwritten : (Op.alloca contents name).Written IsName)
    (hwritten' : (Op.alloca contents' name').Written IsName) {id : Nat} {rest rest' : List Char}
    (heq : lined (m.instLines ⟨id, ty, .alloca contents name⟩) ++ rest =
      lined (m'.instLines ⟨id, ty', .alloca contents' name'⟩) ++ rest') :
    contents = contents' ∧ name = name' ∧ rest = rest' := by
  rw [lined_slot, lined_slot] at heq
  have htype := told_type hty hty'
  have hlead := (Form.told_lead heq).2
  cases name with
  | none =>
    cases name' with
    | none =>
      obtain ⟨rfl, hrest⟩ := htype.line hlead
      exact ⟨rfl, rfl, hrest⟩
    | some name' =>
      obtain ⟨_, hend⟩ := htype _ _ (stopped_cons (by decide) _) (stopped_cons (by decide) _) hlead
      cases hend
  | some name =>
    cases name' with
    | none =>
      obtain ⟨_, hend⟩ := htype _ _ (stopped_cons (by decide) _) (stopped_cons (by decide) _) hlead
      cases hend
    | some name' =>
      obtain ⟨rfl, hname⟩ := htype _ _ (stopped_cons (by decide) _) (stopped_cons (by decide) _) hlead
      obtain ⟨rfl, hrest⟩ := (told_name hwritten hwritten').line
        (List.cons.inj (List.cons.inj (List.cons.inj hname).2).2).2
      exact ⟨rfl, rfl, hrest⟩

/-- The type for which there is memory on the heap stands in the first of its lines. -/
theorem told_heap {contents contents' : IRType} (hty : contents.Named) (hty' : contents'.Named) {id : Nat}
    {rest rest' : List Char}
    (heq : lined (m.instLines ⟨id, .ptr contents, .heapAlloc contents⟩) ++ rest =
      lined (m'.instLines ⟨id, .ptr contents', .heapAlloc contents'⟩) ++ rest') :
    contents = contents' ∧ rest = rest' := by
  obtain ⟨more, hmore⟩ := lined_heap m id rest contents
  obtain ⟨more', hmore'⟩ := lined_heap m' id rest' contents'
  have hlead := (Form.told_lead (hmore.symm.trans (heq.trans hmore'))).2
  obtain ⟨rfl, _⟩ := told_type hty hty' _ _ (stopped_cons (by decide) _) (stopped_cons (by decide) _) hlead
  exact ⟨rfl, List.append_cancel_left heq⟩

theorem told_args (h : m.Abreast m' kinds kinds') (hat : NamedAt f.params before)
    (hat' : NamedAt f'.params before') {args args' : List Value}
    (hargs : ∀ arg ∈ args, arg.Scoped m f.params before)
    (hargs' : ∀ arg ∈ args', arg.Scoped m' f'.params before') {rest rest' : List Char}
    (heq : (commaSeparated (args.map m.typedText)).toList ++ ')' :: rest =
      (commaSeparated (args'.map m'.typedText)).toList ++ ')' :: rest') :
    args = args' ∧ rest = rest' := by
  have hall := told_commaSeparated (P := Eq) (by decide) (by decide) (fun v hv => ?_) (fun v hv => ?_)
    (fun v hv v' hv' => told_typed h hat hat' (hargs v hv) (hargs' v' hv')) heq
  · rwa [List.forall₂_eq_eq_eq] at hall
  · rw [toList_typedText]
    exact not_stopped_typeText (h.left.named_scoped hat (hargs v hv)) _
  · rw [toList_typedText]
    exact not_stopped_typeText (h.right.named_scoped hat' (hargs' v hv)) _

theorem calleeText_eq {callee : FunctionId} {target : Function} (h : m.function? callee = some target) :
    m.calleeText callee = symbol target.name := by
  rw [Module.calleeText, h]

/-- The name of a function and its arguments are told. -/
theorem told_callee (h : m.Abreast m' kinds kinds') (hat : NamedAt f.params before)
    (hat' : NamedAt f'.params before') {callee callee' : FunctionId} {target target' : Function}
    {args args' : List Value} (htarget : m.function? callee = some target)
    (htarget' : m'.function? callee' = some target')
    (hargs : ∀ arg ∈ args, arg.Scoped m f.params before)
    (hargs' : ∀ arg ∈ args', arg.Scoped m' f'.params before') {rest rest' : List Char}
    (heq : (m.calleeText callee).toList ++
        '(' :: ((commaSeparated (args.map m.typedText)).toList ++ ')' :: '\n' :: rest) =
      (m'.calleeText callee').toList ++
        '(' :: ((commaSeparated (args'.map m'.typedText)).toList ++ ')' :: '\n' :: rest')) :
    target.name = target'.name ∧ args = args' ∧ rest = rest' := by
  rw [calleeText_eq htarget, calleeText_eq htarget'] at heq
  have hsymbol := told_symbol (h.left.functions _ (List.mem_of_getElem? htarget))
    (h.right.functions _ (List.mem_of_getElem? htarget'))
  obtain ⟨hname, hlist⟩ := hsymbol _ _ (stopped_cons (by decide) _) (stopped_cons (by decide) _) heq
  obtain ⟨hargs, hrest⟩ := told_args h hat hat' hargs hargs' (List.cons.inj hlist).2
  exact ⟨hname, hargs, (List.cons.inj hrest).2⟩

/-- A call tells also the type of its result, if there is one. -/
theorem told_call (h : m.Abreast m' kinds kinds') (hat : NamedAt f.params before)
    (hat' : NamedAt f'.params before') {callee callee' : FunctionId} {target target' : Function}
    {args args' : List Value} (htarget : m.function? callee = some target)
    (htarget' : m'.function? callee' = some target')
    (hargs : ∀ arg ∈ args, arg.Scoped m f.params before)
    (hargs' : ∀ arg ∈ args', arg.Scoped m' f'.params before')
    (hform : (Op.call callee args).form target.ret = (Op.call callee' args').form target'.ret)
    {id : Nat} {rest rest' : List Char}
    (heq : lined (m.instLines ⟨id, target.ret, .call callee args⟩) ++ rest =
      lined (m'.instLines ⟨id, target'.ret, .call callee' args'⟩) ++ rest') :
    target.ret = target'.ret ∧ target.name = target'.name ∧ args = args' ∧ rest = rest' := by
  change (if target.ret.isVoid then Form.perform else .call) =
    if target'.ret.isVoid then .perform else .call at hform
  cases hvoid : target.ret.isVoid <;> cases hvoid' : target'.ret.isVoid <;> rw [hvoid, hvoid'] at hform
  · rw [lined_call _ _ _ _ _ _ hvoid, lined_call _ _ _ _ _ _ hvoid'] at heq
    have htype := told_type (h.left.named_target htarget) (h.right.named_target htarget')
    obtain ⟨hty, hlist⟩ := htype _ _ (stopped_cons (by decide) _) (stopped_cons (by decide) _)
      (Form.told_lead heq).2
    exact ⟨hty, told_callee h hat hat' htarget htarget' hargs hargs' (List.cons.inj hlist).2⟩
  · cases hform
  · cases hform
  · rw [lined_perform _ _ _ _ _ _ hvoid, lined_perform _ _ _ _ _ _ hvoid'] at heq
    exact ⟨(IRType.eq_void_of_isVoid hvoid).trans (IRType.eq_void_of_isVoid hvoid').symm,
      told_callee h hat hat' htarget htarget' hargs hargs' (Form.told_lead heq).2⟩

/-- Both operands of a sum or a difference are of the type of the result. -/
theorem told_arithmetic (h : m.Abreast m' kinds kinds') {lhs lhs' rhs rhs' : Value} {bits bits' : Nat}
    (hl : lhs.Scoped m f.params before) (hl' : lhs'.Scoped m' f'.params before')
    (hr : rhs.Scoped m f.params before) (hr' : rhs'.Scoped m' f'.params before')
    (hlty : lhs.ty = .int bits) (hlty' : lhs'.ty = .int bits') (hrty : rhs.ty = .int bits)
    (hrty' : rhs'.ty = .int bits') :
    Told ((IRType.int bits).text.toList ++
        ' ' :: ((m.operandText lhs).toList ++ ',' :: ' ' :: (m.operandText rhs).toList))
      ((IRType.int bits').text.toList ++
        ' ' :: ((m'.operandText lhs').toList ++ ',' :: ' ' :: (m'.operandText rhs').toList))
      (bits = bits' ∧ lhs = lhs' ∧ rhs = rhs') := by
  have hnamed : ∀ bits, (IRType.int bits).Named := fun _ => trivial
  have htype : Told (IRType.int bits).text.toList (IRType.int bits').text.toList (bits = bits') :=
    (told_type (hnamed bits) (hnamed bits')).imp IRType.int.inj
  exact htype.blank fun hbits =>
    (told_operand h hl hl' (by rw [hlty, hlty', hbits])).comma fun _ =>
      told_operand h hr hr' (by rw [hrty, hrty', hbits])

/-- The address of a field tells the structure, the pointer to it and which field it is. -/
theorem told_field (h : m.Abreast m' kinds kinds') (hat : NamedAt f.params before)
    (hat' : NamedAt f'.params before') {ptr ptr' : Value} {name name' : String} {index index' : Nat}
    (hptr : ptr.Scoped m f.params before) (hptr' : ptr'.Scoped m' f'.params before')
    (hty : ptr.ty = .ptr (.struct name)) (hty' : ptr'.ty = .ptr (.struct name'))
    (hnamed : (IRType.struct name).Named) (hnamed' : (IRType.struct name').Named) {id : Nat}
    {rest rest' : List Char}
    (heq : lined (m.instLines ⟨id, ty, .fieldAddr ptr index⟩) ++ rest =
      lined (m'.instLines ⟨id, ty', .fieldAddr ptr' index'⟩) ++ rest') :
    name = name' ∧ ptr = ptr' ∧ index = index' ∧ rest = rest' := by
  rw [lined_field, lined_field, hty, hty'] at heq
  have htold := (told_type hnamed hnamed').comma fun _ =>
    (told_typed h hat hat' hptr hptr').comma fun _ => (told_digits index index').behind "i32 0, i32 ".toList
  obtain ⟨⟨hname, rfl, rfl⟩, hrest⟩ := htold.line (Form.told_lead heq).2
  exact ⟨IRType.struct.inj hname, rfl, rfl, hrest⟩

/-- A blank stands behind the type of a value, and none behind a bare type. -/
theorem void_ne_typed {v : Value} (hv : v.ty.Named) (rest rest' : List Char) :
    "void".toList ++ '\n' :: rest ≠ (m.typedText v).toList ++ '\n' :: rest' := by
  intro heq
  rw [toList_typedText, List.append_assoc, List.cons_append] at heq
  have hvoid : IRType.void.Named := trivial
  obtain ⟨_, hend⟩ := told_type hvoid hv ('\n' :: rest) _ (stopped_cons (by decide) _)
    (stopped_cons (by decide) _) heq
  cases hend

/-- The lines of an instruction tell it. -/
theorem told_inst (h : m.Abreast m' kinds kinds') (hat : NamedAt f.params before)
    (hat' : NamedAt f'.params before') (hop : Op.Typed m kinds f before ty op)
    (hop' : Op.Typed m' kinds' f' before' ty' op') (hwritten : op.Written IsName)
    (hwritten' : op'.Written IsName) {id : Nat} {rest rest' : List Char}
    (heq : lined (m.instLines ⟨id, ty, op⟩) ++ rest = lined (m'.instLines ⟨id, ty', op'⟩) ++ rest') :
    ty = ty' ∧ op.Agrees m m' op' ∧ rest = rest' := by
  -- Both are of one sort, so of the pairs only those on the diagonal are left, and the two returns.
  obtain ⟨hform, hsort⟩ := sort_eq hop hop' hwritten hwritten' heq
  cases hop with
  | @alloca contents name hheld =>
    cases hop' with
    | @alloca contents' name' hheld' =>
      obtain ⟨rfl, rfl, hrest⟩ :=
        told_slot (h.left.named_held hheld) (h.right.named_held hheld') hwritten hwritten' heq
      exact ⟨rfl, .same _, hrest⟩
    | _ => cases hsort
  | heapAlloc hk =>
    cases hop' with
    | heapAlloc hk' =>
      obtain ⟨hname, hrest⟩ := told_heap (h.left.named_kind hk) (h.right.named_kind hk') heq
      cases hname
      exact ⟨rfl, .same _, hrest⟩
    | _ => cases hsort
  | store _ hvalue hptr =>
    cases hop' with
    | store _ hvalue' hptr' =>
      rw [lined_store, lined_store] at heq
      have htold := (told_typed h hat hat' hvalue hvalue').comma fun _ => told_typed h hat hat' hptr hptr'
      obtain ⟨⟨rfl, rfl⟩, hrest⟩ := htold.line (Form.told_lead heq).2
      exact ⟨rfl, .same _, hrest⟩
    | _ => cases hsort
  | load hheld hptr =>
    cases hop' with
    | load hheld' hptr' =>
      rw [lined_load, lined_load] at heq
      have htold := (told_type (h.left.named_held hheld) (h.right.named_held hheld')).comma fun _ =>
        told_typed h hat hat' hptr hptr'
      obtain ⟨⟨rfl, rfl⟩, hrest⟩ := htold.line (Form.told_lead heq).2
      exact ⟨rfl, .same _, hrest⟩
    | _ => cases hsort
  | call htarget hargs =>
    cases hop' with
    | call htarget' hargs' =>
      obtain ⟨hty, hname, rfl, hrest⟩ :=
        told_call h hat hat' htarget htarget' hargs hargs' hform heq
      exact ⟨hty, .call _ htarget htarget' hname, hrest⟩
    | _ => cases hsort
  | add _ _ hl hr hlty hrty =>
    cases hop' with
    | add _ _ hl' hr' hlty' hrty' =>
      rw [lined_add, lined_add] at heq
      have htold := told_arithmetic h hl hl' hr hr' hlty hlty' hrty hrty'
      obtain ⟨⟨rfl, rfl, rfl⟩, hrest⟩ := htold.line (Form.told_lead heq).2
      exact ⟨rfl, .same _, hrest⟩
    | _ => cases hsort
  | sub _ _ hl hr hlty hrty =>
    cases hop' with
    | sub _ _ hl' hr' hlty' hrty' =>
      rw [lined_sub, lined_sub] at heq
      have htold := told_arithmetic h hl hl' hr hr' hlty hlty' hrty hrty'
      obtain ⟨⟨rfl, rfl, rfl⟩, hrest⟩ := htold.line (Form.told_lead heq).2
      exact ⟨rfl, .same _, hrest⟩
    | _ => cases hsort
  | fieldAddr hptr hpty hd hfield =>
    cases hop' with
    | fieldAddr hptr' hpty' hd' hfield' =>
      obtain ⟨rfl, rfl, rfl, hrest⟩ := told_field h hat hat' hptr hptr' hpty hpty'
        (h.left.named_struct hd) (h.right.named_struct hd') heq
      rw [structDef?_congr h.structs, hd] at hd'
      cases hd'
      rw [hfield] at hfield'
      cases hfield'
      exact ⟨rfl, .same _, hrest⟩
    | _ => cases hsort
  | aggregate hd hfields =>
    cases hop' with
    | aggregate hd' hfields' =>
      obtain ⟨hty, rfl, hrest⟩ := told_insertLines h hat hat' (h.left.named_struct hd)
        (h.right.named_struct hd') hwritten hwritten' hfields hfields' heq
      exact ⟨hty, .same _, hrest⟩
    | _ => cases hsort
  | ret =>
    cases hop' with
    | ret =>
      rw [lined_ret, lined_ret] at heq
      exact ⟨rfl, .same _, (List.cons.inj (List.append_cancel_left (Form.told_lead heq).2)).2⟩
    | retValue hvalue' =>
      rw [lined_ret, lined_retValue] at heq
      exact absurd (Form.told_lead heq).2 (void_ne_typed (h.right.named_scoped hat' hvalue') _ _)
    | _ => cases hsort
  | retValue hvalue =>
    cases hop' with
    | ret =>
      rw [lined_ret, lined_retValue] at heq
      exact absurd (Form.told_lead heq).2.symm (void_ne_typed (h.left.named_scoped hat hvalue) _ _)
    | retValue hvalue' =>
      rw [lined_retValue, lined_retValue] at heq
      obtain ⟨rfl, hrest⟩ := (told_typed h hat hat' hvalue hvalue').line (Form.told_lead heq).2
      exact ⟨rfl, .same _, hrest⟩
    | _ => cases hsort

end Instructions

end Straightline.IR
