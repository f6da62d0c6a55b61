import Straightline.Proofs.IR.PrintedInstructions

/-!
# Modules in print

The text of a module loses nothing: of two modules that can be read and have the same name, the texts are the
same only if the modules are (`Module.text_injective`). Structures and globals come first, one on a line. A
function is told up to the numbers of the functions that it calls; when all functions have been read, these
are known by their names.
-/

set_option autoImplicit false

namespace Straightline.IR

variable {m m' : Module} {kinds kinds' : Kinds}

theorem lined_append (lines lines' : List String) : lined (lines ++ lines') = lined lines ++ lined lines' :=
  List.flatMap_append

/-! ## Bodies -/

/-- The instructions are the same, except that functions of one name may have different numbers. -/
structure Inst.Agrees (m m' : Module) (inst inst' : Inst) : Prop where
  id : inst.id = inst'.id
  ty : inst.ty = inst'.ty
  op : inst.op.Agrees m m' inst'.op

section Bodies

variable {f f' : Function} {before before' insts insts' : List Inst} {ty : IRType} {op : Op}

theorem Module.Readable.named_result (h : m.Readable kinds) (hop : Op.Typed m kinds f before ty op) :
    ty.Named := by
  cases hop with
  | alloca hheld | load hheld => exact (h.named_held hheld : IRType.Named _)
  | heapAlloc hk => exact h.named_kind hk
  | store | add | sub | ret | retValue => trivial
  | call htarget => exact h.named_target htarget
  | @fieldAddr ptr name d index ty _ _ hd hfield =>
    obtain ⟨i, hi⟩ := List.getElem?_of_mem (Module.of_structDef? hd).1
    have hheld := ((h.typed.structs i d hi).2 _ (List.mem_of_getElem? hfield)).1
    exact (h.named_held hheld : IRType.Named _)
  | aggregate hd => exact h.named_struct hd

theorem NamedAt.snoc {params : List IRType} (h : NamedAt params before) (hty : ty.Named) (id : Nat)
    (op : Op) : NamedAt params (before ++ [⟨id, ty, op⟩]) := by
  refine ⟨h.params, fun inst hinst => ?_⟩
  rcases List.mem_append.mp hinst with hinst | hinst
  · exact h.before inst hinst
  · rw [List.mem_singleton.mp hinst]
    exact hty

/-- An instruction begins with a blank, and the end of a body does not. -/
theorem lined_inst_ne (hop : Op.Typed m kinds f before ty op) (hwritten : op.Written IsName) (id : Nat)
    (rest more : List Char) : lined (m.instLines ⟨id, ty, op⟩) ++ rest ≠ '\x7d' :: more := by
  obtain ⟨text, htext⟩ := lined_lead hop hwritten id rest
  rw [htext]
  intro heq
  exact absurd (List.cons.inj heq).1 (by decide)

/-- The lines of a body tell its instructions. -/
theorem told_insts (h : m.Abreast m' kinds kinds') (hat : NamedAt f.params before)
    (hat' : NamedAt f'.params before') (hlength : before'.length = before.length)
    (hchain : Chain m kinds f before insts) (hchain' : Chain m' kinds' f' before' insts')
    (hwritten : ∀ inst ∈ insts, inst.op.Written IsName)
    (hwritten' : ∀ inst ∈ insts', inst.op.Written IsName) {rest rest' : List Char}
    (heq : lined (insts.flatMap m.instLines) ++ '\x7d' :: rest =
      lined (insts'.flatMap m'.instLines) ++ '\x7d' :: rest') :
    List.Forall₂ (Inst.Agrees m m') insts insts' ∧ rest = rest' := by
  induction hchain generalizing before' insts' with
  | nil =>
    cases hchain' with
    | nil => exact ⟨.nil, (List.cons.inj heq).2⟩
    | cons hop' _ =>
      rw [List.flatMap_cons, lined_append, List.append_assoc] at heq
      exact absurd heq.symm (lined_inst_ne hop' (hwritten' _ List.mem_cons_self) _ _ _)
  | @cons before more ty op hop _ ih =>
    cases hchain' with
    | nil =>
      rw [List.flatMap_cons, lined_append, List.append_assoc] at heq
      exact absurd heq (lined_inst_ne hop (hwritten _ List.mem_cons_self) _ _ _)
    | cons hop' hmore' =>
      simp only [List.flatMap_cons, lined_append, List.append_assoc, hlength] at heq
      obtain ⟨hfirst, hothers⟩ := List.forall_mem_cons.mp hwritten
      obtain ⟨hfirst', hothers'⟩ := List.forall_mem_cons.mp hwritten'
      obtain ⟨rfl, hagrees, hrest⟩ := told_inst h hat hat' hop hop' hfirst hfirst' heq
      obtain ⟨hall, hrest⟩ := ih (hat.snoc (h.left.named_result hop) _ _)
        (hat'.snoc (h.right.named_result hop') _ _) (by simp [hlength]) hmore' hothers hothers' hrest
      exact ⟨.cons ⟨hlength.symm, rfl, hagrees⟩ hall, hrest⟩

end Bodies

/-! ## Functions -/

/-- The functions are the same, except that those that they call may have different numbers. -/
structure Function.Agrees (m m' : Module) (f f' : Function) : Prop where
  name : f.name = f'.name
  params : f.params = f'.params
  ret : f.ret = f'.ret
  insts : List.Forall₂ (Inst.Agrees m m') f.insts f'.insts

section Functions

variable {f f' : Function} {rest rest' : List Char}

/-- A parameter with its number, as it stands in a header. -/
def paramText (p : IRType × Nat) : String := s!"{p.1.text} %p{p.2}"

theorem toList_paramText (p : IRType × Nat) :
    (paramText p).toList = p.1.text.toList ++ ' ' :: '%' :: 'p' :: Nat.toDigits 10 p.2 := by
  simp [paramText, String.toList_append, toString]

theorem toList_defineLine (f : Function) :
    (Module.defineLine f).toList = "define ".toList ++ (f.ret.text.toList ++ ' ' :: ((symbol f.name).toList ++
      '(' :: ((commaSeparated (f.params.zipIdx.map paramText)).toList ++ [')', ' ', '\x7b']))) := by
  have hparams : (f.params.mapIdx fun index ty => s!"{ty.text} %p{index}") =
      f.params.zipIdx.map paramText := List.mapIdx_eq_zipIdx_map
  rw [Module.defineLine, hparams]
  simp [String.toList_append, toString]

theorem told_params {params params' : List IRType} (hparams : ∀ ty ∈ params, ty.Named)
    (hparams' : ∀ ty ∈ params', ty.Named)
    (heq : (commaSeparated (params.zipIdx.map paramText)).toList ++ ')' :: rest =
      (commaSeparated (params'.zipIdx.map paramText)).toList ++ ')' :: rest') :
    params = params' ∧ rest = rest' := by
  have hnamed : ∀ {params : List IRType}, (∀ ty ∈ params, ty.Named) → ∀ p ∈ params.zipIdx, p.1.Named :=
    fun h p hp => h p.1 (List.fst_mem_of_mem_zipIdx hp)
  have htold : ∀ p ∈ params.zipIdx, ∀ p' ∈ params'.zipIdx,
      Told (paramText p).toList (paramText p').toList (p.1 = p'.1) := by
    intro p hp p' hp'
    rw [toList_paramText, toList_paramText]
    exact ((told_type (hnamed hparams p hp) (hnamed hparams' p' hp')).blank fun _ =>
      ((told_digits p.2 p'.2).cons 'p').cons '%').imp And.left
  have hstarts : ∀ {params : List IRType}, (∀ ty ∈ params, ty.Named) →
      ∀ p ∈ params.zipIdx, ¬Stopped (paramText p).toList := by
    intro params h p hp
    rw [toList_paramText]
    exact not_stopped_typeText (hnamed h p hp) _
  obtain ⟨hall, hrest⟩ := told_commaSeparated (by decide) (by decide) (hstarts hparams) (hstarts hparams')
    htold heq
  refine ⟨?_, hrest⟩
  have hfst := (List.forall₂_map_left_iff.mpr (List.forall₂_map_right_iff.mpr hall) :
    List.Forall₂ Eq (params.zipIdx.map Prod.fst) (params'.zipIdx.map Prod.fst))
  simpa [List.forall₂_eq_eq_eq] using hfst

theorem lined_function (m : Module) (h : f.Typed m kinds) (rest : List Char) :
    lined (m.functionLines f) ++ rest = "define ".toList ++ (f.ret.text.toList ++
      ' ' :: ((symbol f.name).toList ++
        '(' :: ((commaSeparated (f.params.zipIdx.map paramText)).toList ++
          ')' :: (" \x7b\nentry:\n".toList ++
            (lined (f.insts.flatMap m.instLines) ++ '\x7d' :: '\n' :: rest))))) := by
  obtain ⟨init, last, hblocks, _⟩ := h.body
  have hinsts : f.insts = init ++ [last] := by simp [Function.insts, hblocks]
  rw [Module.functionLines_of_entered m hblocks, hinsts, List.cons_append, lined_cons, toList_defineLine]
  simp [lined]

/-- The lines of a function tell it. -/
theorem told_function (h : m.Abreast m' kinds kinds') (hf : f ∈ m.functions) (hf' : f' ∈ m'.functions)
    (heq : lined (m.functionLines f) ++ rest = lined (m'.functionLines f') ++ rest') :
    f.Agrees m m' f' ∧ rest = rest' := by
  have htyped := h.left.typed.functions f hf
  have htyped' := h.right.typed.functions f' hf'
  have hparams : ∀ ty ∈ f.params, ty.Named := fun ty hty => h.left.named_held (htyped.params ty hty)
  have hparams' : ∀ ty ∈ f'.params, ty.Named := fun ty hty => h.right.named_held (htyped'.params ty hty)
  rw [lined_function m htyped, lined_function m' htyped'] at heq
  have hret := told_type (h.left.named_ret hf) (h.right.named_ret hf')
  obtain ⟨hret, hname⟩ := hret _ _ (stopped_cons (by decide) _) (stopped_cons (by decide) _)
    (List.append_cancel_left heq)
  have hsymbol := told_symbol (h.left.functions f hf) (h.right.functions f' hf')
  obtain ⟨hname, hheader⟩ := hsymbol _ _ (stopped_cons (by decide) _) (stopped_cons (by decide) _)
    (List.cons.inj hname).2
  obtain ⟨hlist, hbody⟩ := told_params hparams hparams' (List.cons.inj hheader).2
  obtain ⟨hinsts, hend⟩ := told_insts h ⟨hparams, by simp⟩ ⟨hparams', by simp⟩ rfl htyped.chain htyped'.chain
    (h.left.written f hf) (h.right.written f' hf') (List.append_cancel_left hbody)
  exact ⟨⟨hname, hlist, hret, hinsts⟩, (List.cons.inj hend).2⟩

/-- When functions are known by their names, operations that agree are the same. -/
theorem Op.Agrees.eq {op op' : Op} (hnames : m.functions.map Function.name = m'.functions.map Function.name)
    (hnodup : (m.functions.map Function.name).Nodup) (h : op.Agrees m m' op') : op = op' := by
  cases h with
  | same => rfl
  | call args htarget htarget' hname =>
    rw [index_eq_of_name hnames hnodup htarget htarget' hname]

theorem Function.Agrees.eq (hnames : m.functions.map Function.name = m'.functions.map Function.name)
    (hnodup : (m.functions.map Function.name).Nodup) (hf : f.Typed m kinds) (hf' : f'.Typed m' kinds')
    (h : f.Agrees m m' f') : f = f' := by
  have hinst : ∀ inst inst', Inst.Agrees m m' inst inst' → inst = inst' := by
    rintro ⟨id, ty, op⟩ ⟨id', ty', op'⟩ hagrees
    obtain ⟨rfl, rfl, hop⟩ := hagrees
    exact congrArg _ (hop.eq hnames hnodup)
  have hinsts : f.insts = f'.insts := by
    have hall := h.insts.imp hinst
    rwa [List.forall₂_eq_eq_eq] at hall
  obtain ⟨init, last, hblocks, _⟩ := hf.body
  obtain ⟨init', last', hblocks', _⟩ := hf'.body
  have hblock : f.blocks = f'.blocks := by
    simp only [Function.insts, hblocks, hblocks', List.flatMap_cons, List.flatMap_nil, List.append_nil]
      at hinsts
    rw [hblocks, hblocks', hinsts]
  obtain ⟨name, params, ret, blocks⟩ := f
  obtain ⟨name', params', ret', blocks'⟩ := f'
  obtain ⟨rfl, rfl, rfl, _⟩ := h
  obtain rfl := hblock
  rfl

theorem functions_eq (hnames : m.functions.map Function.name = m'.functions.map Function.name)
    (hnodup : (m.functions.map Function.name).Nodup) {functions functions' : List Function}
    (hf : ∀ f ∈ functions, f.Typed m kinds) (hf' : ∀ f ∈ functions', f.Typed m' kinds')
    (h : List.Forall₂ (Function.Agrees m m') functions functions') : functions = functions' := by
  induction h with
  | nil => rfl
  | cons hfirst _ ih =>
    obtain ⟨htyped, hothers⟩ := List.forall_mem_cons.mp hf
    obtain ⟨htyped', hothers'⟩ := List.forall_mem_cons.mp hf'
    rw [hfirst.eq hnames hnodup htyped htyped', ih hothers hothers']

end Functions

/-! ## Structures and globals -/

section Sections

variable {α : Type} {line line' : α → String} {c : Char} {xs ys : List α} {rest rest' : List Char}

/-- The text is over, or goes on with an empty line and then a line that does not begin with `c`. -/
def Past (c : Char) (rest : List Char) : Prop := rest = [] ∨ ∃ d more, rest = '\n' :: d :: more ∧ d ≠ c

theorem Past.ne_cons (h : Past c rest) (hc : c ≠ '\n') (more : List Char) : rest ≠ c :: more := by
  rintro rfl
  rcases h with h | ⟨d, more', h, _⟩
  · cases h
  · exact hc (List.cons.inj h).1

theorem Past.ne_section (h : Past c rest) (more : List Char) : rest ≠ '\n' :: c :: more := by
  rintro rfl
  rcases h with h | ⟨d, more', h, hne⟩
  · cases h
  · exact hne (List.cons.inj (List.cons.inj h).2).1.symm

/-- Each item is told by its line. -/
def ToldByLine (line line' : α → String) (xs ys : List α) : Prop :=
  ∀ x ∈ xs, ∀ y ∈ ys, ∀ rest rest', (line x).toList ++ '\n' :: rest = (line' y).toList ++ '\n' :: rest' →
    x = y ∧ rest = rest'

/-- Lines of one kind, which all begin alike, are told if each of them is. -/
theorem told_lines (hc : c ≠ '\n') (hline : ∀ x, ∃ more, (line x).toList = c :: more)
    (hline' : ∀ x, ∃ more, (line' x).toList = c :: more) (h : ToldByLine line line' xs ys)
    (hrest : Past c rest) (hrest' : Past c rest')
    (heq : lined (xs.map line) ++ rest = lined (ys.map line') ++ rest') : xs = ys ∧ rest = rest' := by
  induction xs generalizing ys with
  | nil =>
    cases ys with
    | nil => exact ⟨rfl, heq⟩
    | cons y ys =>
      obtain ⟨more, hmore⟩ := hline' y
      rw [List.map_cons, lined_cons, hmore] at heq
      exact absurd heq (hrest.ne_cons hc _)
  | cons x xs ih =>
    cases ys with
    | nil =>
      obtain ⟨more, hmore⟩ := hline x
      rw [List.map_cons, lined_cons, hmore] at heq
      exact absurd heq.symm (hrest'.ne_cons hc _)
    | cons y ys =>
      rw [List.map_cons, List.map_cons, lined_cons, lined_cons] at heq
      obtain ⟨rfl, hmore⟩ := h x List.mem_cons_self y List.mem_cons_self _ _ heq
      obtain ⟨rfl, hend⟩ := ih
        (fun x hx y hy => h x (List.mem_cons_of_mem _ hx) y (List.mem_cons_of_mem _ hy)) hmore
      exact ⟨rfl, hend⟩

theorem lined_section_cons (x : α) (xs : List α) (rest : List Char) :
    lined (Module.section? ((x :: xs).map line)) ++ rest = '\n' :: (lined ((x :: xs).map line) ++ rest) := by
  simp [Module.section?, lined]

/-- An empty line in front tells a section that is there. -/
theorem told_section (hc : c ≠ '\n') (hline : ∀ x, ∃ more, (line x).toList = c :: more)
    (hline' : ∀ x, ∃ more, (line' x).toList = c :: more) (h : ToldByLine line line' xs ys)
    (hrest : Past c rest) (hrest' : Past c rest')
    (heq : lined (Module.section? (xs.map line)) ++ rest = lined (Module.section? (ys.map line')) ++ rest') :
    xs = ys ∧ rest = rest' := by
  cases xs with
  | nil =>
    cases ys with
    | nil => exact ⟨rfl, heq⟩
    | cons y ys =>
      obtain ⟨more, hmore⟩ := hline' y
      rw [lined_section_cons, List.map_cons, lined_cons, hmore] at heq
      exact absurd heq (hrest.ne_section _)
  | cons x xs =>
    cases ys with
    | nil =>
      obtain ⟨more, hmore⟩ := hline x
      rw [lined_section_cons, List.map_cons, lined_cons, hmore] at heq
      exact absurd heq.symm (hrest'.ne_section _)
    | cons y ys =>
      rw [lined_section_cons, lined_section_cons] at heq
      exact told_lines hc hline hline' h hrest hrest' (List.cons.inj heq).2

theorem Past.section {d : Char} (hd : d ≠ c) (hline : ∀ x, ∃ more, (line x).toList = d :: more)
    (hrest : Past c rest) (xs : List α) : Past c (lined (Module.section? (xs.map line)) ++ rest) := by
  cases xs with
  | nil => exact hrest
  | cons x xs =>
    obtain ⟨more, hmore⟩ := hline x
    refine .inr ⟨d, more ++ '\n' :: (lined (xs.map line) ++ rest), ?_, hd⟩
    rw [lined_section_cons, List.map_cons, lined_cons, hmore, List.cons_append]

end Sections

section Tables

variable {rest rest' : List Char}

theorem toList_structLine (d : StructDef) : (Module.structLine d).toList =
    '%' :: (d.name.toList ++ ' ' :: ("= type \x7b ".toList ++
      ((commaSeparated (d.fields.map IRType.text)).toList ++ [' ', '\x7d']))) := by
  simp [Module.structLine, toList_braced, String.toList_append, toString]

theorem toList_globalLine (m : Module) (g : Global) : (m.globalLine g).toList =
    (symbol g.name).toList ++ ' ' :: ("= global ".toList ++
      (g.ty.text.toList ++ ' ' :: (m.constantText g.ty g.init).toList)) := by
  simp [Module.globalLine, String.toList_append, toString]

theorem told_structLine (h : m.Readable kinds) (h' : m'.Readable kinds') {d d' : StructDef}
    (hd : d ∈ m.structs) (hd' : d' ∈ m'.structs)
    (heq : (Module.structLine d).toList ++ '\n' :: rest = (Module.structLine d').toList ++ '\n' :: rest') :
    d = d' ∧ rest = rest' := by
  have hfields : ∀ {m : Module} {kinds : Kinds}, m.Readable kinds → ∀ d ∈ m.structs, ∀ ty ∈ d.fields,
      ty.Named := by
    intro m kinds h d hd ty hty
    obtain ⟨i, hi⟩ := List.getElem?_of_mem hd
    exact h.named_held ((h.typed.structs i d hi).2 ty hty).1
  have hstarts : ∀ {ty : IRType}, ty.Named → ¬Stopped ty.text.toList := by
    intro ty hty
    simpa using not_stopped_typeText hty []
  simp only [toList_structLine, List.cons_append, List.append_assoc, List.cons.injEq, true_and] at heq
  obtain ⟨hname, hlist⟩ := told_name (h.structs d hd) (h'.structs d' hd') _ _
    (stopped_cons (by decide) _) (stopped_cons (by decide) _) heq
  obtain ⟨htypes, hrest⟩ := told_commaSeparated (P := Eq) (by decide) (by decide)
    (fun ty hty => hstarts (hfields h d hd ty hty)) (fun ty hty => hstarts (hfields h' d' hd' ty hty))
    (fun ty hty ty' hty' => told_type (hfields h d hd ty hty) (hfields h' d' hd' ty' hty'))
    (List.append_cancel_left (List.cons.inj hlist).2)
  rw [List.forall₂_eq_eq_eq] at htypes
  obtain ⟨name, fields⟩ := d
  obtain ⟨name', fields'⟩ := d'
  obtain rfl := hname
  obtain rfl := htypes
  exact ⟨rfl, by simpa using hrest⟩

theorem told_globalLine (h : m.Readable kinds) (h' : m'.Readable kinds') (hstructs : m'.structs = m.structs)
    {g g' : Global} (hg : g ∈ m.globals) (hg' : g' ∈ m'.globals)
    (heq : (m.globalLine g).toList ++ '\n' :: rest = (m'.globalLine g').toList ++ '\n' :: rest') :
    g = g' ∧ rest = rest' := by
  obtain ⟨hkept, hfits⟩ := h.typed.globals g hg
  obtain ⟨hkept', hfits'⟩ := h'.typed.globals g' hg'
  rw [toList_globalLine, toList_globalLine] at heq
  have htype := told_type (h.named_kept hkept) (h'.named_kept hkept')
  have hcontents : g.ty = g'.ty → Told (m.constantText g.ty g.init).toList
      (m'.constantText g'.ty g'.init).toList (g.init = g'.init) := by
    intro hty
    rw [← hty] at hfits' ⊢
    exact told_constant hstructs hfits hfits'
  have htold := (told_symbol (h.globals g hg) (h'.globals g' hg')).blank fun _ =>
    (htype.blank hcontents).behind "= global ".toList
  obtain ⟨⟨hname, hty, hinit⟩, hrest⟩ := htold.line heq
  obtain ⟨name, ty, init⟩ := g
  obtain ⟨name', ty', init'⟩ := g'
  obtain rfl := hname
  obtain rfl := hty
  obtain rfl := hinit
  exact ⟨rfl, hrest⟩

theorem structLine_percent (d : StructDef) : ∃ more, (Module.structLine d).toList = '%' :: more :=
  ⟨_, toList_structLine d⟩

theorem globalLine_at (m : Module) (g : Global) : ∃ more, (m.globalLine g).toList = '@' :: more := by
  rw [toList_globalLine, toList_symbol]
  split <;> exact ⟨_, rfl⟩

end Tables

/-! ## Modules -/

namespace Module

/-- The functions of a module in print. -/
def functionsText (m : Module) (functions : List Function) : List Char :=
  lined (functions.flatMap fun f => "" :: m.functionLines f)

/-- The declaration of the allocator, if it is used. -/
def allocatorText (m : Module) : List Char :=
  lined (if m.usesHeap then ["", "declare i8* @malloc(i64)"] else [])

theorem functionsText_cons (m : Module) (f : Function) (functions : List Function) (rest : List Char) :
    m.functionsText (f :: functions) ++ rest =
      '\n' :: (lined (m.functionLines f) ++ (m.functionsText functions ++ rest)) := by
  simp [functionsText, lined]

theorem allocatorText_cases (m : Module) :
    m.allocatorText = [] ∨ ∃ more, m.allocatorText = '\n' :: 'd' :: 'e' :: 'c' :: more := by
  unfold allocatorText
  cases m.usesHeap with
  | false => exact .inl rfl
  | true => exact .inr ⟨_, rfl⟩

theorem define_of_typed (m : Module) {f : Function} (h : f.Typed m kinds) (rest : List Char) :
    ∃ more, lined (m.functionLines f) ++ rest = 'd' :: 'e' :: 'f' :: more := by
  rw [lined_function m h]
  exact ⟨_, rfl⟩

/-- Functions are told, and what comes after them is no function. -/
theorem told_functions (h : m.Abreast m' kinds kinds') {functions functions' : List Function}
    (hf : ∀ f ∈ functions, f ∈ m.functions) (hf' : ∀ f ∈ functions', f ∈ m'.functions)
    (heq : m.functionsText functions ++ m.allocatorText = m'.functionsText functions' ++ m'.allocatorText) :
    List.Forall₂ (Function.Agrees m m') functions functions' := by
  have hend : ∀ {m m' : Module} {kinds : Kinds} {f : Function} (_ : f.Typed m' kinds) (rest : List Char),
      m.allocatorText ≠ '\n' :: (lined (m'.functionLines f) ++ rest) := by
    intro m m' kinds f hf rest heq
    obtain ⟨more, hmore⟩ := define_of_typed m' hf rest
    rw [hmore] at heq
    rcases m.allocatorText_cases with hnil | ⟨more', hcons⟩
    · rw [hnil] at heq
      cases heq
    · rw [hcons] at heq
      simp at heq
  induction functions generalizing functions' with
  | nil =>
    cases functions' with
    | nil => exact .nil
    | cons f' functions' =>
      rw [functionsText_cons] at heq
      exact absurd heq (hend (h.right.typed.functions f' (hf' f' List.mem_cons_self)) _)
  | cons f functions ih =>
    obtain ⟨hmem, hmems⟩ := List.forall_mem_cons.mp hf
    cases functions' with
    | nil =>
      rw [functionsText_cons] at heq
      exact absurd heq.symm (hend (h.left.typed.functions f hmem) _)
    | cons f' functions' =>
      obtain ⟨hmem', hmems'⟩ := List.forall_mem_cons.mp hf'
      rw [functionsText_cons, functionsText_cons] at heq
      obtain ⟨hagrees, hrest⟩ := told_function h hmem hmem' (List.cons.inj heq).2
      exact .cons hagrees (ih hmems hmems' hrest)

theorem past_functions (h : m.Readable kinds) {c : Char} (hc : 'd' ≠ c) :
    Past c (m.functionsText m.functions ++ m.allocatorText) := by
  cases hfunctions : m.functions with
  | nil =>
    rcases m.allocatorText_cases with hnil | ⟨more, hcons⟩
    · exact .inl hnil
    · exact .inr ⟨_, _, hcons, hc⟩
  | cons f functions =>
    obtain ⟨more, hmore⟩ := m.define_of_typed (h.typed.functions f (hfunctions ▸ List.mem_cons_self))
      (m.functionsText functions ++ m.allocatorText)
    rw [functionsText_cons, hmore]
    exact .inr ⟨_, _, rfl, hc⟩

theorem toList_text (m : Module) : m.text.toList =
    lined [s!"; ModuleID = \"{m.name}\"", s!"source_filename = \"{m.name}\""] ++
      (lined (section? (m.structs.map structLine)) ++ (lined (section? (m.globals.map m.globalLine)) ++
        (m.functionsText m.functions ++ m.allocatorText))) := by
  have hlined : m.text.toList = lined m.lines := by
    simp [text, lined, String.toList_join, List.flatMap_map]
  rw [hlined, lines]
  simp only [lined_append, List.append_assoc, functionsText, allocatorText]

/-- Of modules that can be read and have one name, the text is the same only if they are. -/
theorem text_injective (h : m.Readable kinds) (h' : m'.Readable kinds') (hname : m.name = m'.name)
    (htext : m.text = m'.text) : m = m' := by
  have heq := congrArg String.toList htext
  rw [toList_text, toList_text, hname] at heq
  obtain ⟨hstructs, heq⟩ := told_section (by decide) structLine_percent structLine_percent
    (fun d hd d' hd' _ _ => told_structLine h h' hd hd')
    ((past_functions h (by decide)).section (by decide) (globalLine_at m) _)
    ((past_functions h' (by decide)).section (by decide) (globalLine_at m') _)
    (List.append_cancel_left heq)
  obtain ⟨hglobals, heq⟩ := told_section (by decide) (globalLine_at m) (globalLine_at m')
    (fun g hg g' hg' _ _ => told_globalLine h h' hstructs.symm hg hg')
    (past_functions h (by decide)) (past_functions h' (by decide)) heq
  have habreast : m.Abreast m' kinds kinds' := ⟨h, h', hstructs.symm, hglobals.symm⟩
  have hagree := told_functions habreast (fun _ hf => hf) (fun _ hf => hf) heq
  have hnames : m.functions.map Function.name = m'.functions.map Function.name := by
    have hall := List.forall₂_map_left_iff.mpr (List.forall₂_map_right_iff.mpr (hagree.imp
      (S := fun f f' => f.name = f'.name) fun _ _ hf => hf.name))
    rwa [List.forall₂_eq_eq_eq] at hall
  have hfunctions :=
    functions_eq hnames h.functionNames h.typed.functions h'.typed.functions hagree
  obtain ⟨name, structs, globals, functions⟩ := m
  obtain ⟨name', structs', globals', functions'⟩ := m'
  obtain rfl : name = name' := hname
  obtain rfl : structs = structs' := hstructs
  obtain rfl : globals = globals' := hglobals
  obtain rfl : functions = functions' := hfunctions
  rfl

end Module

end Straightline.IR
