import Straightline.Proofs.IR.Tokens

/-!
# Values in print

A constant is printed without its type, so it is told from another of the same type only; the fields of a
structure follow one another in the order of its definition (`told_constant`). Where a value comes from is
told by how its print begins (`Value.sigil`), and a type stands in front of a value wherever nothing else
tells it (`told_operand`, `told_typed`).
-/

set_option autoImplicit false

namespace Straightline.IR

variable {m m' : Module} {ty ty' : IRType}

/-! ## Constants -/

theorem toList_braced (items : List String) :
    (braced items).toList = '\x7b' :: ' ' :: ((commaSeparated items).toList ++ [' ', '\x7d']) := by
  simp [braced, String.toList_append]

/-- Of one bit there are two numbers, each with a word of its own. -/
theorem told_bit {n n' : Int} (h : Canonical 1 n) (h' : Canonical 1 n') :
    Told (m.constantText (.int 1) (.int n)).toList (m'.constantText (.int 1) (.int n')).toList (n = n') := by
  have hfalse : Solid "false".toList := by decide
  have htrue : Solid "true".toList := by decide
  have hdiffer : "true".toList ≠ "false".toList := by decide
  simp only [Module.constantText, if_true]
  rcases h with rfl | rfl <;> rcases h' with rfl | rfl
  · exact .same _ rfl
  · exact (told_solid hfalse htrue).imp fun h => absurd h.symm hdiffer
  · exact (told_solid htrue hfalse).imp fun h => absurd h hdiffer
  · exact .same _ rfl

theorem told_int {bits : Nat} {n n' : Int} (h : Canonical bits n) (h' : Canonical bits n') :
    Told (m.constantText (.int bits) (.int n)).toList (m'.constantText (.int bits) (.int n')).toList
      (n = n') := by
  by_cases hbits : bits = 1
  · subst hbits
    exact told_bit h h'
  · have htype : IRType.int bits ≠ .int 1 := fun he => hbits (IRType.int.inj he)
    simp only [Module.constantText, if_neg htype]
    exact told_toString n n'

theorem structDef?_congr (hstructs : m'.structs = m.structs) (name : String) :
    m'.structDef? name = m.structDef? name := by
  rw [Module.structDef?, Module.structDef?, hstructs]

theorem constantTexts_eq_nil {tys : List IRType} {cs : List Constant} (h : Constant.FitAll m tys cs) :
    m.constantTexts tys cs = [] ↔ tys = [] := by
  cases h <;> simp [Module.constantTexts]

mutual

/-- Constants of one type are told apart. -/
theorem told_constant (hstructs : m'.structs = m.structs) {ty : IRType} {c c' : Constant}
    (h : c.Fits m ty) (h' : c'.Fits m' ty) :
    Told (m.constantText ty c).toList (m'.constantText ty c').toList (c = c') := by
  cases c with
  | int n =>
    cases h with
    | int _ hn =>
      cases h' with
      | int _ hn' => exact (told_int hn hn').imp (congrArg _)
  | struct values =>
    cases h with
    | struct hd hall =>
      cases h' with
      | struct hd' hall' =>
        rw [structDef?_congr hstructs, hd] at hd'
        cases hd'
        have hfields := told_of_continued
          ((constantTexts_eq_nil hall).trans (constantTexts_eq_nil hall').symm)
          (told_constants hstructs hall hall')
        simp only [Module.constantText, structDef?_congr hstructs, hd, Option.elim_some, toList_braced]
        have hclosed := hfields.blank fun _ => .same ['\x7d'] trivial
        exact .cons _ (.cons _ (hclosed.imp fun h => congrArg _ h.1))

theorem told_constants (hstructs : m'.structs = m.structs) {tys : List IRType} {cs cs' : List Constant}
    (h : Constant.FitAll m tys cs) (h' : Constant.FitAll m' tys cs') :
    Told (continued (m.constantTexts tys cs)) (continued (m'.constantTexts tys cs')) (cs = cs') := by
  cases cs with
  | nil =>
    cases h with
    | nil =>
      cases h' with
      | nil => exact .same _ rfl
  | cons c cs =>
    cases h with
    | cons hc hcs =>
      cases h' with
      | cons hc' hcs' =>
        simp only [Module.constantTexts, continued_cons, String.toList_append, List.append_assoc]
        have hall := (told_constant hstructs hc hc').append (stopped_continued _) (stopped_continued _)
          fun _ => told_constants hstructs hcs hcs'
        exact .cons _ (.cons _ (.behind _ (.behind _ (hall.imp fun h => congrArg₂ _ h.1 h.2))))

end

/-! ## Operands -/

/-- Where a value comes from: a parameter, an instruction, a constant or a global. -/
def Value.sigil (v : Value) : Nat :=
  match v.source with
  | .param _ => 0
  | .inst _ => 1
  | .const _ => 2
  | .global _ => 3

/-- Where a value comes from, by how its print begins. -/
def readSigil : List Char → Nat
  | '%' :: 'p' :: _ => 0
  | '%' :: _ => 1
  | '@' :: _ => 3
  | _ => 2

theorem readSigil_cons {c : Char} (hpercent : c ≠ '%') (hat : c ≠ '@') (rest : List Char) :
    readSigil (c :: rest) = 2 := by
  rw [readSigil]
  · exact fun _ he => hpercent (List.cons.inj he).1
  · exact fun _ he => hpercent (List.cons.inj he).1
  · exact fun _ he => hat (List.cons.inj he).1

theorem readSigil_digits (n : Nat) (rest : List Char) : readSigil (Nat.toDigits 10 n ++ rest) = 2 := by
  obtain ⟨c, more, hdigits⟩ := List.exists_cons_of_ne_nil (Nat.toDigits_ne_nil (n := n) (b := 10))
  have hdigit : c.isDigit = true := isDigit_of_mem_digits (hdigits ▸ List.mem_cons_self)
  rw [hdigits]
  exact readSigil_cons (by rintro rfl; cases hdigit) (by rintro rfl; cases hdigit) _

theorem readSigil_constant {c : Constant} (h : c.Fits m ty) (rest : List Char) :
    readSigil ((m.constantText ty c).toList ++ rest) = 2 := by
  cases h with
  | int =>
    rw [Module.constantText]
    split
    · have hfalse : "false".toList = ['f', 'a', 'l', 's', 'e'] := by decide
      have htrue : "true".toList = ['t', 'r', 'u', 'e'] := by decide
      split
      · rw [hfalse]
        exact readSigil_cons (by decide) (by decide) _
      · rw [htrue]
        exact readSigil_cons (by decide) (by decide) _
    · rw [toList_toString]
      split
      · exact readSigil_cons (by decide) (by decide) _
      · exact readSigil_digits _ _
  | struct =>
    simp only [Module.constantText, toList_braced]
    exact readSigil_cons (by decide) (by decide) _

theorem toList_operandText_param (m : Module) (index : Nat) (ty : IRType) :
    (m.operandText ⟨.param index, ty⟩).toList = '%' :: 'p' :: Nat.toDigits 10 index := by
  simp [Module.operandText, String.toList_append, toString]

theorem toList_operandText_inst (m : Module) (id : Nat) (ty : IRType) :
    (m.operandText ⟨.inst id, ty⟩).toList = '%' :: 't' :: Nat.toDigits 10 id := by
  simp [Module.operandText, String.toList_append, toString]

theorem readSigil_operand {params : List IRType} {before : List Inst} {v : Value}
    (h : v.Scoped m params before) (rest : List Char) :
    readSigil ((m.operandText v).toList ++ rest) = v.sigil := by
  cases h with
  | param =>
    rw [toList_operandText_param]
    rfl
  | inst =>
    rw [toList_operandText_inst]
    rfl
  | const hc => exact readSigil_constant hc rest
  | global hg =>
    simp only [Module.operandText, hg, toList_symbol]
    split <;> rfl

/-! ## Modules that can be read -/

/-- In the types of the parameters and of the results so far, structures are called by names. -/
structure NamedAt (params : List IRType) (before : List Inst) : Prop where
  params : ∀ ty ∈ params, ty.Named
  before : ∀ inst ∈ before, inst.ty.Named

/-- Slots are named, and structures that are put together have fields. -/
def Module.Written (m : Module) : Prop := ∀ f ∈ m.functions, ∀ inst ∈ f.insts, inst.op.Written IsName

/-- A well-typed module in which everything has a name, globals and functions one each. -/
structure Module.Readable (m : Module) (kinds : Kinds) : Prop where
  typed : m.Typed kinds
  structs : ∀ d ∈ m.structs, IsName d.name
  globals : ∀ g ∈ m.globals, IsName g.name
  functions : ∀ f ∈ m.functions, IsName f.name
  globalNames : (m.globals.map Global.name).Nodup
  functionNames : (m.functions.map Function.name).Nodup
  written : m.Written

section Readable

variable {kinds kinds' : Kinds} {params params' : List IRType} {before before' : List Inst} {v v' : Value}
  {name : String}

namespace Module.Readable

theorem named_struct (h : m.Readable kinds) {d : StructDef} (hd : m.structDef? name = some d) :
    (IRType.struct name).Named := by
  obtain ⟨hmem, rfl⟩ := of_structDef? hd
  exact h.structs d hmem

theorem named_kind (h : m.Readable kinds) {k : AggregateKind} (hk : kinds name = some k) :
    (IRType.struct name).Named := by
  obtain ⟨d, hd⟩ := h.typed.declared name k hk
  exact h.named_struct hd

theorem named_held (h : m.Readable kinds) (hty : Held kinds ty) : ty.Named := by
  cases hty with
  | int => trivial
  | struct hk | model hk => exact h.named_kind hk

theorem named_kept (h : m.Readable kinds) (hty : Kept kinds ty) : ty.Named := by
  cases hty with
  | held hheld => exact h.named_held hheld
  | contents hk => exact h.named_kind hk

theorem named_ret (h : m.Readable kinds) {f : Function} (hf : f ∈ m.functions) : f.ret.Named := by
  rcases (h.typed.functions f hf).ret with hvoid | hheld
  · rw [hvoid]
    trivial
  · exact h.named_held hheld

theorem named_target (h : m.Readable kinds) {id : FunctionId} {target : Function}
    (htarget : m.function? id = some target) : target.ret.Named :=
  h.named_ret (List.mem_of_getElem? htarget)

/-- Whatever can be used has a type in which structures are called by their names. -/
theorem named_scoped (h : m.Readable kinds) (hat : NamedAt params before)
    (hv : v.Scoped m params before) : v.ty.Named := by
  cases hv with
  | param hty => exact hat.params _ (List.mem_of_getElem? hty)
  | inst hinst => exact hat.before _ (List.mem_of_getElem? hinst)
  | const hc =>
    cases hc with
    | int => trivial
    | struct hd => exact h.named_struct hd
  | global hg =>
    have hkept := (h.typed.globals _ (List.mem_of_getElem? hg)).1
    exact (h.named_kept hkept : IRType.Named _)

end Module.Readable

/-- Two modules that can be read and are the same up to their functions. -/
structure Module.Abreast (m m' : Module) (kinds kinds' : Kinds) : Prop where
  left : m.Readable kinds
  right : m'.Readable kinds'
  structs : m'.structs = m.structs
  globals : m'.globals = m.globals

/-- Of distinct names, each stands at one place. -/
theorem index_eq_of_name {α : Type} {name : α → String} {items items' : List α} {i j : Nat} {a b : α}
    (hnames : items.map name = items'.map name) (hnodup : (items.map name).Nodup) (ha : items[i]? = some a)
    (hb : items'[j]? = some b) (heq : name a = name b) : i = j := by
  have hi : (items.map name)[i]? = some (name a) := by rw [List.getElem?_map, ha, Option.map_some]
  have hj : (items.map name)[j]? = some (name b) := by rw [hnames, List.getElem?_map, hb, Option.map_some]
  refine (List.getElem?_inj (List.getElem?_eq_some_iff.mp hi).1 hnodup).mp ?_
  rw [hi, hj, heq]

theorem toList_typedText (m : Module) (v : Value) :
    (m.typedText v).toList = v.ty.text.toList ++ ' ' :: (m.operandText v).toList := by
  simp [Module.typedText, String.toList_append]

/-- Values of one type are told apart. -/
theorem told_operand (h : m.Abreast m' kinds kinds') (hv : v.Scoped m params before)
    (hv' : v'.Scoped m' params' before') (hty : v.ty = v'.ty) :
    Told (m.operandText v).toList (m'.operandText v').toList (v = v') := by
  have hvalue : v.source = v'.source → v = v' := by
    intro hsource
    cases v
    cases v'
    exact congr (congrArg _ hsource) hty
  refine Told.imp ?_ hvalue
  by_cases hsigil : v.sigil = v'.sigil
  · cases hv with
    | param =>
      cases hv' with
      | param =>
        rw [toList_operandText_param, toList_operandText_param]
        exact .cons _ (.cons _ ((told_digits _ _).imp (congrArg _)))
      | inst | const | global => cases hsigil
    | inst =>
      cases hv' with
      | inst =>
        rw [toList_operandText_inst, toList_operandText_inst]
        exact .cons _ (.cons _ ((told_digits _ _).imp (congrArg _)))
      | param | const | global => cases hsigil
    | const hc =>
      cases hv' with
      | const hc' =>
        obtain rfl := hty
        exact (told_constant h.structs hc hc').imp (congrArg _)
      | param | inst | global => cases hsigil
    | global hg =>
      cases hv' with
      | global hg' =>
        rw [h.globals] at hg'
        simp only [Module.operandText, h.globals, hg, hg']
        exact (told_symbol (h.left.globals _ (List.mem_of_getElem? hg))
          (h.left.globals _ (List.mem_of_getElem? hg'))).imp fun hname =>
            congrArg _ (index_eq_of_name rfl h.left.globalNames hg hg' hname)
      | param | inst | const => cases hsigil
  · intro rest rest' _ _ heq
    rw [← readSigil_operand hv rest, heq, readSigil_operand hv' rest'] at hsigil
    exact absurd rfl hsigil

/-- Values with their types in front are told apart. -/
theorem told_typed (h : m.Abreast m' kinds kinds') (hat : NamedAt params before)
    (hat' : NamedAt params' before') (hv : v.Scoped m params before) (hv' : v'.Scoped m' params' before') :
    Told (m.typedText v).toList (m'.typedText v').toList (v = v') := by
  rw [toList_typedText, toList_typedText]
  have htype := told_type (h.left.named_scoped hat hv) (h.right.named_scoped hat' hv')
  exact (htype.blank (told_operand h hv hv')).imp And.right

end Readable

end Straightline.IR
