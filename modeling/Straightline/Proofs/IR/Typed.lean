import Straightline.Proofs.IR.Offers
import Straightline.Ty.Basic

/-!
# Well-typed modules

What the check of a module leaves open: that the operands of an instruction are results of earlier ones
of the same function, parameters, globals and constants that are there, that the type of a result is
the one which the operation gives, and that everything kept or passed on has a type with a
representation. A body is taken instruction by instruction (`IR.Chain`), each typed against those before
it.

Structures come in two kinds. The address of a `model` is a value and its contents are not; a `struct`
is a value and its address is not. So an address that is a value is never one of a slot or of a field:
`Held` has no type for those.
-/

set_option autoImplicit false

namespace Straightline

theorem IRType.eq_void_of_isVoid {ty : IRType} (h : ty.isVoid = true) : ty = .void := by
  cases ty with
  | void => rfl
  | int | ptr | struct => cases h

theorem IRType.isVoid_of_isStruct {ty : IRType} (h : ty.isStruct = true) : ty.isVoid = false := by
  cases ty with
  | struct => rfl
  | void | int | ptr => cases h

namespace IR

/-! ## Types -/

/-- The kinds of the structures that are declared under a name. -/
abbrev Kinds := String → Option AggregateKind

/-- The widths of integers. -/
def widths : List Nat := [1, 8, 16, 32, 64]

theorem mem_widths {bits : Nat} :
    bits ∈ widths ↔ bits = 1 ∨ bits = 8 ∨ bits = 16 ∨ bits = 32 ∨ bits = 64 := by
  simp [widths]

/-- The types of values: of what bindings, fields, parameters and results are. -/
inductive Held (kinds : Kinds) : IRType → Prop where
  | int {bits : Nat} : bits ∈ widths → Held kinds (.int bits)
  | struct {name : String} : kinds name = some .struct → Held kinds (.struct name)
  | model {name : String} : kinds name = some .model → Held kinds (.ptr (.struct name))

/-- The types of what storage holds: a value, or the contents of a model. -/
inductive Kept (kinds : Kinds) : IRType → Prop where
  | held {ty : IRType} : Held kinds ty → Kept kinds ty
  | contents {name : String} : kinds name = some .model → Kept kinds (.struct name)

section Types

variable {kinds kinds' : Kinds} {ty : IRType} {name : String}

theorem Held.ne_void (h : Held kinds ty) : ty ≠ .void := by
  rintro rfl
  cases h

theorem Kept.of_kind {k : AggregateKind} (h : kinds name = some k) : Kept kinds (.struct name) := by
  cases k with
  | struct => exact .held (.struct h)
  | model => exact .contents h

/-- An address that is a value is the address of a model. -/
theorem Held.not_held_pointee (h : Held kinds (.ptr ty)) : ¬Held kinds ty := by
  cases h with
  | model hk =>
    intro h'
    cases h' with
    | struct hk' => rw [hk] at hk'; cases hk'

theorem Held.mono (hkinds : ∀ name k, kinds name = some k → kinds' name = some k)
    (h : Held kinds ty) : Held kinds' ty := by
  cases h with
  | int hbits => exact .int hbits
  | struct hk => exact .struct (hkinds _ _ hk)
  | model hk => exact .model (hkinds _ _ hk)

theorem Kept.mono (hkinds : ∀ name k, kinds name = some k → kinds' name = some k)
    (h : Kept kinds ty) : Kept kinds' ty := by
  cases h with
  | held h => exact .held (h.mono hkinds)
  | contents hk => exact .contents (hkinds _ _ hk)

end Types

/-! ## Constants -/

/-- The numbers of a width: zero and one, or those of two's complement. -/
def Canonical (bits : Nat) (n : Int) : Prop :=
  if bits = 1 then n = 0 ∨ n = 1
  else -(Nat.pow 2 (bits - 1) : Int) ≤ n ∧ n < (Nat.pow 2 (bits - 1) : Int)

mutual

/-- A constant of a type. -/
inductive Constant.Fits (m : Module) : IRType → Constant → Prop where
  | int {bits : Nat} {n : Int} : bits ∈ widths → Canonical bits n →
      Constant.Fits m (.int bits) (.int n)
  | struct {name : String} {d : StructDef} {values : List Constant} :
      m.structDef? name = some d → Constant.FitAll m d.fields values →
      Constant.Fits m (.struct name) (.struct values)

/-- As many constants as types, each of its own. -/
inductive Constant.FitAll (m : Module) : List IRType → List Constant → Prop where
  | nil : Constant.FitAll m [] []
  | cons {ty : IRType} {c : Constant} {tys : List IRType} {cs : List Constant} :
      Constant.Fits m ty c → Constant.FitAll m tys cs → Constant.FitAll m (ty :: tys) (c :: cs)

end

theorem Constant.FitAll.forall₂ {m : Module} {tys : List IRType} {cs : List Constant}
    (h : Constant.FitAll m tys cs) : List.Forall₂ (Constant.Fits m) tys cs := by
  induction tys generalizing cs with
  | nil =>
    cases h
    exact .nil
  | cons ty tys ih =>
    cases h with
    | cons hc hcs => exact .cons hc (ih hcs)

/-! ## Values and operations -/

/-- The value is there where the instructions `before` were carried out, and is of its type. -/
inductive Value.Scoped (m : Module) (params : List IRType) (before : List Inst) : Value → Prop where
  | param {index : Nat} {ty : IRType} : params[index]? = some ty →
      Value.Scoped m params before ⟨.param index, ty⟩
  | inst {id : Nat} {inst : Inst} : before[id]? = some inst → inst.ty ≠ .void →
      Value.Scoped m params before ⟨.inst id, inst.ty⟩
  | const {c : Constant} {ty : IRType} : c.Fits m ty → Value.Scoped m params before ⟨.const c, ty⟩
  | global {index : Nat} {g : Global} : m.globals[index]? = some g →
      Value.Scoped m params before ⟨.global index, .ptr g.ty⟩

/-- The operation may stand in the function `f` after `before`, and gives a result of this type. -/
inductive Op.Typed (m : Module) (kinds : Kinds) (f : Function) (before : List Inst) :
    IRType → Op → Prop where
  | alloca {ty : IRType} {name : Option String} : Held kinds ty →
      Op.Typed m kinds f before (.ptr ty) (.alloca ty name)
  | heapAlloc {name : String} : kinds name = some .model →
      Op.Typed m kinds f before (.ptr (.struct name)) (.heapAlloc (.struct name))
  | store {value ptr : Value} : Kept kinds value.ty → value.Scoped m f.params before →
      ptr.Scoped m f.params before → ptr.ty = .ptr value.ty →
      Op.Typed m kinds f before .void (.store value ptr)
  | load {ptr : Value} {ty : IRType} : Held kinds ty → ptr.Scoped m f.params before →
      ptr.ty = .ptr ty → Op.Typed m kinds f before ty (.load ptr)
  | call {callee : FunctionId} {target : Function} {args : List Value} :
      m.function? callee = some target → (∀ arg ∈ args, arg.Scoped m f.params before) →
      args.map Value.ty = target.params → Op.Typed m kinds f before target.ret (.call callee args)
  | add {lhs rhs : Value} {bits : Nat} : bits ∈ widths → bits ≠ 1 →
      lhs.Scoped m f.params before → rhs.Scoped m f.params before →
      lhs.ty = .int bits → rhs.ty = .int bits → Op.Typed m kinds f before (.int bits) (.add lhs rhs)
  | sub {lhs rhs : Value} {bits : Nat} : bits ∈ widths → bits ≠ 1 →
      lhs.Scoped m f.params before → rhs.Scoped m f.params before →
      lhs.ty = .int bits → rhs.ty = .int bits → Op.Typed m kinds f before (.int bits) (.sub lhs rhs)
  | fieldAddr {ptr : Value} {name : String} {d : StructDef} {index : Nat} {ty : IRType} :
      ptr.Scoped m f.params before → ptr.ty = .ptr (.struct name) →
      m.structDef? name = some d → d.fields[index]? = some ty →
      Op.Typed m kinds f before (.ptr ty) (.fieldAddr ptr index)
  | aggregate {name : String} {d : StructDef} {fields : List Value} :
      m.structDef? name = some d → (∀ field ∈ fields, field.Scoped m f.params before) →
      fields.map Value.ty = d.fields → Op.Typed m kinds f before (.struct name) (.aggregate fields)
  | ret : f.ret = .void → Op.Typed m kinds f before .void (.ret none)
  | retValue {value : Value} : value.Scoped m f.params before → value.ty = f.ret →
      Op.Typed m kinds f before .void (.ret (some value))

/-- If the operation makes a slot under a name, `P` holds of it, and a structure that it puts together has
fields. -/
def Op.Written (P : String → Prop) : Op → Prop
  | .alloca _ (some name) => P name
  | .aggregate fields => fields ≠ []
  | _ => True

/-- Instructions that may follow `before` in `f`: numbered on from there, and each typed. -/
inductive Chain (m : Module) (kinds : Kinds) (f : Function) : List Inst → List Inst → Prop where
  | nil {before : List Inst} : Chain m kinds f before []
  | cons {before rest : List Inst} {ty : IRType} {op : Op} :
      Op.Typed m kinds f before ty op → Chain m kinds f (before ++ [⟨before.length, ty, op⟩]) rest →
      Chain m kinds f before (⟨before.length, ty, op⟩ :: rest)

/-- A function takes values, gives a value or nothing, and has a body that ends in its only return. -/
structure Function.Typed (m : Module) (kinds : Kinds) (f : Function) : Prop where
  params : ∀ ty ∈ f.params, Held kinds ty
  ret : f.ret = .void ∨ Held kinds f.ret
  body : ∃ init last, f.blocks = [⟨"entry", init ++ [last]⟩] ∧
    (∀ inst ∈ init, inst.op.isRet = false) ∧ last.op.isRet = true ∧
    Chain m kinds f [] (init ++ [last])

/-- Structures of values that are declared before they are used, constants for all globals, and typed
functions. -/
structure Module.Typed (m : Module) (kinds : Kinds) : Prop where
  names : (m.structs.map StructDef.name).Nodup
  structs : ∀ (i : Nat) (d : StructDef), m.structs[i]? = some d →
    (kinds d.name).isSome ∧ ∀ ty ∈ d.fields, Held kinds ty ∧
      ∀ name, ty = .struct name → ∃ j d', j < i ∧ m.structs[j]? = some d' ∧ d'.name = name
  declared : ∀ name k, kinds name = some k → ∃ d, m.structDef? name = some d
  globals : ∀ g ∈ m.globals, Kept kinds g.ty ∧ g.init.Fits m g.ty
  functions : ∀ f ∈ m.functions, f.Typed m kinds

/-! ## Structures -/

namespace Module

variable {m : Module} {d : StructDef} {name : String}

theorem of_structDef? (h : m.structDef? name = some d) : d ∈ m.structs ∧ d.name = name :=
  ⟨List.mem_of_find?_eq_some h,
    beq_iff_eq.mp (List.find?_some (p := fun d : StructDef => d.name == name) h)⟩

/-- Of distinct names, each is that of one structure. -/
theorem structDef?_of_mem (hnames : (m.structs.map StructDef.name).Nodup) (h : d ∈ m.structs) :
    m.structDef? d.name = some d := find?_of_distinct hnames h

end Module

/-! ## Growth -/

/-- `m'` offers what `m` does, and has its globals in the same places. -/
structure Module.Within (m m' : Module) : Prop where
  offers : m.Offers m'
  globals : ∀ {index : Nat} {g : Global}, m.globals[index]? = some g → m'.globals[index]? = some g

section Growth

variable {m m' : Module} {kinds kinds' : Kinds} {f f' : Function} {before more more' : List Inst}

mutual

theorem Constant.Fits.mono (hoffers : m.Offers m') {ty : IRType} {c : Constant}
    (h : c.Fits m ty) : c.Fits m' ty :=
  match h with
  | .int hbits hn => .int hbits hn
  | .struct hd hall => .struct (hoffers.structs hd) (Constant.FitAll.mono hoffers hall)

theorem Constant.FitAll.mono (hoffers : m.Offers m') {tys : List IRType} {cs : List Constant}
    (h : Constant.FitAll m tys cs) : Constant.FitAll m' tys cs :=
  match h with
  | .nil => .nil
  | .cons hc hcs => .cons (hc.mono hoffers) (Constant.FitAll.mono hoffers hcs)

end

theorem Value.Scoped.mono {params : List IRType} {v : Value} (hwithin : m.Within m')
    (h : v.Scoped m params before) : v.Scoped m' params before := by
  cases h with
  | param hty => exact .param hty
  | inst hinst hty => exact .inst hinst hty
  | const hc => exact .const (hc.mono hwithin.offers)
  | global hg => exact .global (hwithin.globals hg)

/-- What is there stays there. -/
theorem Value.Scoped.later {params : List IRType} {v : Value} (h : v.Scoped m params before)
    (more : List Inst) : v.Scoped m params (before ++ more) := by
  cases h with
  | param hty => exact .param hty
  | inst hinst hty =>
    exact .inst ((List.getElem?_append_left (List.getElem?_eq_some_iff.mp hinst).1).trans hinst) hty
  | const hc => exact .const hc
  | global hg => exact .global hg

theorem Op.Typed.mono {ty : IRType} {op : Op} (hwithin : m.Within m')
    (hkinds : ∀ name k, kinds name = some k → kinds' name = some k)
    (hparams : f'.params = f.params) (hret : f'.ret = f.ret)
    (h : Op.Typed m kinds f before ty op) : Op.Typed m' kinds' f' before ty op := by
  have hvalue : ∀ {v : Value}, v.Scoped m f.params before → v.Scoped m' f'.params before :=
    fun hv => hparams ▸ hv.mono hwithin
  cases h with
  | alloca hheld => exact .alloca (hheld.mono hkinds)
  | heapAlloc hk => exact .heapAlloc (hkinds _ _ hk)
  | store hkept hv hp hty => exact .store (hkept.mono hkinds) (hvalue hv) (hvalue hp) hty
  | load hheld hp hty => exact .load (hheld.mono hkinds) (hvalue hp) hty
  | call htarget hargs htys =>
    obtain ⟨target', htarget', hparams', hret'⟩ := hwithin.offers.functions htarget
    rw [← hret']
    exact .call htarget' (fun arg harg => hvalue (hargs arg harg)) (htys.trans hparams'.symm)
  | add hbits hwide hl hr hlty hrty => exact .add hbits hwide (hvalue hl) (hvalue hr) hlty hrty
  | sub hbits hwide hl hr hlty hrty => exact .sub hbits hwide (hvalue hl) (hvalue hr) hlty hrty
  | fieldAddr hp hty hd hfield => exact .fieldAddr (hvalue hp) hty (hwithin.offers.structs hd) hfield
  | aggregate hd hfields htys =>
    exact .aggregate (hwithin.offers.structs hd) (fun v hv => hvalue (hfields v hv)) htys
  | ret hvoid => exact .ret (hret.trans hvoid)
  | retValue hv hty => exact .retValue (hvalue hv) (hty.trans hret.symm)

namespace Chain

theorem mono (hwithin : m.Within m')
    (hkinds : ∀ name k, kinds name = some k → kinds' name = some k)
    (hparams : f'.params = f.params) (hret : f'.ret = f.ret) (h : Chain m kinds f before more) :
    Chain m' kinds' f' before more := by
  induction h with
  | nil => exact .nil
  | cons hop _ ih => exact .cons (hop.mono hwithin hkinds hparams hret) ih

theorem append (h : Chain m kinds f before more) (h' : Chain m kinds f (before ++ more) more') :
    Chain m kinds f before (more ++ more') := by
  induction h with
  | nil =>
    rw [List.append_nil] at h'
    exact h'
  | cons hop _ ih =>
    refine .cons hop (ih ?_)
    rwa [List.append_assoc, List.singleton_append]

theorem one {ty : IRType} {op : Op} (h : Op.Typed m kinds f before ty op) :
    Chain m kinds f before [⟨before.length, ty, op⟩] := .cons h .nil

end Chain

theorem Function.Typed.mono (h : f.Typed m kinds) (hwithin : m.Within m')
    (hkinds : ∀ name k, kinds name = some k → kinds' name = some k) : f.Typed m' kinds' := by
  obtain ⟨init, last, hblocks, hinit, hlast, hchain⟩ := h.body
  exact ⟨fun ty hty => (h.params ty hty).mono hkinds, h.ret.imp_right fun h => h.mono hkinds, init,
    last, hblocks, hinit, hlast, hchain.mono hwithin hkinds rfl rfl⟩

end Growth

namespace Module.Within

variable {m m' : Module}

theorem of_growth (hstructs : m.structs <+: m'.structs) (hglobals : m.globals <+: m'.globals)
    (hfunctions : m.functions <+: m'.functions) : m.Within m' where
  offers := .of_growth hstructs hfunctions
  globals := by
    intro index g hg
    obtain ⟨more, hmore⟩ := hglobals
    rw [← hmore, List.getElem?_append_left (List.getElem?_eq_some_iff.mp hg).1]
    exact hg

end Module.Within

/-! ## Inside typed functions -/

section Inside

variable {m : Module} {kinds : Kinds} {f : Function} {before rest : List Inst}

theorem Value.Scoped.ne_void {params : List IRType} {v : Value}
    (hparams : ∀ ty ∈ params, Held kinds ty) (h : v.Scoped m params before) : v.ty ≠ .void := by
  cases h with
  | param hty => exact (hparams _ (List.mem_of_getElem? hty)).ne_void
  | inst _ hty => exact hty
  | const hc =>
    rintro rfl
    cases hc
  | global => simp

theorem Chain.head {inst : Inst} (h : Chain m kinds f before (inst :: rest)) :
    Op.Typed m kinds f before inst.ty inst.op := by
  cases h with
  | cons hop _ => exact hop

/-- An instruction of a chain is typed against those before it. -/
theorem Chain.typed {init tail : List Inst} {inst : Inst}
    (h : Chain m kinds f before (init ++ inst :: tail)) :
    inst.id = (before ++ init).length ∧ Op.Typed m kinds f (before ++ init) inst.ty inst.op := by
  induction init generalizing before with
  | nil =>
    rw [List.append_nil]
    cases h with
    | cons hop _ => exact ⟨rfl, hop⟩
  | cons first init ih =>
    cases h with
    | cons hop hrest =>
      have h := ih hrest
      rwa [List.append_assoc, List.singleton_append] at h

/-- Every instruction of a chain is typed against some before it. -/
theorem Chain.typed_of_mem {insts : List Inst} (h : Chain m kinds f before insts) {inst : Inst}
    (hinst : inst ∈ insts) : ∃ earlier, Op.Typed m kinds f earlier inst.ty inst.op := by
  obtain ⟨init, tail, rfl⟩ := List.append_of_mem hinst
  exact ⟨_, h.typed.2⟩

theorem Function.Typed.chain (h : f.Typed m kinds) : Chain m kinds f [] f.insts := by
  obtain ⟨init, last, hblocks, _, _, hchain⟩ := h.body
  simpa [Function.insts, hblocks] using hchain

/-- The instruction at a place of a function has the number of that place, and is typed against those
before it. -/
theorem Function.Typed.typed_at (h : f.Typed m kinds) {k : Nat} {inst : Inst}
    (hk : f.insts[k]? = some inst) :
    inst.id = k ∧ Op.Typed m kinds f (f.insts.take k) inst.ty inst.op := by
  have hchain := h.chain
  obtain ⟨hlt, rfl⟩ := List.getElem?_eq_some_iff.mp hk
  have hsplit : f.insts = f.insts.take k ++ f.insts[k] :: f.insts.drop (k + 1) := by
    rw [List.getElem_cons_drop, List.take_append_drop]
  rw [hsplit] at hchain
  have htyped := hchain.typed
  rw [List.nil_append, List.length_take_of_le (Nat.le_of_lt hlt)] at htyped
  exact htyped

theorem Op.Typed.of_call {ty : IRType} {callee : FunctionId} {args : List Value}
    (h : Op.Typed m kinds f before ty (.call callee args)) :
    ∃ target, m.function? callee = some target ∧ (∀ arg ∈ args, arg.Scoped m f.params before) ∧
      args.map Value.ty = target.params ∧ ty = target.ret := by
  cases h with
  | call htarget hargs htypes => exact ⟨_, htarget, hargs, htypes, rfl⟩

theorem Op.Typed.of_aggregate {ty : IRType} {fields : List Value}
    (h : Op.Typed m kinds f before ty (.aggregate fields)) :
    ∃ name d, ty = .struct name ∧ m.structDef? name = some d ∧
      (∀ field ∈ fields, field.Scoped m f.params before) ∧ fields.map Value.ty = d.fields := by
  cases h with
  | aggregate hd hfields htypes => exact ⟨_, _, rfl, hd, hfields, htypes⟩

/-- What an operation reads is there. -/
theorem Op.Typed.operands {ty : IRType} {op : Op} (h : Op.Typed m kinds f before ty op) :
    ∀ v ∈ op.operands, v.Scoped m f.params before := by
  intro v hv
  cases h with
  | alloca | heapAlloc | ret => cases hv
  | store _ hvalue hptr | add _ _ hvalue hptr | sub _ _ hvalue hptr =>
    simp only [Op.operands, List.mem_cons, List.not_mem_nil, or_false] at hv
    rcases hv with rfl | rfl <;> assumption
  | load _ hptr | fieldAddr hptr | retValue hptr =>
    rw [List.mem_singleton.mp hv]
    exact hptr
  | call _ hargs | aggregate _ hargs => exact hargs v hv

end Inside

end IR

end Straightline
