import Straightline.Proofs.Units.Typed

/-!
# Numbers in modules

Numbers get into a module as literals and truth values, and in no other way. So at any depth in the contents
of a global, and in any constant operand, a number has the place of an integer and is one of its width: what
is made of it later loses nothing when it is cut to that width.
-/

set_option autoImplicit false

namespace Straightline

namespace IR

/-- The constant at the end of a path, which leads from structures to their fields. -/
def Constant.at? : Constant → List Nat → Option Constant
  | c, [] => some c
  | .struct fields, index :: path =>
    match fields[index]? with
    | some field => field.at? path
    | none => none
  | .int _, _ :: _ => none

/-- The type of what is at the end of a path in a value of the type. -/
def Module.typeAt? (m : Module) : IRType → List Nat → Option IRType
  | ty, [] => some ty
  | .struct name, index :: path =>
    match (m.structDef? name).bind fun d => d.fields[index]? with
    | some ty => m.typeAt? ty path
    | none => none
  | _, _ :: _ => none

/-- Every number in the constant, however deep, has the place of an integer in the type, and is one of its
width. -/
def Constant.InRange (m : Module) (ty : IRType) (c : Constant) : Prop :=
  ∀ (path : List Nat) (n : Int), c.at? path = some (.int n) →
    ∃ bits ∈ widths, m.typeAt? ty path = some (.int bits) ∧ Canonical bits n

/-- Every number in the contents of a global or in an operand of an instruction has an integer type and is
one of its width. -/
structure Module.NumbersInRange (m : Module) : Prop where
  globals : ∀ g ∈ m.globals, g.init.InRange m g.ty
  operands : ∀ f ∈ m.functions, ∀ inst ∈ f.insts, ∀ v ∈ inst.op.operands, ∀ c, v.constant? = some c →
    c.InRange m v.ty

variable {m : Module} {ty : IRType} {c c' : Constant}

/-- What lies in a constant of a type is a constant of the type that lies there. -/
theorem Constant.Fits.at? (h : c.Fits m ty) {path : List Nat} (hpath : c.at? path = some c') :
    ∃ ty', m.typeAt? ty path = some ty' ∧ c'.Fits m ty' := by
  induction path generalizing ty c with
  | nil =>
    cases c <;> cases hpath <;> exact ⟨ty, by cases ty <;> rfl, h⟩
  | cons index path ih =>
    cases h with
    | int => cases hpath
    | @struct name d fields hd hall =>
      rw [Constant.at?] at hpath
      split at hpath
      · next field hfield =>
        obtain ⟨fieldTy, hfieldTy, hfits⟩ := forall₂_getElem? hall.forall₂.flip hfield
        obtain ⟨ty', hty', hfits'⟩ := ih hfits hpath
        refine ⟨ty', ?_, hfits'⟩
        simp only [Module.typeAt?, hd, Option.bind_some, hfieldTy, hty']
      · cases hpath

theorem Constant.Fits.inRange (h : c.Fits m ty) : c.InRange m ty := by
  intro path n hpath
  obtain ⟨ty', hty', hfits⟩ := h.at? hpath
  cases hfits with
  | @int bits _ hbits hn => exact ⟨bits, hbits, hty', hn⟩

/-- Well-typed modules have no number that its type does not. -/
theorem Module.Typed.numbersInRange {kinds : Kinds} (h : m.Typed kinds) : m.NumbersInRange where
  globals := fun g hg => (h.globals g hg).2.inRange
  operands := by
    intro f hf inst hinst v hv c hc
    obtain ⟨before, hop⟩ := (h.functions f hf).chain.typed_of_mem hinst
    have hscoped := hop.operands v hv
    cases hscoped with
    | const hfits =>
      cases hc
      exact hfits.inRange
    | param | inst | global => cases hc

end IR

/-- What is a number in source, and which numbers get into modules. The literals of an integer type are the
words in decimal digits, and at least one, whose number is at most the greatest of the type; they are the
words which begin with a digit and are read as numbers of its width. And in the module of every project each
number, at any depth in the contents of a global or in an operand of an instruction, is one of the width of
its type. -/
theorem numbers_in_range :
    (∀ p : Primitive, p.isInteger = true → ∀ word : String,
      ((Ty.primitive p).literal? word =
        if word.toList.head?.any Char.isDigit then Decimal.signed? p.bits word.toList else none) ∧
      ∀ n : Int, (Ty.primitive p).literal? word = some n ↔
        Decimal.Writes word n ∧ n ≤ 2 ^ (p.bits - 1) - 1) ∧
    ∀ (name : String) (units : List SourceUnit),
      ((Project.start name).run units).builder.module.NumbersInRange :=
  ⟨fun _ hinteger word => ⟨Ty.literal?_eq_signed hinteger word, fun _ => Ty.literal?_eq_some_iff hinteger⟩,
    fun name units => (Project.typed_module name units).numbersInRange⟩

/-- A structure in a structure, given by literals with zeros before them. -/
def padded : SourceUnit where
  name := "padded"
  bytes := ("P: struct = (x: Int8, y: Int32)\nQ: struct = (p: P, z: Bool)\n" ++
    "q: Q = Q(P(0127, y: 070000), true)\n").toList.map Char.toUInt8

/-- The inner numbers are those which the literals write, each of its own width; one more would be too much
for the first. -/
theorem numbers_in_range_padded :
    (Ty.primitive .int8).literal? "0127" = some 127 ∧ (Ty.primitive .int8).literal? "128" = none ∧
      ∃ g, ((Project.start "m").run [padded]).builder.module.globals = [g] ∧
        g.init = .struct [.struct [.int 127, .int 70000], .int 1] ∧
        ∃ bits ∈ IR.widths, ((Project.start "m").run [padded]).builder.module.typeAt? g.ty [0, 1] =
          some (.int bits) ∧ IR.Canonical bits 70000 := by
  obtain ⟨hliterals, hmodules⟩ := numbers_in_range
  have hbeyond := (hliterals .int8 rfl "128").1
  have hfits : (Ty.primitive .int8).literal? "0127" = some 127 :=
    ((hliterals .int8 rfl "0127").2 127).mpr ⟨⟨by decide, List.all_eq_true.mp (by decide), rfl⟩, by decide⟩
  have hglobals : ((Project.start "m").run [padded]).builder.module.globals =
      [⟨"q", .struct "Q", .struct [.struct [.int 127, .int 70000], .int 1]⟩] := by decide +kernel
  refine ⟨hfits, ?_, _, hglobals, rfl, ?_⟩
  · rw [hbeyond]
    decide
  · exact (hmodules "m" [padded]).globals _ (hglobals ▸ List.mem_singleton_self _) [0, 1] 70000 rfl

end Straightline
