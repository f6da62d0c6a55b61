import Straightline.Proofs.Lowering.Modules

/-!
# Words that do not suffice

Sizes and offsets are words, and lowering computes them with a check. So where a module is lowered, they are
the sizes and offsets in the natural numbers. But only where the stack ends is a number that is too large
reported as an error. Everywhere else the program is stopped, and it is exactly if a size or an offset that
lowering gets to reaches `2 ^ 32` (`words_exact_iff`). Sizes multiply with every structure that contains
others, so few lines suffice for one that does (`words_exact_fails_towering`).
-/

set_option autoImplicit false

namespace Straightline

open Lowering (DataImage Frame Layouts PlacedConstant lowerModule memoryExport pageSize)

namespace IR.Module

/-- Every word that lowering computes is the number that it stands for: the extents of structures and the
offsets of their fields, the addresses of constants and the end of the data, where the stack begins, the
slots and sizes of frames, and what is taken from the heap. -/
structure Exact (m : Module) (layouts : Layouts) (data : DataImage) : Prop where
  structs : layouts.Know m m.structs
  addresses : (data.globals ++ data.constants.map PlacedConstant.address).map UInt32.toNat =
    Space.offsets Lowering.nullGuard.toNat (m.statics.map m.constantSpace)
  finish : data.finish.toNat = m.dataStop
  base : ∃ base, Lowering.alignTo data.finish Lowering.frameAlign = .ok base ∧ base.toNat = m.dataEnd
  frames : ∀ f ∈ m.functions, ∃ frame, Frame.ofFunction layouts f = .ok frame ∧ frame.Is m f
  heap : ∀ f ∈ m.functions, ∀ ty ∈ heapTypes f.insts, ∃ e size, layouts.extent ty = .ok e ∧
    Lowering.heapSize e = .ok size ∧ size.toNat = m.modelSize ty

/-- Nothing that lowering gets to is too large for a word. It gets to the functions if the stack fits and no
function is named as the memory is. -/
def FitsAsFar (m : Module) (stackPages : Nat) : Prop :=
  m.StaticFits ∧ (m.dataEnd + stackPages * pageSize.toNat < UInt32.size →
    (∀ f ∈ m.functions, f.name ≠ memoryExport) → ∀ f ∈ m.functions, m.FunctionFits f)

/-- The module is lowered with words that are exact, or refused for one of two reasons. -/
inductive Settled (m : Module) (stackPages : Nat) : Prop where
  | lowered {wasm : Wasm.Module} {layouts : Layouts} {data : DataImage} :
      lowerModule m stackPages = .ok wasm → Layouts.ofStructs m.structs = .ok layouts →
      DataImage.ofModule layouts m = .ok data → wasm.data = data.segments → m.Exact layouts data →
      Settled m stackPages
  | tooLarge : lowerModule m stackPages = .error .stackTooLarge → Settled m stackPages
  | reserved : lowerModule m stackPages = .error .reservedName → Settled m stackPages

variable {m : Module} {kinds : Kinds} {layouts : Layouts} {data : DataImage} {stackPages : Nat}

/-- What is taken from the heap has a size. -/
theorem Typed.sized_of_heapTypes (h : m.Typed kinds) {f : Function} (hf : f ∈ m.functions) {ty : IRType}
    (hty : ty ∈ heapTypes f.insts) : Lowering.Sized m.structs ty := by
  obtain ⟨⟨id, instTy, op⟩, hinst, hop⟩ := List.mem_filterMap.mp hty
  obtain ⟨_, htyped⟩ := (h.functions f hf).chain.typed_of_mem hinst
  dsimp only at hop htyped
  cases htyped with
  | heapAlloc hk =>
    cases hop
    -- Only a declared model is made on the heap, and its contents are kept.
    exact .of_kept h (.contents hk)
  | _ => cases hop

theorem Typed.exact (htyped : m.Typed kinds) (hfits : m.Fits)
    (hlayouts : Layouts.ofStructs m.structs = .ok layouts)
    (hdata : DataImage.ofModule layouts m = .ok data) : m.Exact layouts data := by
  obtain ⟨hknow, hholds⟩ := Lowering.placed_of_ok htyped hlayouts hdata
  refine ⟨hknow, hholds.addresses, hholds.finish,
    (Lowering.stackBase_checked hholds.finish).ok hfits.data, fun f hf => ?_, fun f hf ty hty => ?_⟩
  · exact (Lowering.ofFunction_checked htyped hknow hf).ok (hfits.functions f hf).frame
  · obtain ⟨e, hextent, he⟩ := hknow.extent (htyped.sized_of_heapTypes hf hty)
    obtain ⟨size, hsize⟩ := (Layouts.heapSize_checked he).ok ((hfits.functions f hf).heap ty hty)
    exact ⟨e, size, hextent, hsize⟩

/-- Nothing is too large where the module was lowered or refused. -/
theorem Typed.settled (htyped : m.Typed kinds) (hfits : m.FitsAsFar stackPages) :
    m.Settled stackPages := by
  obtain ⟨hstatic, hfunctions⟩ := hfits
  obtain ⟨hchecked, hreserved, hlarge⟩ := Lowering.lowerModule_total htyped hstatic stackPages
  rcases Nat.lt_or_ge (m.dataEnd + stackPages * pageSize.toNat) UInt32.size with hroom | hroom
  · by_cases hnames : ∀ f ∈ m.functions, f.name ≠ memoryExport
    case pos =>
      have hfits : ∀ f ∈ m.functions, m.FunctionFits f := hfunctions hroom hnames
      obtain ⟨wasm, hlower, _⟩ := (hchecked hroom hnames).ok hfits
      obtain ⟨layouts, data, _, _, _, hlayouts, hdata, _, _, _, rfl⟩ := Lowering.of_lowerModule hlower
      exact .lowered hlower hlayouts hdata rfl (htyped.exact ⟨hstatic, hfits⟩ hlayouts hdata)
    case neg => exact .reserved (hreserved hroom (by simpa using hnames))
  · exact .tooLarge (hlarge hroom)

/-- Otherwise it is neither. -/
theorem Typed.stops (htyped : m.Typed kinds) (hfits : ¬m.FitsAsFar stackPages) :
    ∃ op, lowerModule m stackPages = .error (.overflow op) := by
  by_cases hstatic : m.StaticFits
  case neg => exact Lowering.lowerModule_stops htyped hstatic stackPages
  have hno : ¬(m.dataEnd + stackPages * pageSize.toNat < UInt32.size →
      (∀ f ∈ m.functions, f.name ≠ memoryExport) → ∀ f ∈ m.functions, m.FunctionFits f) :=
    fun hfunctions => hfits ⟨hstatic, hfunctions⟩
  simp only [Classical.not_imp] at hno
  obtain ⟨hroom, hnames, hno⟩ := hno
  exact ((Lowering.lowerModule_total htyped hstatic stackPages).1 hroom hnames).stops hno

theorem Settled.not_stopped (h : m.Settled stackPages) {op : Lowering.WordOp} :
    lowerModule m stackPages ≠ .error (.overflow op) := by
  intro hstop
  cases h with
  | lowered hlower => cases hlower.symm.trans hstop
  | tooLarge hlarge => cases hlarge.symm.trans hstop
  | reserved hreserved => cases hreserved.symm.trans hstop

end IR.Module

/-- When the words of a program suffice. It is built from source, and the stack may have any number of pages.
Either the program is lowered, and every size and offset that was computed is what it is in the natural
numbers, or it is refused with an error, or lowering is stopped by an overflow. The last happens exactly if
something that lowering gets to reaches `2 ^ 32`. -/
theorem words_exact_iff {units : List SourceUnit} {options : CompileOptions} {m : IR.Module}
    (hbuild : (buildModule units options).result = .ok m) (stackPages : Nat) :
    (m.Settled stackPages ↔ m.FitsAsFar stackPages) ∧
      ((∃ op, lowerModule m stackPages = .error (.overflow op)) ↔ ¬m.FitsAsFar stackPages) := by
  obtain ⟨kinds, htyped⟩ := typed_of_buildModule hbuild
  refine ⟨⟨fun hsettled => ?_, htyped.settled⟩, fun ⟨op, hstop⟩ hfits => ?_, htyped.stops⟩
  · by_contra hno
    obtain ⟨op, hstop⟩ := htyped.stops hno
    exact hsettled.not_stopped hstop
  · exact (htyped.settled hfits).not_stopped hstop

/-- A model with a structure in it. -/
def boxing : SourceUnit where
  name := "boxing"
  bytes := ("Pair: struct = (a: Int8, b: Int64)\nBox: model = (p: Pair, n: Int16)\n" ++
    "make: (n: Int16) -> Box = \x7b\n  return Box(Pair(1, 2), n)\n\x7d\n").toList.map Char.toUInt8

/-- None of the sizes of that program is large. -/
theorem words_exact_iff_boxing :
    ∃ m, (buildModule [boxing] {}).result = .ok m ∧
      (∃ f ∈ m.functions, IR.Module.heapTypes f.insts ≠ []) ∧ m.Settled 16 := by
  have hcheck : ∃ m, (buildModule [boxing] {}).result = .ok m ∧ m.Fits ∧
      ∃ f ∈ m.functions, IR.Module.heapTypes f.insts ≠ [] := by decide +kernel
  obtain ⟨m, hbuild, hfits, htypes⟩ := hcheck
  have hfar : m.FitsAsFar 16 := ⟨hfits.toStaticFits, fun _ _ => hfits.functions⟩
  exact ⟨m, hbuild, htypes, (words_exact_iff hbuild 16).1.mpr hfar⟩

/-- The bytes of a text of one-byte characters. -/
def latin (text : String) : List UInt8 := text.toList.map Char.toUInt8

/-- Items in parentheses, up to the end of the line. -/
def listed (items : List (List UInt8)) : List UInt8 :=
  latin "(" ++ (items.intersperse (latin ", ")).flatten ++ latin ")\n"

/-- The declaration of a type with so many fields, all of type `ty`. -/
def fieldsOf (name kind : String) (count : Nat) (ty : String) : List UInt8 :=
  latin name ++ latin ": " ++ latin kind ++ latin " = " ++
    listed (("abcdefghijklm".toList.take count).map fun letter =>
      letter.toUInt8 :: latin ": " ++ latin ty)

/-- The declaration of a structure with eight fields of one type. -/
def eightOf (name ty : String) : List UInt8 := fieldsOf name "struct" 8 ty

/-- Ten structures, each of which contains the one before it eight times. -/
def towering : SourceUnit where
  name := "towering"
  bytes := eightOf "T1" "Int64" ++ eightOf "T2" "T1" ++ eightOf "T3" "T2" ++ eightOf "T4" "T3" ++
    eightOf "T5" "T4" ++ eightOf "T6" "T5" ++ eightOf "T7" "T6" ++ eightOf "T8" "T7" ++
    eightOf "T9" "T8" ++ eightOf "T10" "T9" ++
    latin "size: (x: T10) -> Int8 = \x7b\n  return 1\n\x7d\n"

/-- The last of them takes `2 ^ 33` bytes. The program is built, and stopped where the size of that structure
is computed. -/
theorem words_exact_fails_towering :
    ∃ m, (buildModule [towering] {}).result = .ok m ∧ m.sizeOf (.struct "T10") = 2 ^ 33 ∧
      lowerModule m 16 = .error (.overflow .add) ∧ ¬m.Settled 16 := by
  have hcheck : ∃ m, (buildModule [towering] {}).result = .ok m ∧ m.sizeOf (.struct "T10") = 2 ^ 33 ∧
      ∃ fault, lowerModule m 16 = .error fault ∧ fault = .overflow .add := by decide +kernel
  obtain ⟨m, hbuild, hsize, _, hstop, rfl⟩ := hcheck
  exact ⟨m, hbuild, hsize, hstop, fun hsettled => hsettled.not_stopped hstop⟩

end Straightline
