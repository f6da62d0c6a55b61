import Straightline.Proofs.Lowering.ShadowStack
import Straightline.Proofs.Safety.Contents

/-!
# The local for the address of a frame

Addresses in a frame are computed from a local that is numbered right behind the parameters. It is declared
and set if the frame takes space, and then it is a word, apart from the parameters and from every result,
and holds the address of the frame up to the end (`Framed.based`). But whether an instruction keeps something
in the frame is asked of each instruction, and not whether that takes space. So the local is what it has to
be exactly if the frame takes space (`frame_base_valid_iff`): where all that a function keeps are structures
without fields, addresses are computed from the first result (`frame_base_valid_fails_hollow`).
-/

set_option autoImplicit false

namespace Straightline

namespace Lowering

open IR (Inst Kinds)
open Wasm (Avoids Effect Engine Instance Instr Invoke Passes Runs Val)
open Wasm.Instr (effectsAll)

variable {m : IR.Module} {kinds : Kinds} {f : IR.Function} {frame : Frame} {ctx : FunctionContext}
variable {code : Wasm.Function} {middle : List Instr} {inst : Inst} {ty : IRType}

/-! ## Frames that take no space -/

/-- The frame takes space exactly if something that is kept in it does. -/
theorem Frame.Is.size_ne_zero_iff (h : frame.Is m f) (hf : f.Typed m kinds) :
    frame.size ≠ 0 ↔ ∃ inst ∈ f.insts, ∃ ty, storedType? inst = some ty ∧ m.sizeOf ty ≠ 0 := by
  constructor
  · intro hsize
    by_contra hempty
    push Not at hempty
    have hstops : Space.stops 0 ((IR.Module.slotted f.insts).map m.slotSpace) = 0 := by
      refine Space.stops_of_empty fun s hs => ?_
      obtain ⟨slot, hslot, rfl⟩ := List.mem_map.mp hs
      obtain ⟨inst, hinst, hkeeps⟩ := List.mem_filterMap.mp hslot
      obtain ⟨ty, hstored, rfl⟩ := Option.map_eq_some_iff.mp hkeeps
      exact hempty inst hinst ty hstored
    have hzero : frame.size.toNat = 0 := by
      rw [h.size, IR.Module.frameSize, hstops]
      rfl
    exact hsize (UInt32.toNat_inj.mp hzero)
  · rintro ⟨inst, hinst, ty, hstored, hne⟩
    exact h.size_ne_zero hf hinst hstored hne

/-- Whatever keeps something in the frame has a result: its address. -/
theorem isVoid_of_stored {before : List Inst} (hop : IR.Op.Typed m kinds f before inst.ty inst.op)
    (hstored : storedType? inst = some ty) : inst.ty.isVoid = false := by
  obtain ⟨id, instTy, op⟩ := inst
  cases op with
  | alloca =>
    cases hop
    rfl
  | load | call | aggregate =>
    simp only [storedType?, Option.ite_none_right_eq_some] at hstored
    exact IRType.isVoid_of_isStruct hstored.1
  | heapAlloc | store | add | sub | fieldAddr | ret => cases hstored

/-- The first result is in the first local behind the parameters that is not for the address. -/
theorem Frame.Numbered.first_result (h : frame.Numbered f) {inst : Inst} (hinst : inst ∈ f.insts)
    (hvoid : inst.ty.isVoid = false) :
    ∃ id, frame.result? id = some (f.params.length + frame.baseLocals.length) := by
  have hvalued : inst ∈ Frame.valued f := List.mem_filter.mpr ⟨hinst, by simp [hvoid]⟩
  obtain ⟨first, rest, hfirst⟩ := List.exists_cons_of_ne_nil (List.ne_nil_of_mem hvalued)
  refine ⟨first.id, ?_⟩
  rw [Frame.result?, h.results, hfirst, List.mapIdx_cons, List.lookup_cons_self]
  rfl

/-! ## The base -/

/-- The local that the addresses in a frame are computed from is there for that: it is a word that is
declared behind the parameters, and no result is in it; the prologue sets it to the stack pointer as it has
moved it down, nothing after the prologue sets it, and so it holds this wherever the rest gets to. -/
structure Based (ctx : FunctionContext) (code : Wasm.Function) : Prop where
  declared : ∃ index, ctx.frame.base = code.params.length + index ∧ code.locals[index]? = some .i32
  apart : ∀ id place, ctx.frame.result? id = some place → place ≠ ctx.frame.base
  held : ∃ rest, code.body = ctx.prologue ++ rest ∧ .setLocal ctx.frame.base ∉ effectsAll rest ∧
    ∀ (engine : Engine) (invoke : Invoke) (words : List Val) (s : Instance) (sp : UInt32),
      words.map Val.type = code.params → s.globals[stackPointer]? = some sp →
        ∃ c, Runs engine invoke ctx.prologue (code.start words s) c ∧
          c.inst.globals[stackPointer]? = some (sp - ctx.frame.size) ∧
          ∀ c', Passes engine invoke c rest c' →
            c'.locals[ctx.frame.base]? = some (.i32 (sp - ctx.frame.size))

theorem Framed.rest_avoids (h : Framed ctx code middle) (hsize : ctx.frame.size ≠ 0) :
    .setLocal ctx.frame.base ∉ effectsAll (middle ++ (ctx.epilogue ++ [.ret])) := by
  rw [Wasm.Instr.effectsAll_append, List.mem_append]
  rintro (hmiddle | hend)
  · exact h.keeps _ hmiddle ⟨hsize, rfl⟩
  · simp [FunctionContext.epilogue, hsize, effectsAll, Instr.effects] at hend

theorem Framed.based (h : Framed ctx code middle) (hframe : ctx.frame.Numbered f)
    (hparams : code.params = f.params.map valType) (hsize : ctx.frame.size ≠ 0) : Based ctx code where
  declared := by
    have hbase : ctx.frame.base = code.params.length := by
      rw [hframe.base, hparams, List.length_map]
    refine ⟨0, hbase, ?_⟩
    have hlocal := h.base hsize
    rwa [hbase, List.getElem?_append_right (Nat.le_refl _), Nat.sub_self] at hlocal
  apart _ _ hplace := Nat.ne_of_gt (hframe.base_lt_result hsize hplace)
  held := by
    refine ⟨middle ++ (ctx.epilogue ++ [.ret]), by simp [h.body], h.rest_avoids hsize,
      fun engine invoke words s sp htypes hsp => ?_⟩
    obtain ⟨c, hruns, hat⟩ := h.enters engine invoke htypes hsp
    refine ⟨c, hruns, hat.pointer, fun c' hpasses => ?_⟩
    -- What the calls do to globals does not matter to a local.
    have hsame : c.Same (· = .setLocal ctx.frame.base) c' :=
      hpasses.same (fun _ _ _ _ _ _ _ hglobal => nomatch hglobal) (.of_eq rfl rfl)
        fun e he heq => h.rest_avoids hsize (heq ▸ he)
    exact (hsame.locals _ rfl).trans (hat.address hsize)

/-- If the frame takes no space, a result is in the local. -/
theorem Frame.Numbered.not_based (h : ctx.frame.Numbered f) (hsize : ctx.frame.size = 0)
    (hinst : inst ∈ f.insts) (hvoid : inst.ty.isVoid = false) : ¬Based ctx code := by
  intro hbased
  obtain ⟨id, hplace⟩ := h.first_result hinst hvoid
  rw [Frame.baseLocals, if_pos hsize, List.length_nil, Nat.add_zero, ← h.base] at hplace
  exact hbased.apart id _ hplace rfl

/-! ## Who reads it -/

/-- The code of whatever keeps something in the frame computes the address of its slot. -/
theorem Lowered.frameAddress {instrs : List Instr} (h : Lowered ctx inst instrs)
    (hstored : storedType? inst = some ty) :
    ∃ slot, ctx.frame.slot? inst.id = some slot ∧ ctx.frameAddress slot <:+: instrs := by
  cases h with
  | alloca hslot _ => exact ⟨_, hslot, (List.prefix_append _ _).isInfix⟩
  | loadStruct _ hslot _ _ _ => exact ⟨_, hslot, List.infix_append _ _ _⟩
  | callStruct _ _ hslot _ _ => exact ⟨_, hslot, List.infix_append _ _ _⟩
  | aggregate _ hslot _ _ => exact ⟨_, hslot, List.infix_append _ _ _⟩
  | load hstruct | call hstruct => simp [storedType?, hstruct] at hstored
  | callVoid hvoid _ =>
    cases IRType.eq_void_of_isVoid hvoid
    cases hstored
  | heapAlloc | store | add | sub | fieldAddr | ret | retValue => cases hstored

/-- An instruction that keeps something in the frame reads the local, and that is its base exactly if the
frame takes space. -/
theorem based_iff {layouts : Layouts} {data : DataImage} (hf : f.Typed m kinds)
    (h : lowerFunction layouts data f = .ok code) :
    ∃ frame, Frame.ofFunction layouts f = .ok frame ∧
      ∀ inst ∈ f.insts, ∀ ty, storedType? inst = some ty →
        (∃ slot, frame.slot? inst.id = some slot ∧
          FunctionContext.frameAddress ⟨layouts, data, frame⟩ slot <:+: code.body) ∧
        (Based ⟨layouts, data, frame⟩ code ↔ frame.size ≠ 0) := by
  obtain ⟨frame, middle, hmade, hframed⟩ := framed_of_lowerFunction hf h
  have hframe : frame.Numbered f := Frame.numbered_of_ofFunction hmade
  obtain ⟨frame', codes, ⟨hmade', hcodes⟩, rfl⟩ := of_lowerFunction h
  cases hmade.symm.trans hmade'
  refine ⟨frame, hmade, fun inst hinst ty hstored => ⟨?_, fun hbased hsize => ?_,
    hframed.based hframe rfl⟩⟩
  · obtain ⟨i, hi⟩ := List.getElem?_of_mem hinst
    obtain ⟨instrs, hinstrs, hlowered⟩ := forall₂_getElem? hcodes hi
    obtain ⟨slot, hslot, haddress⟩ := hlowered.frameAddress hstored
    have hflat : instrs <:+: codes.flatten := List.infix_of_mem_flatten (List.mem_of_getElem? hinstrs)
    exact ⟨slot, hslot, haddress.trans (hflat.trans (List.suffix_append _ _).isInfix)⟩
  · obtain ⟨_, hop⟩ := hf.chain.typed_of_mem hinst
    exact hframe.not_based hsize hinst (isVoid_of_stored hop hstored) hbased

end Lowering

open Lowering

/-- Where the local for the address of the frame is what it has to be. The module is built from source and
lowered; whatever instruction of a function keeps something in its frame, its code reads the local, and that
is declared, apart from the parameters and the results, set by the prologue and kept from there exactly if
the frame takes space. It takes space exactly if something that is kept in it does. -/
theorem frame_base_valid_iff {units : List SourceUnit} {options : CompileOptions} {m : IR.Module}
    {stackPages : Nat} {wasm : Wasm.Module} (hbuild : (buildModule units options).result = .ok m)
    (hlower : lowerModule m stackPages = .ok wasm) {id : IR.FunctionId} {f : IR.Function}
    (hf : m.function? id = some f) :
    ∃ ctx code, Layouts.ofStructs m.structs = .ok ctx.layouts ∧
      Frame.ofFunction ctx.layouts f = .ok ctx.frame ∧ wasm.functions[id]? = some code ∧
      (∀ inst ∈ f.insts, ∀ ty, storedType? inst = some ty →
        (∃ slot, ctx.frame.slot? inst.id = some slot ∧ ctx.frameAddress slot <:+: code.body) ∧
        (Based ctx code ↔ ctx.frame.size ≠ 0)) ∧
      (ctx.frame.size ≠ 0 ↔
        ∃ inst ∈ f.insts, ∃ ty, storedType? inst = some ty ∧ m.sizeOf ty ≠ 0) := by
  obtain ⟨kinds, htyped⟩ := typed_of_buildModule hbuild
  obtain ⟨layouts, data, top, exports, functions, hlayouts, hdata, _, _, hfunctions, rfl⟩ :=
    of_lowerModule hlower
  have hmem := List.mem_of_getElem? hf
  obtain ⟨code, hcode, hcoded⟩ := forall₂_getElem? hfunctions hf
  obtain ⟨frame, hmade, hbased⟩ := based_iff (htyped.functions f hmem) hcoded
  obtain ⟨hknow, _⟩ := placed_of_ok htyped hlayouts hdata
  have his : frame.Is m f := ((ofFunction_checked htyped hknow hmem).of_ok hmade).2
  exact ⟨⟨layouts, data, frame⟩, code, hlayouts, hmade, hcode, hbased,
    his.size_ne_zero_iff (htyped.functions f hmem)⟩

/-- The function `make` keeps the pair that it gives. Its frame takes space, so the base is one. -/
theorem frame_base_valid_handing :
    ∃ m wasm f, (buildModule [handing] {}).result = .ok m ∧ lowerModule m 16 = .ok wasm ∧
      m.function? 0 = some f ∧ ∃ ctx code, Frame.ofFunction ctx.layouts f = .ok ctx.frame ∧
        wasm.functions[0]? = some code ∧ Based ctx code := by
  have hcheck : ∃ m, (buildModule [handing] {}).result = .ok m ∧
      (∃ wasm, lowerModule m 16 = .ok wasm) ∧ ∃ f, m.function? 0 = some f ∧
        ∃ inst ∈ f.insts, ∃ ty, storedType? inst = some ty ∧ m.sizeOf ty ≠ 0 := by decide +kernel
  obtain ⟨m, hbuild, ⟨wasm, hlower⟩, f, hf, inst, hinst, ty, hstored, hne⟩ := hcheck
  obtain ⟨ctx, code, _, hmade, hcode, hbased, hsize⟩ := frame_base_valid_iff hbuild hlower hf
  exact ⟨m, wasm, f, hbuild, hlower, hf, ctx, code, hmade, hcode,
    (hbased inst hinst ty hstored).2.mpr (hsize.mpr ⟨inst, hinst, ty, hstored, hne⟩)⟩

/-- A number and a structure without fields, and a function that hands both on. -/
def hollow : SourceUnit where
  name := "hollow"
  bytes := ("E: struct = ()\ng: Int64 = 7\nge: E = E()\nh: (n: Int64, e: E) -> Int64 = \x7b\n" ++
    "  return n\n\x7d\nmain: () -> Int64 = \x7b\n  return h(g, ge)\n\x7d\n").toList.map Char.toUInt8

/-- The structure that `main` loads is kept in its frame, which takes no space. Its address is computed from
the local of the number that was loaded before. That is no word, so the code is not valid; the module means
7 nevertheless. -/
theorem frame_base_valid_fails_hollow :
    ∃ m wasm, (buildModule [hollow] {}).result = .ok m ∧ m.Fits ∧ lowerModule m 16 = .ok wasm ∧
      (∃ (ctx : FunctionContext) (f : IR.Function) (code : Wasm.Function),
        Layouts.ofStructs m.structs = .ok ctx.layouts ∧ m.function? 1 = some f ∧
        Frame.ofFunction ctx.layouts f = .ok ctx.frame ∧ wasm.functions[1]? = some code ∧
        (∃ inst ∈ f.insts, storedType? inst = some (.struct "E")) ∧
        ctx.frame.result? 0 = some ctx.frame.base ∧
        (code.params ++ code.locals)[ctx.frame.base]? = some .i64 ∧ ¬Based ctx code) ∧
      (∃ mem, m.callWithin 2 1 [] m.memory = .ok (some (.int 7)) mem) ∧
      ∃ s, wasm.callWithin (fun _ => false) 2 1 [] wasm.instantiate = .error .invalid s := by
  have hcheck : ∃ m, (buildModule [hollow] {}).result = .ok m ∧ m.Fits ∧
      ∃ wasm, lowerModule m 16 = .ok wasm ∧
        (∃ layouts, Layouts.ofStructs m.structs = .ok layouts ∧ ∃ f : IR.Function, m.function? 1 = some f ∧
          ∃ frame : Frame, Frame.ofFunction layouts f = .ok frame ∧
            (∃ inst ∈ f.insts, storedType? inst = some (.struct "E")) ∧
            frame.result? 0 = some frame.base ∧ ∃ code : Wasm.Function, wasm.functions[1]? = some code ∧
              (code.params ++ code.locals)[frame.base]? = some .i64) ∧
        (∃ d mem, m.callWithin 2 1 [] m.memory = .ok d mem ∧ d = some (.int 7)) ∧
        ∃ cause s, wasm.callWithin (fun _ => false) 2 1 [] wasm.instantiate = .error cause s ∧
          cause = .invalid := by decide +kernel
  obtain ⟨m, hbuild, hfits, wasm, hlower, hbase, ⟨_, mem, hmeans, rfl⟩, _, s, htraps, rfl⟩ := hcheck
  obtain ⟨layouts, hlayouts, f, hf, frame, hmade, hkeeps, hresult, code, hcode, hlocal⟩ := hbase
  obtain ⟨_, data, _⟩ := of_lowerModule hlower
  exact ⟨m, wasm, hbuild, hfits, hlower, ⟨⟨layouts, data, frame⟩, f, code, hlayouts, hf, hmade, hcode,
    hkeeps, hresult, hlocal, fun hbased => hbased.apart 0 _ hresult rfl⟩, ⟨mem, hmeans⟩, s, htraps⟩

end Straightline
