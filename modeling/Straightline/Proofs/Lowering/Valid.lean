import Straightline.Proofs.Lowering.Modules
import Straightline.Proofs.Wasm.Validation

/-!
# What is lowered is valid

The code of every instruction leaves the operand stack as it was and uses locals of the types that they
were declared with, so that the body of every function is typed. A structure without fields would have no
place in a frame, and a function that keeps nothing else there no local for its address; that is why
structures are supposed to take space.
-/

set_option autoImplicit false

namespace Straightline

namespace Lowering

open IR (Held Inst Kinds Op Value)
open Wasm (Instr Context ValType)
open Wasm.Instr (AllTyped)
open Wasm.Instr.AllTyped (one)

/-- Every structure takes space. -/
def Solid (m : IR.Module) : Prop := ∀ d ∈ m.structs, m.sizeOf (.struct d.name) ≠ 0

theorem Sized.size_ne_zero {m : IR.Module} {ty : IRType} (hsolid : Solid m)
    (h : Sized m.structs ty) : m.sizeOf ty ≠ 0 := by
  cases h with
  | int => exact Nat.ne_of_gt (Nat.lt_of_lt_of_le Nat.one_pos (Nat.le_max_left _ _))
  | ptr => exact Nat.succ_ne_zero 3
  | struct hd => exact hsolid _ hd

theorem valType_of_isStruct {ty : IRType} (h : ty.isStruct = true) : valType ty = .i32 := by
  cases ty with
  | struct => rfl
  | void | int | ptr => cases h

/-- A function that keeps something in its frame has one. -/
theorem FunctionContext.Suits.framed {ctx : FunctionContext} {m : IR.Module} {kinds : Kinds}
    {f : IR.Function} {before : List Inst} {inst : Inst} (h : ctx.Suits m kinds f) (hsolid : Solid m)
    (hinst : inst ∈ f.insts) (hop : Op.Typed m kinds f before inst.ty inst.op) {ty : IRType}
    (hstored : storedType? inst = some ty) : ctx.frame.size ≠ 0 :=
  h.frame.size_ne_zero h.function hinst hstored
    ((Sized.of_stored h.typed hop hstored).size_ne_zero hsolid)

/-- Where something is kept in the frame, there is a local for its address. -/
theorem FunctionContext.Suits.frameLocal {ctx : FunctionContext} {m : IR.Module} {kinds : Kinds}
    {f : IR.Function} (h : ctx.Suits m kinds f) (hsize : ctx.frame.size ≠ 0) :
    (f.params.map valType ++ ctx.frame.locals)[ctx.frame.base]? = some .i32 :=
  h.frame.numbered.frameLocal hsize

/-- The code of a function is typed in this scope. -/
structure FunctionContext.Within (ctx : FunctionContext) (m : IR.Module) (kinds : Kinds)
    (f : IR.Function) (c : Context) : Prop where
  suits : ctx.Suits m kinds f
  solid : Solid m
  functions : ∀ id target, m.function? id = some target → ∃ wasm, c.functions[id]? = some wasm ∧
    wasm.params = target.params.map valType ∧ wasm.results = resultTypes target.ret
  globals : c.globals.length = 2
  locals : c.locals = f.params.map valType ++ ctx.frame.locals
  results : c.results = resultTypes f.ret

namespace FunctionContext.Within

variable {ctx : FunctionContext} {m : IR.Module} {kinds : Kinds} {f : IR.Function} {c : Context}
variable {before rest : List Inst} {inst : Inst} {v : Value} {code : List Instr} {s : List ValType}

/-! ## Values -/

theorem result (h : ctx.Within m kinds f c) (hinst : inst ∈ f.insts) (hvoid : inst.ty ≠ .void)
    {place : Nat} (hplace : ctx.frame.result? inst.id = some place) :
    c.locals[place]? = some (valType inst.ty) := by
  obtain ⟨place', hplace', _, htype⟩ := h.suits.frame.result h.suits.function hinst hvoid
  cases hplace.symm.trans hplace'
  rw [h.locals]
  exact htype

/-- A value is pushed as a word of its type. -/
theorem pushValue (h : ctx.Within m kinds f c) (hsplit : f.insts = before ++ rest)
    (hscoped : v.Scoped m f.params before) (hcode : ctx.pushValue v = .ok code) :
    AllTyped c code s (valType v.ty :: s) := by
  cases pushed_of_pushValue hcode with
  | param =>
    cases hscoped with
    | param hty =>
      refine one (.localGet ?_)
      rw [h.locals, List.getElem?_append_left, List.getElem?_map, hty]
      · rfl
      · simpa using (List.getElem?_eq_some_iff.mp hty).1
  | inst hplace =>
    cases hscoped with
    | inst hinst hvoid =>
      obtain ⟨hmem, rfl⟩ := h.suits.earlier hsplit hinst
      exact one (.localGet (h.result hmem hvoid hplace))
  | wide => exact one .i64Const
  | word hty =>
    cases hscoped with
    | const hfits =>
      cases hfits with
      | int =>
        rw [valType, if_neg fun hbits => hty (congrArg IRType.int hbits)]
        exact one .i32Const
  | struct =>
    cases hscoped with
    | const hfits =>
      cases hfits with
      | struct => exact one .i32Const
  | global =>
    cases hscoped with
    | global => exact one .i32Const

theorem addOffset (c : Context) (offset : UInt32) (s : List ValType) :
    AllTyped c (addOffset offset) (.i32 :: s) (.i32 :: s) := by
  unfold Lowering.addOffset
  split
  · exact .nil
  · exact .cons .i32Const (one .i32Add)

theorem frameLocal (h : ctx.Within m kinds f c) (hsize : ctx.frame.size ≠ 0) :
    c.locals[ctx.frame.base]? = some .i32 := by
  rw [h.locals]
  exact h.suits.frameLocal hsize

theorem frameAddress (h : ctx.Within m kinds f c) (hsize : ctx.frame.size ≠ 0) (slot : UInt32) :
    AllTyped c (ctx.frameAddress slot) s (.i32 :: s) :=
  .cons (.localGet (h.frameLocal hsize)) (addOffset c slot s)

/-- Whatever is kept in the frame takes space there. -/
theorem framed (h : ctx.Within m kinds f c) (hinst : inst ∈ f.insts)
    (hop : Op.Typed m kinds f before inst.ty inst.op) {ty : IRType}
    (hstored : storedType? inst = some ty) : ctx.frame.size ≠ 0 :=
  h.suits.framed h.solid hinst hop hstored

/-! ## Memory -/

theorem storeScalar {ty : IRType} {offset : UInt32} (hcode : storeScalar offset ty = .ok code) :
    AllTyped c code (valType ty :: .i32 :: s) s := by
  obtain ⟨access, hty, rfl⟩ := of_storeScalar hcode
  exact hty ▸ one .store

theorem loadScalar {ty : IRType} (hcode : loadScalar ty = .ok code) :
    AllTyped c code (.i32 :: s) (valType ty :: s) := by
  obtain ⟨access, hty, rfl⟩ := of_loadScalar hcode
  exact hty ▸ one .load

theorem stores (h : ctx.Within m kinds f c) (hsplit : f.insts = before ++ rest)
    (hscoped : v.Scoped m f.params before) {offset : UInt32} (hstores : Stores ctx v offset code) :
    AllTyped c code (.i32 :: s) s := by
  cases hstores with
  | struct hstruct hpush =>
    have hvalue := h.pushValue hsplit hscoped hpush (s := .i32 :: s)
    rw [valType_of_isStruct hstruct] at hvalue
    exact ((addOffset c offset s).append hvalue).append (.cons .i32Const (one .memoryCopy))
  | scalar _ hpush hstore => exact (h.pushValue hsplit hscoped hpush).append (storeScalar hstore)

theorem storesFields (h : ctx.Within m kinds f c) (hsplit : f.insts = before ++ rest)
    (hsize : ctx.frame.size ≠ 0) {fields : List Value}
    (hfields : ∀ v ∈ fields, v.Scoped m f.params before) {slot : UInt32} {offsets : List UInt32}
    (hstores : StoresFields ctx slot fields offsets code) : AllTyped c code s s := by
  induction hstores with
  | nil | short => exact .nil
  | cons hstore _ ih =>
    have hfirst := h.stores hsplit (hfields _ List.mem_cons_self) hstore (s := s)
    exact ((h.frameAddress hsize slot).append hfirst).append
      (ih fun v hv => hfields v (List.mem_cons_of_mem _ hv))

theorem memoryEnd (c : Context) (s : List ValType) : AllTyped c memoryEnd s (.i32 :: s) :=
  .cons .memorySize (.cons .i32Const (one .i32Shl))

theorem growMemory (h : ctx.Within m kinds f c) : AllTyped c growMemory s s := by
  have hheap : ∀ s, AllTyped c [.globalGet heapPointer] s (.i32 :: s) := fun s =>
    one (.globalGet (by rw [h.globals]; decide))
  unfold Lowering.growMemory
  refine ((hheap s).append (memoryEnd c _)).append (.cons .i32GtU (one (.ifThen ?_)))
  exact ((hheap []).append (memoryEnd c _)).append
    (.cons .i32Sub (.cons .i32Const (.cons .i32Add (.cons .i32Const (.cons .i32ShrU
      (.cons .memoryGrow (.cons .i32Const (.cons .i32Eq (one (.ifThen (one .unreachable)))))))))))

theorem narrow {ty : IRType} : AllTyped c (narrow ty) (valType ty :: s) (valType ty :: s) := by
  unfold Lowering.narrow
  split
  · split_ifs with h1 h8 h16
    · subst h1
      exact .cons .i32Const (one .i32And)
    · subst h8
      exact one .i32Extend8S
    · subst h16
      exact one .i32Extend16S
    · exact .nil
  · exact .nil

/-! ## Instructions -/

theorem pushes (h : ctx.Within m kinds f c) (hsplit : f.insts = before ++ rest) {args : List Value}
    (hargs : ∀ arg ∈ args, arg.Scoped m f.params before) {codes : List (List Instr)}
    (hcodes : args.mapM ctx.pushValue = .ok codes) :
    AllTyped c codes.flatten s ((args.map fun arg => valType arg.ty).reverse ++ s) := by
  have hall := Except.forall₂_of_mapM hcodes
  clear hcodes
  induction hall generalizing s with
  | nil => exact .nil
  | cons hpush _ ih =>
    rw [List.flatten_cons, List.map_cons, List.reverse_cons, List.append_assoc]
    refine (h.pushValue hsplit (hargs _ List.mem_cons_self) hpush).append ?_
    exact ih fun arg harg => hargs arg (List.mem_cons_of_mem _ harg)

/-- A call leaves the result of its function. -/
theorem call (h : ctx.Within m kinds f c) (hsplit : f.insts = before ++ rest) {ty : IRType}
    {callee : IR.FunctionId} {args : List Value} (hop : Op.Typed m kinds f before ty (.call callee args))
    {codes : List (List Instr)} (hcodes : args.mapM ctx.pushValue = .ok codes) :
    AllTyped c (codes.flatten ++ [.call callee]) s ((resultTypes ty).reverse ++ s) := by
  obtain ⟨target, htarget, hargs, htypes, rfl⟩ := hop.of_call
  obtain ⟨wasm, hwasm, hparams, hresults⟩ := h.functions callee target htarget
  refine (h.pushes hsplit hargs hcodes).append (one ?_)
  have htypes' : args.map (fun arg => valType arg.ty) = wasm.params := by
    rw [hparams, ← htypes, List.map_map]
    rfl
  rw [htypes', ← hresults]
  exact .call hwasm

theorem arithmetic (h : ctx.Within m kinds f c) (hsplit : f.insts = before ++ rest)
    {lhs rhs : Value} {bits place : Nat} {left right : List Instr} {wide word : Instr}
    (hlhs : lhs.Scoped m f.params before) (hrhs : rhs.Scoped m f.params before)
    (hlhsTy : lhs.ty = .int bits) (hrhsTy : rhs.ty = .int bits)
    (hleft : ctx.pushValue lhs = .ok left) (hright : ctx.pushValue rhs = .ok right)
    (hplace : c.locals[place]? = some (valType (.int bits)))
    (hwide : ∀ s, Instr.Typed c wide (.i64 :: .i64 :: s) (.i64 :: s))
    (hword : ∀ s, Instr.Typed c word (.i32 :: .i32 :: s) (.i32 :: s)) :
    AllTyped c (left ++ right ++ [if IRType.int bits = .int 64 then wide else word]
      ++ Lowering.narrow (.int bits) ++ [.localSet place]) s s := by
  have hpushLeft := h.pushValue hsplit hlhs hleft (s := s)
  have hpushRight := h.pushValue hsplit hrhs hright (s := valType lhs.ty :: s)
  rw [hlhsTy] at hpushLeft hpushRight
  rw [hrhsTy] at hpushRight
  refine (((hpushLeft.append hpushRight).append (one ?_)).append narrow).append
    (one (.localSet hplace))
  split
  case isTrue hbits =>
    rw [hbits]
    exact hwide s
  case isFalse hbits =>
    rw [valType, if_neg fun he => hbits (congrArg IRType.int he)]
    exact hword s

/-- A structure whose address `push` gives is copied into the frame, and its place there becomes the result. -/
theorem copied (h : ctx.Within m kinds f c) (hsize : ctx.frame.size ≠ 0) {first push : List Instr}
    {slot size : UInt32} {place : Nat} (hfirst : AllTyped c first [] [])
    (hpush : ∀ s, AllTyped c push s (.i32 :: s)) (hplace : c.locals[place]? = some .i32) :
    AllTyped c (first ++ ctx.frameAddress slot ++ push ++ [.i32Const size, .memoryCopy]
      ++ ctx.frameAddress slot ++ [.localSet place]) [] [] :=
  ((((hfirst.append (h.frameAddress hsize slot)).append (hpush _)).append
    (.cons .i32Const (one .memoryCopy))).append (h.frameAddress hsize slot)).append
    (one (.localSet hplace))

/-- The code of an instruction that is no return leaves nothing on the stack. -/
theorem lowered (h : ctx.Within m kinds f c) (hsplit : f.insts = before ++ inst :: rest)
    (hop : Op.Typed m kinds f before inst.ty inst.op) (hret : inst.op.isRet = false)
    (hcode : Lowered ctx inst code) : AllTyped c code [] [] := by
  have hmem : inst ∈ f.insts := hsplit ▸ by simp
  have hresult : inst.ty ≠ .void → ∀ place, ctx.frame.result? inst.id = some place →
      c.locals[place]? = some (valType inst.ty) := fun hvoid _ => h.result hmem hvoid
  have hsize : ∀ ty, storedType? inst = some ty → ctx.frame.size ≠ 0 :=
    fun _ hstored => h.framed hmem hop hstored
  have hheap : heapPointer < c.globals.length := by rw [h.globals]; decide
  cases hcode with
  | alloca _ hplace =>
    cases hop with
    | alloca =>
      exact (h.frameAddress (hsize _ rfl) _).append (one (.localSet (hresult (by simp) _ hplace)))
  | heapAlloc _ _ hplace =>
    cases hop with
    | heapAlloc =>
      refine AllTyped.append ?_ h.growMemory
      exact .cons (.globalGet hheap) (.cons (.localSet (hresult (by simp) _ hplace))
        (.cons (.globalGet hheap) (.cons .i32Const (.cons .i32Add (one (.globalSet hheap))))))
  | store hpush hstore =>
    cases hop with
    | store _ hvalue hptr hty =>
      have hpush := h.pushValue hsplit hptr hpush (s := [])
      rw [hty] at hpush
      exact hpush.append (h.stores hsplit hvalue hstore)
  | @loadStruct _ ty _ _ _ _ _ hstruct _ hpush _ hplace =>
    cases hop with
    | load hheld hptr hty =>
      have hsize := hsize ty (by simp [storedType?, hstruct])
      have hpush : ∀ s, AllTyped c _ s (.i32 :: s) := fun s =>
        hty ▸ h.pushValue hsplit hptr hpush (s := s)
      have hplace := hresult hheld.ne_void _ hplace
      simp only [valType_of_isStruct hstruct] at hplace
      exact h.copied hsize .nil hpush hplace
  | load _ hpush hload hplace =>
    cases hop with
    | load hheld hptr hty =>
      have hpush := h.pushValue hsplit hptr hpush (s := [])
      rw [hty] at hpush
      exact (hpush.append (loadScalar hload)).append
        (one (.localSet (hresult hheld.ne_void _ hplace)))
  | @callStruct _ ty _ _ _ _ _ _ hstruct hpushes _ _ hplace =>
    have hcall := h.call hsplit hop hpushes (s := [])
    have hsize := hsize ty (by simp [storedType?, hstruct])
    have hvoid := IRType.isVoid_of_isStruct hstruct
    have hplace := hresult (by rintro rfl; cases hvoid) _ hplace
    rw [resultTypes, hvoid, valType_of_isStruct hstruct] at hcall
    simp only [valType_of_isStruct hstruct] at hplace
    exact h.copied hsize (hcall.append (one (.localSet hplace))) (fun _ => one (.localGet hplace)) hplace
  | callVoid hvoid hpushes =>
    have hcall := h.call hsplit hop hpushes (s := [])
    rw [resultTypes, if_pos hvoid] at hcall
    exact hcall
  | @call _ ty _ _ _ _ _ hvoid hpushes hplace =>
    have hcall := h.call hsplit hop hpushes (s := [])
    have hplace := hresult (by rintro rfl; cases hvoid) _ hplace
    rw [resultTypes, hvoid] at hcall
    exact hcall.append (one (.localSet hplace))
  | add hleft hright hplace =>
    cases hop with
    | add _ _ hlhs hrhs hlhsTy hrhsTy =>
      exact h.arithmetic hsplit hlhs hrhs hlhsTy hrhsTy hleft hright (hresult (by simp) _ hplace)
        (fun _ => .i64Add) fun _ => .i32Add
  | sub hleft hright hplace =>
    cases hop with
    | sub _ _ hlhs hrhs hlhsTy hrhsTy =>
      exact h.arithmetic hsplit hlhs hrhs hlhsTy hrhsTy hleft hright (hresult (by simp) _ hplace)
        (fun _ => .i64Sub) fun _ => .i32Sub
  | fieldAddr _ hpush hplace =>
    cases hop with
    | fieldAddr hptr hty =>
      have hpush := h.pushValue hsplit hptr hpush (s := [])
      rw [hty] at hpush
      exact (hpush.append (addOffset c _ _)).append (one (.localSet (hresult (by simp) _ hplace)))
  | aggregate _ _ hstores hplace =>
    obtain ⟨_, _, _, _, hfields, _⟩ := hop.of_aggregate
    exact ((h.storesFields hsplit (hsize _ rfl) hfields hstores).append
      (h.frameAddress (hsize _ rfl) _)).append (one (.localSet (hresult (by simp) _ hplace)))
  | ret | retValue => cases hret

/-! ## Bodies -/

theorem prologue (h : ctx.Within m kinds f c) : AllTyped c ctx.prologue s s := by
  unfold FunctionContext.prologue
  split
  · exact .nil
  · rename_i hsize
    have hstack : stackPointer < c.globals.length := by rw [h.globals]; decide
    exact .cons (.globalGet hstack) (.cons .i32Const (.cons .i32Sub
      (.cons (.localTee (h.frameLocal hsize)) (one (.globalSet hstack)))))

theorem epilogue (h : ctx.Within m kinds f c) : AllTyped c ctx.epilogue s s := by
  unfold FunctionContext.epilogue
  split
  · exact .nil
  · rename_i hsize
    have hstack : stackPointer < c.globals.length := by rw [h.globals]; decide
    exact .cons (.localGet (h.frameLocal hsize)) (.cons .i32Const (.cons .i32Add
      (one (.globalSet hstack))))

/-- A return leaves with the results of the function, and nothing else. -/
theorem loweredRet (h : ctx.Within m kinds f c) (hsplit : f.insts = before ++ inst :: rest)
    (hop : Op.Typed m kinds f before inst.ty inst.op) (hret : inst.op.isRet = true)
    (hcode : Lowered ctx inst code) (s : List ValType) : AllTyped c code [] s := by
  cases hcode with
  | ret =>
    cases hop with
    | ret hvoid =>
      have hresults : c.results.reverse = [] := by rw [h.results, hvoid]; rfl
      exact h.epilogue.append (one (hresults ▸ .ret))
  | retValue hpush =>
    cases hop with
    | retValue hvalue hty =>
      have hvoid := hvalue.ne_void h.suits.function.params
      have hresults : c.results.reverse = [valType f.ret] := by
        rw [h.results, resultTypes, if_neg]
        · rfl
        · rw [hty] at hvoid
          cases hret : f.ret with
          | void => exact absurd hret hvoid
          | int | ptr | struct => simp [IRType.isVoid]
      have hpush := h.pushValue hsplit hvalue hpush (s := [])
      rw [hty, ← hresults] at hpush
      exact (hpush.append h.epilogue).append (one .ret)
  | alloca | heapAlloc | store | loadStruct | load | callStruct | callVoid | call | add | sub
  | fieldAddr | aggregate => cases hret

/-- Instructions of which only the last returns leave with the results of the function. -/
theorem insts (h : ctx.Within m kinds f c) {init : List Inst} {last : Inst}
    (hsplit : f.insts = before ++ (init ++ [last]))
    (hchain : IR.Chain m kinds f before (init ++ [last]))
    (hinit : ∀ inst ∈ init, inst.op.isRet = false) (hlast : last.op.isRet = true)
    {codes : List (List Instr)} (hcodes : List.Forall₂ (Lowered ctx) (init ++ [last]) codes)
    (s : List ValType) : AllTyped c codes.flatten [] s := by
  induction init generalizing before codes with
  | nil =>
    cases hcodes with
    | cons hcode hnone =>
      cases hnone
      simpa using h.loweredRet hsplit hchain.head hlast hcode s
  | cons inst init ih =>
    cases hcodes with
    | cons hcode hothers =>
      have hfirst := h.lowered hsplit hchain.head (hinit inst List.mem_cons_self) hcode
      cases hchain with
      | cons _ hrest =>
        refine hfirst.append (ih ?_ hrest (fun i hi => hinit i (List.mem_cons_of_mem _ hi)) hothers)
        rw [hsplit, List.append_assoc]
        rfl

end FunctionContext.Within

/-! ## Modules -/

section Modules

variable {m : IR.Module} {kinds : Kinds} {layouts : Layouts} {data : DataImage}
variable {wasm : Wasm.Module}

namespace LoweredModule

theorem functions_valid (h : LoweredModule m layouts data wasm) (htyped : m.Typed kinds)
    (hsolid : Solid m) (hglobals : wasm.globals.length = 2) :
    ∀ f ∈ wasm.functions, f.Valid wasm := by
  intro code hcode
  obtain ⟨id, hid⟩ := List.getElem?_of_mem hcode
  have hlength := h.lowered.length_eq
  have hlt := (List.getElem?_eq_some_iff.mp hid).1
  obtain ⟨f, hf⟩ : ∃ f, m.function? id = some f :=
    ⟨_, List.getElem?_eq_getElem (hlength ▸ hlt)⟩
  obtain ⟨frame, codes, hcode', hsuits, hcodes⟩ := h.function htyped hf
  cases hid.symm.trans hcode'
  have hwithin : FunctionContext.Within ⟨layouts, data, frame⟩ m kinds f
      ⟨wasm.functions, wasm.globals, f.params.map valType ++ frame.locals, resultTypes f.ret⟩ := by
    refine ⟨hsuits, hsolid, fun id target htarget => ?_, hglobals, rfl, rfl⟩
    obtain ⟨_, _, hwasm, _⟩ := h.function htyped htarget
    exact ⟨_, hwasm, rfl, rfl⟩
  obtain ⟨init, last, hblocks, hinit, hlast, hchain⟩ := hsuits.function.body
  have hinsts : f.insts = init ++ [last] := by simp [IR.Function.insts, hblocks]
  have hsplit : f.insts = [] ++ (init ++ [last]) := hinsts
  rw [hinsts] at hcodes
  exact hwithin.prologue.append (hwithin.insts hsplit hchain hinit hlast hcodes _)

end LoweredModule

theorem LoweredModule.Starts.names (hexports : exportsOf m = .ok wasm.exports)
    (hnames : (m.functions.map IR.Function.name).Nodup) :
    (wasm.exports.map Wasm.Export.name).Nodup := by
  unfold exportsOf at hexports
  split at hexports
  case isTrue => cases hexports
  case isFalse hreserved =>
    have hmap : (m.functions.mapIdx fun index f => (⟨f.name, .function index⟩ : Wasm.Export)).map
        Wasm.Export.name = m.functions.map IR.Function.name := by
      refine List.ext_getElem? fun i => ?_
      rw [List.getElem?_map, List.getElem?_mapIdx, List.getElem?_map, Option.map_map]
      rfl
    rw [← Except.ok.inj hexports, List.map_append, hmap]
    simp only [List.any_eq_true, beq_iff_eq, not_exists, not_and] at hreserved
    refine List.nodup_append.mpr ⟨hmap ▸ hnames, List.nodup_singleton _, ?_⟩
    rintro name hname _ hmemory rfl
    obtain ⟨f, hf, rfl⟩ := List.mem_map.mp hname
    exact hreserved f hf (List.mem_singleton.mp hmemory)

theorem LoweredModule.Starts.exported (hexports : exportsOf m = .ok wasm.exports) {e : Wasm.Export}
    (he : e ∈ wasm.exports) {index : Nat} (hkind : e.kind = .function index) :
    index < m.functions.length := by
  unfold exportsOf at hexports
  split at hexports
  case isTrue => cases hexports
  case isFalse =>
    rw [← Except.ok.inj hexports, List.mem_append, List.mem_mapIdx, List.mem_singleton] at he
    rcases he with ⟨i, hi, rfl⟩ | rfl
    · cases hkind
      exact hi
    · cases hkind

/-- What is lowered is valid. -/
theorem lowerModule_valid (htyped : m.Typed kinds) (hsolid : Solid m)
    (hnames : (m.functions.map IR.Function.name).Nodup) {pages : Nat}
    (h : lowerModule m pages = .ok wasm) : wasm.Valid := by
  obtain ⟨layouts, data, hlowered, hroom, ⟨top, htop, hglobals, hpages⟩, hexports⟩ :=
    LoweredModule.of_lowerModule htyped h
  obtain ⟨hmax, hcovers⟩ := initialPages_bounds top
  refine ⟨hlowered.functions_valid htyped hsolid (by rw [hglobals]; rfl),
    LoweredModule.Starts.names hexports hnames, fun e he index hkind => ?_, hpages ▸ hmax,
    fun s hs => ?_⟩
  · rw [← hlowered.lowered.length_eq]
    exact LoweredModule.Starts.exported hexports he hkind
  · have hbound := hlowered.segment_bound s hs
    have hend : m.dataStop ≤ m.dataEnd := le_roundUp (by decide)
    rw [hpages]
    omega

end Modules

end Lowering

/-- Functions of a module that is built have distinct names. -/
theorem names_of_buildModule {units : List SourceUnit} {options : CompileOptions} {m : IR.Module}
    (h : (buildModule units options).result = .ok m) :
    (m.functions.map IR.Function.name).Nodup := by
  rw [module_of_buildModule h]
  exact ((Project.typed_start options.projectName).run units).corresponds.matching.names_nodup

/-- What units are compiled to is the binary form of a valid module, as long as every structure takes
space. If sizes or offsets do not fit, there is nothing that they are compiled to. -/
theorem compileWasm_valid {units : List SourceUnit} {options : CompileOptions} {m : IR.Module}
    {artifact : Artifact} (hbuild : (buildModule units options).result = .ok m)
    (hsolid : ∀ d ∈ m.structs, m.sizeOf (.struct d.name) ≠ 0)
    (hcompile : (compileWasm units options).result = .ok artifact) :
    ∃ wasm, Lowering.lowerModule m options.stackPages = .ok wasm ∧ artifact.wasm = wasm.encode ∧
      wasm.Valid := by
  obtain ⟨kinds, htyped⟩ := typed_of_buildModule hbuild
  obtain ⟨m', hbuild', hlower⟩ := Except.bind_ok hcompile
  cases hbuild.symm.trans hbuild'
  obtain ⟨bytes, hbytes, hartifact⟩ := Except.bind_ok hlower
  cases hartifact
  unfold lowerToWasm at hbytes
  split at hbytes
  case h_2 => cases hbytes
  case h_1 wasm hwasm =>
    cases hbytes
    exact ⟨wasm, hwasm, rfl, Lowering.lowerModule_valid htyped hsolid
      (names_of_buildModule hbuild) hwasm⟩

/-- Functions that pass a structure on and keep one in a frame. -/
theorem compileWasm_valid_pairing :
    ∃ m artifact wasm, (buildModule [pairing] {}).result = .ok m ∧ m.Fits ∧
      (∀ d ∈ m.structs, m.sizeOf (.struct d.name) ≠ 0) ∧
      (compileWasm [pairing] {}).result = .ok artifact ∧
      Lowering.lowerModule m 16 = .ok wasm ∧ artifact.wasm = wasm.encode ∧ wasm.Valid := by
  have hcheck : ∃ m, (buildModule [pairing] {}).result = .ok m ∧ m.Fits ∧
      ∀ d ∈ m.structs, m.sizeOf (.struct d.name) ≠ 0 := by decide +kernel
  have hcompiles : ∃ artifact, (compileWasm [pairing] {}).result = .ok artifact := by decide +kernel
  obtain ⟨m, hbuild, hfits, hsolid⟩ := hcheck
  obtain ⟨artifact, hcompile⟩ := hcompiles
  obtain ⟨wasm, hlower, hencode, hvalid⟩ := compileWasm_valid hbuild hsolid hcompile
  exact ⟨m, artifact, wasm, hbuild, hfits, hsolid, hcompile, hlower, hencode, hvalid⟩

end Straightline
