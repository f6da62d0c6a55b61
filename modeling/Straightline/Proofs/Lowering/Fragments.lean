import Straightline.Proofs.Lowering.Words
import Straightline.Proofs.Wasm.Running

/-!
# Pieces of lowered code

What the pieces do that the code of instructions is put together from: addresses, cutting to a width,
asking for memory, and taking and giving back a frame.
-/

set_option autoImplicit false

namespace Straightline.Lowering

open Wasm (Config Engine Instance Instr Invoke Reaches Runs Val)

variable {engine : Engine} {invoke : Invoke} {s : Instance} {locals : List Val} {stack : List Val}
variable {ctx : FunctionContext}

/-! ## Addresses and numbers -/

theorem runs_addOffset (a offset : UInt32) :
    Runs engine invoke (addOffset offset) ⟨s, locals, .i32 a :: stack⟩
      ⟨s, locals, .i32 (a + offset) :: stack⟩ := by
  unfold addOffset
  split
  case isTrue h =>
    rw [h, UInt32.add_zero]
    exact .nil
  case isFalse => exact .cons .i32Const (.binary fun _ => rfl)

theorem runs_frameAddress {base : UInt32} (hbase : locals[ctx.frame.base]? = some (.i32 base))
    (slot : UInt32) :
    Runs engine invoke (ctx.frameAddress slot) ⟨s, locals, stack⟩
      ⟨s, locals, .i32 (base + slot) :: stack⟩ :=
  .cons (.localGet hbase) (runs_addOffset base slot)

theorem runs_narrow (ty : IRType) (a : UInt32) :
    Runs engine invoke (narrow ty) ⟨s, locals, .i32 a :: stack⟩
      ⟨s, locals, .i32 (narrowed ty a) :: stack⟩ := by
  cases ty with
  | void | ptr | struct => exact .nil
  | int bits =>
    simp only [narrow, narrowed]
    split_ifs
    · exact .cons .i32Const (.binary fun _ => rfl)
    · exact .unary (f := fun a => UInt32.ofInt (Int.bmod a.toNat 256)) fun _ => rfl
    · exact .unary (f := fun a => UInt32.ofInt (Int.bmod a.toNat 65536)) fun _ => rfl
    · exact .nil

section Arithmetic

variable {bits : Nat} (hbits : bits ∈ IR.widths) (hone : bits ≠ 1)
include hbits hone

/-- Arithmetic on words is that on the numbers, as both are cut back to the same width. -/
theorem runs_arithmetic {x y z : Int} {g : UInt64 → UInt64 → UInt64} {k : UInt32 → UInt32 → UInt32}
    {wide short : Instr} (hwide : ∀ c, Wasm.exec engine invoke c wide = c.binaryWide g)
    (hshort : ∀ c, Wasm.exec engine invoke c short = c.binary k)
    (hg : g (UInt64.ofInt x) (UInt64.ofInt y) = UInt64.ofInt z)
    (hk : k (UInt32.ofInt x) (UInt32.ofInt y) = UInt32.ofInt z) :
    Runs engine invoke ([if IRType.int bits = .int 64 then wide else short] ++ narrow (.int bits))
      ⟨s, locals, word (.int bits) y :: word (.int bits) x :: stack⟩
      ⟨s, locals, word (.int bits) (z.bmod (Nat.pow 2 bits)) :: stack⟩ := by
  by_cases hlong : bits = 64
  · subst hlong
    simp only [word, if_true]
    rw [ofInt64_bmod, ← hg]
    exact (Runs.binaryWide hwide).append .nil
  · have hne : IRType.int bits ≠ .int 64 := fun he => hlong (IRType.int.inj he)
    simp only [word, if_neg hne]
    rw [← narrowed_ofInt hbits hone hlong, ← hk]
    exact (Runs.binary hshort).append (runs_narrow _ _)

theorem runs_add (x y : Int) :
    Runs engine invoke ([if IRType.int bits = .int 64 then .i64Add else .i32Add] ++ narrow (.int bits))
      ⟨s, locals, word (.int bits) y :: word (.int bits) x :: stack⟩
      ⟨s, locals, word (.int bits) ((x + y).bmod (Nat.pow 2 bits)) :: stack⟩ :=
  runs_arithmetic hbits hone (fun _ => rfl) (fun _ => rfl) (UInt64.ofInt_add _ _).symm
    (UInt32.ofInt_add _ _).symm

theorem runs_sub (x y : Int) :
    Runs engine invoke ([if IRType.int bits = .int 64 then .i64Sub else .i32Sub] ++ narrow (.int bits))
      ⟨s, locals, word (.int bits) y :: word (.int bits) x :: stack⟩
      ⟨s, locals, word (.int bits) ((x - y).bmod (Nat.pow 2 bits)) :: stack⟩ :=
  runs_arithmetic hbits hone (fun _ => rfl) (fun _ => rfl) (ofInt64_sub _ _).symm
    (ofInt32_sub _ _).symm

end Arithmetic

/-! ## Memory -/

/-- Bytes are copied from one address to another. -/
theorem runs_copy (size source target : UInt32) (hsource : source.toNat + size.toNat ≤ s.memory.size)
    (htarget : target.toNat + size.toNat ≤ s.memory.size) :
    ∃ s', s.Wrote s' target.toNat (target.toNat + size.toNat) ∧
      (∀ i < size.toNat, s'.memory.byte (target.toNat + i) = s.memory.byte (source.toNat + i)) ∧
      ∀ (engine : Engine) (invoke : Invoke) (locals stack : List Val),
        Runs engine invoke [.i32Const size, .memoryCopy]
          ⟨s, locals, .i32 source :: .i32 target :: stack⟩ ⟨s', locals, stack⟩ := by
  have hwrote := Instance.Wrote.write s target.toNat
    (Wasm.bytesAt s.memory.byte source.toNat size.toNat)
  rw [Wasm.length_bytesAt] at hwrote
  refine ⟨_, hwrote, fun i hi => ?_, fun _ _ _ _ => .cons .i32Const (.memoryCopy hsource htarget)⟩
  have hlength : i < (Wasm.bytesAt s.memory.byte source.toNat size.toNat).length := by
    rwa [Wasm.length_bytesAt]
  rw [Instance.write_byte, Wasm.overlay_inside hlength]
  exact Option.some.inj ((List.getElem?_eq_getElem hlength).symm.trans (Wasm.getElem?_bytesAt hi))

/-- The instance is the same but for memory behind the end of what there was. -/
structure Grown (s s' : Instance) : Prop where
  globals : s'.globals = s.globals
  pages : s.memory.pages ≤ s'.memory.pages
  limit : s'.memory.pages ≤ Wasm.maxPages
  bytes : ∀ x < s.memory.size, s'.memory.byte x = s.memory.byte x

theorem Grown.refl (h : s.memory.pages ≤ Wasm.maxPages) : Grown s s :=
  ⟨rfl, Nat.le_refl _, h, fun _ _ => rfl⟩

/-- The end of memory as it is pushed: all 65536 pages together have the end zero. -/
def endOf (pages : Nat) : UInt32 := UInt32.ofNat pages <<< pageBits

theorem toNat_endOf (pages : Nat) : (endOf pages).toNat = pages * 65536 % UInt32.size := by
  have hshift : (endOf pages).toNat = (UInt32.ofNat pages).toNat <<< 16 % 2 ^ 32 :=
    UInt32.toNat_shiftLeft ..
  rw [hshift, UInt32.toNat_ofNat', Nat.shiftLeft_eq, UInt32.size]
  omega

/-- How many pages are asked for when the heap ends at `finish`. -/
def pagesFor (finish : UInt32) (pages : Nat) : UInt32 :=
  (finish - endOf pages + (pageSize - 1)) >>> pageBits

theorem toNat_pagesFor (finish : UInt32) (pages : Nat) :
    (pagesFor finish pages).toNat =
      ((2 ^ 32 - (endOf pages).toNat + finish.toNat) % 2 ^ 32 + 65535) % 2 ^ 32 / 65536 := by
  have hshift : (pagesFor finish pages).toNat =
      (finish - endOf pages + (pageSize - 1)).toNat >>> 16 := UInt32.toNat_shiftRight ..
  rw [hshift, Nat.shiftRight_eq_div_pow, UInt32.toNat_add, UInt32.toNat_sub]
  rfl

/-- If that many are given, the heap is in memory. -/
theorem covers {finish : UInt32} {pages : Nat} (hpos : 0 < pages) (hmax : pages ≤ Wasm.maxPages)
    (hover : finish > endOf pages)
    (hgiven : pages + (pagesFor finish pages).toNat ≤ Wasm.maxPages) :
    finish.toNat ≤ (pages + (pagesFor finish pages).toNat) * Wasm.pageBytes := by
  have hend := toNat_endOf pages
  have hcount := toNat_pagesFor finish pages
  have hlt := finish.toNat_lt
  have hover := UInt32.lt_iff_toNat_lt.mp hover
  unfold Wasm.maxPages Wasm.pageBytes UInt32.size at *
  omega

/-- Pushes the end of the heap, and the end of memory over it. -/
def bothEnds : List Instr := [.globalGet heapPointer] ++ memoryEnd

/-- Computes how many pages are missing. -/
def missingPages : List Instr :=
  [.i32Sub, .i32Const (pageSize - 1), .i32Add, .i32Const pageBits, .i32ShrU]

/-- Asks for pages, and stops if there are none. -/
def requestPages : List Instr :=
  [.memoryGrow, .i32Const 0xFFFFFFFF, .i32Eq] ++ [.ifThen [.unreachable]]

theorem growMemory_eq :
    growMemory = (bothEnds ++ [.i32GtU]) ++
      [.ifThen ((bothEnds ++ missingPages) ++ requestPages)] := rfl

theorem runs_bothEnds {sp finish : UInt32} (hglobals : s.globals = [sp, finish]) :
    Runs engine invoke bothEnds ⟨s, locals, stack⟩
      ⟨s, locals, .i32 (endOf s.memory.pages) :: .i32 finish :: stack⟩ := by
  have hget : s.globals[heapPointer]? = some finish := by rw [hglobals]; rfl
  exact .cons (.globalGet hget) (.cons .memorySize (.cons .i32Const (.binary fun _ => rfl)))

theorem runs_missingPages {finish : UInt32} {pages : Nat} :
    Runs engine invoke missingPages ⟨s, locals, .i32 (endOf pages) :: .i32 finish :: stack⟩
      ⟨s, locals, .i32 (pagesFor finish pages) :: stack⟩ :=
  .cons (.binary fun _ => rfl) (.cons .i32Const (.cons (.binary fun _ => rfl)
    (.cons .i32Const (.binary fun _ => rfl))))

theorem runs_memoryGrow (pages : UInt32) :
    Runs engine invoke [.memoryGrow, .i32Const 0xFFFFFFFF, .i32Eq]
      ⟨s, locals, .i32 pages :: stack⟩ ⟨(s.grow engine pages).1, locals,
        .i32 (if (s.grow engine pages).2 = 0xFFFFFFFF then 1 else 0) :: stack⟩ :=
  .cons (.one rfl) (.cons .i32Const
    (.binary (f := fun a b => if a = b then 1 else 0) fun _ => rfl))

/-- Pages that are given are there, behind what there was. -/
theorem runs_requestPages {pages : UInt32} (hmax : s.memory.pages ≤ Wasm.maxPages)
    (hgiven : engine s.requests = true ∧ s.memory.pages + pages.toNat ≤ Wasm.maxPages) :
    ∃ s', Grown s s' ∧ s'.memory.pages = s.memory.pages + pages.toNat ∧
      Runs engine invoke requestPages ⟨s, locals, .i32 pages :: stack⟩ ⟨s', locals, stack⟩ := by
  have hcount : UInt32.ofNat s.memory.pages ≠ 0xFFFFFFFF := by
    intro he
    have := congrArg UInt32.toNat he
    rw [UInt32.toNat_ofNat', show (0xFFFFFFFF : UInt32).toNat = 4294967295 from rfl] at this
    unfold Wasm.maxPages at hmax
    omega
  have hgrow : s.grow engine pages =
      ({ s with memory := s.memory.grow pages.toNat, requests := s.requests + 1, refused := false },
        UInt32.ofNat s.memory.pages) := if_pos hgiven
  refine ⟨(s.grow engine pages).1, ?_, ?_, (runs_memoryGrow pages).append ?_⟩
  · rw [hgrow]
    exact ⟨rfl, Nat.le_add_right _ _, hgiven.2, fun x hx => if_pos hx⟩
  · rw [hgrow]
    rfl
  · rw [hgrow, if_neg hcount]
    exact .ifThen_zero

theorem reaches_requestPages (pages : UInt32) (hmax : s.memory.pages ≤ Wasm.maxPages) :
    Reaches engine invoke requestPages ⟨s, locals, .i32 pages :: stack⟩ fun c =>
      c.locals = locals ∧ c.stack = stack ∧ Grown s c.inst ∧
        c.inst.memory.pages = s.memory.pages + pages.toNat ∧
        s.memory.pages + pages.toNat ≤ Wasm.maxPages := by
  by_cases hgiven : engine s.requests = true ∧ s.memory.pages + pages.toNat ≤ Wasm.maxPages
  case pos =>
    obtain ⟨s', hgrown, hpages, hruns⟩ := runs_requestPages hmax hgiven
    exact .of_runs hruns ⟨rfl, rfl, hgrown, hpages, hgiven.2⟩
  case neg =>
    refine .after (runs_memoryGrow pages) ?_
    unfold Instance.grow
    rw [if_neg hgiven, if_pos rfl]
    exact .ifThen_one (.unreachable rfl)

/-- How many pages there are to be when the heap ends at `finish`. -/
def pagesAfter (finish : UInt32) (pages : Nat) : Nat :=
  if finish > endOf pages then pages + (pagesFor finish pages).toNat else pages

theorem pagesAfter_covers {finish : UInt32} {pages : Nat} (hpos : 0 < pages)
    (hmax : pages ≤ Wasm.maxPages) (hgiven : pagesAfter finish pages ≤ Wasm.maxPages) :
    finish.toNat ≤ pagesAfter finish pages * Wasm.pageBytes := by
  unfold pagesAfter at hgiven ⊢
  split
  case isTrue hover =>
    rw [if_pos hover] at hgiven
    exact covers hpos hmax hover hgiven
  case isFalse hover =>
    -- The heap is still below the end of memory.
    have hle : finish.toNat ≤ (endOf pages).toNat :=
      UInt32.le_iff_toNat_le.mp (UInt32.not_lt.mp hover)
    rw [toNat_endOf] at hle
    exact hle.trans (Nat.mod_le _ _)

section GrowMemory

variable {sp finish : UInt32}

/-- What there is after memory was asked to grow: so many pages, if there can be so many. -/
structure GrownTo (finish : UInt32) (s : Instance) (locals stack : List Val) (c : Config) : Prop where
  locals : c.locals = locals
  stack : c.stack = stack
  grown : Grown s c.inst
  pages : c.inst.memory.pages = pagesAfter finish s.memory.pages
  given : pagesAfter finish s.memory.pages ≤ Wasm.maxPages

theorem GrownTo.unchanged (hover : ¬ finish > endOf s.memory.pages)
    (hmax : s.memory.pages ≤ Wasm.maxPages) : GrownTo finish s locals stack ⟨s, locals, stack⟩ := by
  have hpages : pagesAfter finish s.memory.pages = s.memory.pages := if_neg hover
  exact ⟨rfl, rfl, .refl hmax, hpages.symm, hpages.trans_le hmax⟩

theorem runs_compareEnds (hglobals : s.globals = [sp, finish]) :
    Runs engine invoke (bothEnds ++ [.i32GtU]) ⟨s, locals, stack⟩
      ⟨s, locals, .i32 (if finish > endOf s.memory.pages then 1 else 0) :: stack⟩ :=
  (runs_bothEnds hglobals).append (.binary (f := fun a b => if a > b then 1 else 0) fun _ => rfl)

/-- Memory grows to hold the heap, or the code stops. -/
theorem reaches_growMemory (hglobals : s.globals = [sp, finish])
    (hmax : s.memory.pages ≤ Wasm.maxPages) :
    Reaches engine invoke growMemory ⟨s, locals, stack⟩ (GrownTo finish s locals stack) := by
  rw [growMemory_eq]
  refine .after (runs_compareEnds hglobals) ?_
  by_cases hover : finish > endOf s.memory.pages
  case neg =>
    rw [if_neg hover]
    refine .of_runs .ifThen_zero ?_
    exact .unchanged hover hmax
  case pos =>
    rw [if_pos hover]
    refine .ifThen_one (.after ((runs_bothEnds hglobals).append runs_missingPages) ?_)
    refine (reaches_requestPages _ hmax).imp ?_
    rintro c ⟨hlocals, hstack, hgrown, hpages, hgiven⟩
    have hafter : pagesAfter finish s.memory.pages =
        s.memory.pages + (pagesFor finish s.memory.pages).toNat := if_pos hover
    exact ⟨hlocals, hstack, hgrown, hpages.trans hafter.symm, hafter.trans_le hgiven⟩

/-- If there can be so many pages, an engine that gives what it can lets memory grow. -/
theorem runs_growMemory (hglobals : s.globals = [sp, finish])
    (hmax : s.memory.pages ≤ Wasm.maxPages)
    (hgiven : pagesAfter finish s.memory.pages ≤ Wasm.maxPages) :
    ∃ c, Runs (fun _ => true) invoke growMemory ⟨s, locals, stack⟩ c := by
  suffices hbody : ∃ c, Runs (fun _ => true) invoke
      [.ifThen ((bothEnds ++ missingPages) ++ requestPages)]
      ⟨s, locals, .i32 (if finish > endOf s.memory.pages then 1 else 0) :: stack⟩ c by
    obtain ⟨c, hbody⟩ := hbody
    rw [growMemory_eq]
    exact ⟨c, (runs_compareEnds hglobals).append hbody⟩
  by_cases hover : finish > endOf s.memory.pages
  case neg =>
    rw [if_neg hover]
    exact ⟨_, .ifThen_zero⟩
  case pos =>
    have hafter : pagesAfter finish s.memory.pages =
        s.memory.pages + (pagesFor finish s.memory.pages).toNat := if_pos hover
    obtain ⟨s', _, _, hrequest⟩ :
        ∃ s', Grown s s' ∧ s'.memory.pages = s.memory.pages + (pagesFor finish s.memory.pages).toNat ∧
          Runs (fun _ => true) invoke requestPages
            ⟨s, locals, .i32 (pagesFor finish s.memory.pages) :: stack⟩ ⟨s', locals, stack⟩ :=
      runs_requestPages hmax ⟨rfl, hafter.symm.trans_le hgiven⟩
    rw [if_pos hover]
    exact ⟨_, .ifThen_one (((runs_bothEnds hglobals).append runs_missingPages).append hrequest)⟩

end GrowMemory

/-- Takes `size` bytes from the heap, without asking whether they are there. -/
theorem runs_bump {sp hp : UInt32} (hglobals : s.globals = [sp, hp]) {place : Nat}
    (hplace : place < locals.length) (size : UInt32) :
    Runs engine invoke ([.globalGet heapPointer] ++ [.localSet place] ++
        [.globalGet heapPointer, .i32Const size, .i32Add, .globalSet heapPointer])
      ⟨s, locals, stack⟩
      ⟨{ s with globals := [sp, hp + size] }, locals.set place (.i32 hp), stack⟩ := by
  have hget : s.globals[heapPointer]? = some hp := by rw [hglobals]; rfl
  have hlt : heapPointer < s.globals.length := by rw [hglobals]; exact Nat.one_lt_two
  have hset : s.globals.set heapPointer (hp + size) = [sp, hp + size] := by rw [hglobals]; rfl
  rw [← hset]
  exact ((Runs.globalGet hget).append (.localSet hplace)).append
    (.cons (.globalGet hget) (.cons .i32Const (.cons (.binary (f := (· + ·)) fun _ => rfl)
      (.globalSet hlt))))

/-! ## Frames -/

/-- The instance with another stack pointer. -/
def withStack (s : Instance) (sp : UInt32) : Instance :=
  { s with globals := s.globals.set stackPointer sp }

@[simp] theorem withStack_memory (s : Instance) (sp : UInt32) : (withStack s sp).memory = s.memory :=
  rfl

theorem withStack_globals {sp hp : UInt32} (h : s.globals = [sp, hp]) (sp' : UInt32) :
    (withStack s sp').globals = [sp', hp] := by
  rw [withStack, h]
  rfl

theorem stackPointer_eq {sp hp : UInt32} (h : s.globals = [sp, hp]) :
    s.globals[stackPointer]? = some sp := by
  rw [h]
  rfl

theorem withStack_self {sp : UInt32} (h : s.globals[stackPointer]? = some sp) : withStack s sp = s := by
  obtain ⟨hlt, rfl⟩ := List.getElem?_eq_some_iff.mp h
  rw [withStack, List.set_getElem_self]

theorem withStack_stackPointer {sp : UInt32} (h : s.globals[stackPointer]? = some sp) (sp' : UInt32) :
    (withStack s sp').globals[stackPointer]? = some sp' :=
  List.getElem?_set_self (List.getElem?_eq_some_iff.mp h).1

namespace FunctionContext

/-- The locals when a frame has been taken at `base`. -/
def entered (ctx : FunctionContext) (locals : List Val) (base : UInt32) : List Val :=
  if ctx.frame.size = 0 then locals else locals.set ctx.frame.base (.i32 base)

theorem entered_base {base : UInt32} (hsize : ctx.frame.size ≠ 0)
    (hbase : ctx.frame.base < locals.length) :
    (ctx.entered locals base)[ctx.frame.base]? = some (.i32 base) := by
  rw [entered, if_neg hsize]
  exact List.getElem?_set_self hbase

theorem entered_of_ne {base : UInt32} {i : Nat} (hi : i ≠ ctx.frame.base) :
    (ctx.entered locals base)[i]? = locals[i]? := by
  unfold entered
  split
  · rfl
  · exact List.getElem?_set_ne hi.symm

theorem entered_types {base : UInt32}
    (hbase : ctx.frame.size ≠ 0 → (locals.map Val.type)[ctx.frame.base]? = some .i32) :
    (ctx.entered locals base).map Val.type = locals.map Val.type := by
  unfold entered
  split
  case isTrue => rfl
  case isFalse hsize =>
    obtain ⟨hlt, htype⟩ := List.getElem?_eq_some_iff.mp (hbase hsize)
    rw [List.map_set, show (Val.i32 base).type = .i32 from rfl, ← htype, List.set_getElem_self]

theorem runs_prologue {sp : UInt32} (hget : s.globals[stackPointer]? = some sp)
    (hbase : ctx.frame.size ≠ 0 → ctx.frame.base < locals.length) :
    Runs engine invoke ctx.prologue ⟨s, locals, stack⟩
      ⟨withStack s (sp - ctx.frame.size), ctx.entered locals (sp - ctx.frame.size), stack⟩ := by
  unfold prologue entered
  split
  case isTrue hsize =>
    rw [hsize, UInt32.sub_zero, withStack_self hget]
    exact .nil
  case isFalse hsize =>
    have hlt := (List.getElem?_eq_some_iff.mp hget).1
    exact .cons (.globalGet hget) (.cons .i32Const (.cons (.binary (f := (· - ·)) fun _ => rfl)
      (.cons (.localTee (hbase hsize)) (.globalSet hlt))))

theorem runs_epilogue {base : UInt32} (hget : s.globals[stackPointer]? = some base)
    (hbase : ctx.frame.size ≠ 0 → locals[ctx.frame.base]? = some (.i32 base)) :
    Runs engine invoke ctx.epilogue ⟨s, locals, stack⟩
      ⟨withStack s (base + ctx.frame.size), locals, stack⟩ := by
  unfold epilogue
  split
  case isTrue hsize =>
    rw [hsize, UInt32.add_zero, withStack_self hget]
    exact .nil
  case isFalse hsize =>
    have hlt := (List.getElem?_eq_some_iff.mp hget).1
    exact .cons (.localGet (hbase hsize)) (.cons .i32Const
      (.cons (.binary (f := (· + ·)) fun _ => rfl) (.globalSet hlt)))

end FunctionContext

end Straightline.Lowering
