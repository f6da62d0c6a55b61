import Straightline.Proofs.Lowering.StackRoom
import Straightline.Proofs.Lowering.Overflow

/-!
# Runs on the heap

The heap begins where the shadow stack ends and only grows: each request gets what lies at the heap pointer,
moves the pointer, and has memory grow to where the heap then ends. The pointer is a word, and nothing asks
whether it wraps. So a run (`HeapRun`) keeps its blocks in memory and apart for as long as the numbers that
the pointer stands for (`heapEnd`) stay below `2 ^ 32`. A request that takes the heap further is stopped only
if all of memory is there already and the pointer wraps to where still more pages would be missing
(`heap_request_honored_iff`); otherwise it is answered with storage that is not there
(`heap_request_honored_fails_nesting`).
-/

set_option autoImplicit false

namespace Straightline.Lowering

open IR (Inst)
open Wasm (Config Engine Instance Instr Invoke Reaches Runs Val)

/-! ## Requests -/

/-- An instruction that takes the storage of a model from the heap, and what it is lowered to. -/
structure HeapRequest where
  ctx : FunctionContext
  inst : Inst
  ty : IRType
  extent : Extent
  place : Nat
  code : List Instr
  op_eq : inst.op = .heapAlloc ty
  extent_eq : ctx.layouts.extent ty = .ok extent
  place_eq : ctx.frame.result? inst.id = some place
  lowered : ctx.lowerInst inst = .ok code

/-- How many bytes are wanted. -/
def HeapRequest.size (r : HeapRequest) : Nat := r.extent.size.toNat

/-- How far the heap moves for so many bytes, without a bound. -/
def heapTaken (size : Nat) : Nat := roundUp (max size 1) heapAlign.toNat

/-- How far the code of a request moves the heap. -/
def HeapRequest.taken (r : HeapRequest) : UInt32 := (heapTaken r.size).toUInt32

theorem heapCode_of_lowered {ctx : FunctionContext} {inst : Inst} {ty : IRType} {e : Extent}
    {place : Nat} {code : List Instr} (h : Lowered ctx inst code) (hop : inst.op = .heapAlloc ty)
    (hextent : ctx.layouts.extent ty = .ok e) (hplace : ctx.frame.result? inst.id = some place) :
    ∃ taken, heapSize e = .ok taken ∧ code = heapCode taken place := by
  cases h with
  | heapAlloc hextent' htaken hplace' =>
    cases hop
    cases hextent.symm.trans hextent'
    cases hplace.symm.trans hplace'
    exact ⟨_, htaken, rfl⟩
  | _ => cases hop

/-- A request was lowered, so what it takes is a word. -/
theorem HeapRequest.spec (r : HeapRequest) :
    r.taken.toNat = heapTaken r.size ∧ r.code = heapCode r.taken r.place := by
  obtain ⟨taken, htaken, hcode⟩ :=
    heapCode_of_lowered (lowered_of_lowerInst r.lowered) r.op_eq r.extent_eq r.place_eq
  obtain ⟨_, hexact⟩ := (alignTo_checked (by decide)).of_ok htaken
  rw [toNat_max] at hexact
  have hsame : r.taken = taken := by
    rw [HeapRequest.taken, HeapRequest.size, heapTaken, ← UInt32.ofNat_toNat (x := taken), hexact]
    rfl
  exact ⟨hsame ▸ hexact, hsame ▸ hcode⟩

/-- Bytes that were handed out. -/
structure HeapBlock where
  start : Nat
  size : Nat
deriving DecidableEq, Repr

/-- Where the heap ends that began at `top`, without a bound. -/
def heapEnd (top : UInt32) (blocks : List HeapBlock) : Nat :=
  top.toNat + (blocks.map fun b => heapTaken b.size).sum

/-- What a request is to be answered with: what lies at the heap pointer, aligned, in memory, above the
stack and apart from all that was handed out, and a pointer that has not moved down. -/
structure Granted (top : UInt32) (blocks : List HeapBlock) (r : HeapRequest) (s : Instance) (c : Config)
    (address : UInt32) : Prop where
  previous : s.globals[heapPointer]? = some address
  result : c.locals[r.place]? = some (.i32 address)
  aligned : heapAlign.toNat ∣ address.toNat
  inside : address.toNat + r.size ≤ c.inst.memory.size
  above : top.toNat ≤ address.toNat
  apart : ∀ b ∈ blocks, b.start + b.size ≤ address.toNat ∨ address.toNat + r.size ≤ b.start
  upward : ∃ hp, c.inst.globals[heapPointer]? = some hp ∧ address.toNat ≤ hp.toNat

/-- The code of the request stops where memory is refused, or the request is granted. -/
def Honors (engine : Engine) (invoke : Invoke) (top : UInt32) (blocks : List HeapBlock) (r : HeapRequest)
    (s : Instance) (locals stack : List Val) : Prop :=
  Reaches engine invoke r.code ⟨s, locals, stack⟩ fun c => ∃ address, Granted top blocks r s c address

/-! ## Runs -/

/-- Between two requests the heap pointer and the pages of memory stay as they are. -/
structure KeepsHeap (s s' : Instance) : Prop where
  globals : ∀ sp hp, s.globals = [sp, hp] → ∃ sp', s'.globals = [sp', hp]
  pages : s'.memory.pages = s.memory.pages

/-- The instances that a module gets to, and the blocks that were handed out on the way. Every request so
far was granted, whatever the engine and the calls around it did. -/
inductive HeapRun (wasm : Wasm.Module) (top : UInt32) : List HeapBlock → Instance → Prop where
  | start : HeapRun wasm top [] wasm.instantiate
  | other {blocks : List HeapBlock} {s s' : Instance} : HeapRun wasm top blocks s → KeepsHeap s s' →
      HeapRun wasm top blocks s'
  | request {blocks : List HeapBlock} {s : Instance} (r : HeapRequest) {engine : Engine} {invoke : Invoke}
      {locals stack : List Val} {c : Config} {address : UInt32} : HeapRun wasm top blocks s →
      r.place < locals.length → Runs engine invoke r.code ⟨s, locals, stack⟩ c →
      Granted top blocks r s c address →
      HeapRun wasm top (blocks ++ [⟨address.toNat, r.size⟩]) c.inst

/-! ## Pages -/

section Pages

variable {hp hp' : UInt32}

theorem pagesAfter_eq (finish : UInt32) (pages : Nat) :
    pagesAfter finish pages =
      if pages * 65536 % UInt32.size < finish.toNat then
        pages + ((2 ^ 32 - pages * 65536 % UInt32.size + finish.toNat) % 2 ^ 32 + 65535) % 2 ^ 32
          / 65536
      else pages := by
  unfold pagesAfter
  simp only [gt_iff_lt, UInt32.lt_iff_toNat_lt, toNat_pagesFor, toNat_endOf]

theorem initialPages_eq (hp : UInt32) : initialPages hp = max 1 ((hp.toNat + 65535) / 65536) := rfl

/-- Where the heap does not move down, there are to be as many pages as hold it. -/
theorem pagesAfter_of_le (h : hp.toNat ≤ hp'.toNat) :
    pagesAfter hp' (initialPages hp) = initialPages hp' := by
  have hlt := hp'.toNat_lt
  rw [pagesAfter_eq, initialPages_eq, initialPages_eq, UInt32.size]
  split <;> omega

/-- Where it moves down, more pages are asked for only if all are there. -/
theorem maxPages_lt_pagesAfter_iff (h : hp'.toNat ≤ hp.toNat) :
    Wasm.maxPages < pagesAfter hp' (initialPages hp) ↔
      UInt32.size - Wasm.pageBytes < hp.toNat ∧ 0 < hp'.toNat ∧
        hp'.toNat ≤ UInt32.size - Wasm.pageBytes := by
  have hlt := hp.toNat_lt
  rw [pagesAfter_eq, initialPages_eq, Wasm.maxPages, Wasm.pageBytes, UInt32.size]
  split <;> omega

end Pages

/-! ## Sizes -/

section Sizes

variable {size finish : Nat}

theorem heapTaken_bounds (size : Nat) :
    size ≤ heapTaken size ∧ heapTaken size < size + 9 ∧ heapAlign.toNat ∣ heapTaken size := by
  refine ⟨?_, ?_, Nat.dvd_mul_left _ _⟩
  all_goals
    unfold heapTaken roundUp
    rw [show heapAlign.toNat = 8 from rfl]
    omega

@[simp] theorem heapEnd_concat (top : UInt32) (blocks : List HeapBlock) (b : HeapBlock) :
    heapEnd top (blocks ++ [b]) = heapEnd top blocks + heapTaken b.size := by
  simp [heapEnd, Nat.add_assoc]

theorem le_heapEnd (top : UInt32) (blocks : List HeapBlock) : top.toNat ≤ heapEnd top blocks :=
  Nat.le_add_right _ _

/-- So many bytes can be taken from a heap that ends at `finish`. -/
def Room (finish taken : Nat) : Prop := finish + taken < UInt32.size

/-- All of memory is there, and when so many bytes are taken the heap pointer wraps to where pages would be
missing. -/
def Refusable (finish taken : Nat) : Prop :=
  UInt32.size - Wasm.pageBytes < finish ∧ UInt32.size < finish + taken ∧
    finish + taken ≤ UInt32.size + (UInt32.size - Wasm.pageBytes)

end Sizes

section Bump

variable {hp taken : UInt32} {size : Nat}

theorem toNat_bump_of_room (h : Room hp.toNat taken.toNat) :
    (hp + taken).toNat = hp.toNat + taken.toNat := by
  rw [UInt32.toNat_add]
  exact Nat.mod_eq_of_lt h

theorem toNat_bump_of_not_room (h : ¬ Room hp.toNat taken.toNat) :
    (hp + taken).toNat + UInt32.size = hp.toNat + taken.toNat := by
  have hhp := hp.toNat_lt
  have htaken := taken.toNat_lt
  rw [UInt32.toNat_add]
  unfold Room UInt32.size at *
  omega

/-- There is room exactly if what is wanted is in the memory there is to be, and the pointer does not move
down. -/
theorem room_iff (htaken : taken.toNat = heapTaken size) :
    (pagesAfter (hp + taken) (initialPages hp) ≤ Wasm.maxPages ∧
      hp.toNat + size ≤ pagesAfter (hp + taken) (initialPages hp) * Wasm.pageBytes ∧
      hp.toNat ≤ (hp + taken).toNat) ↔ Room hp.toNat taken.toNat := by
  obtain ⟨hle, hlt, _⟩ := heapTaken_bounds size
  rw [← htaken] at hle hlt
  by_cases hroom : Room hp.toNat taken.toNat
  case pos =>
    have hnext := toNat_bump_of_room hroom
    have hup : hp.toNat ≤ (hp + taken).toNat := by omega
    obtain ⟨hmax, hcovers⟩ := initialPages_bounds (hp + taken)
    rw [pagesAfter_of_le hup]
    exact iff_of_true ⟨hmax, by omega, hup⟩ hroom
  case neg =>
    -- A pointer that wraps moves down.
    have hnext := toNat_bump_of_not_room hroom
    have hword := taken.toNat_lt
    refine iff_of_false ?_ hroom
    rintro ⟨_, _, hup⟩
    unfold UInt32.size at *
    omega

theorem refusable_iff :
    Wasm.maxPages < pagesAfter (hp + taken) (initialPages hp) ↔ Refusable hp.toNat taken.toNat := by
  by_cases hroom : Room hp.toNat taken.toNat
  case pos =>
    have hnext := toNat_bump_of_room hroom
    rw [pagesAfter_of_le (by omega)]
    refine iff_of_false (Nat.not_lt.mpr (initialPages_bounds _).1) fun hrefusable => ?_
    exact absurd hroom (Nat.not_lt.mpr (Nat.le_of_lt hrefusable.2.1))
  case neg =>
    have hnext := toNat_bump_of_not_room hroom
    have hword := taken.toNat_lt
    rw [maxPages_lt_pagesAfter_iff (by unfold UInt32.size at *; omega)]
    unfold Refusable UInt32.size Wasm.pageBytes at *
    omega

end Bump

/-! ## One request -/

section Request

variable {engine : Engine} {invoke : Invoke} {top : UInt32} {blocks : List HeapBlock} {s : Instance}
variable {r : HeapRequest} {locals stack : List Val} {sp hp : UInt32} {c : Config}

/-- Where the heap is after these blocks were handed out. -/
structure HeapState (top : UInt32) (blocks : List HeapBlock) (s : Instance) (sp hp : UInt32) : Prop where
  globals : s.globals = [sp, hp]
  pages : s.memory.pages = initialPages hp
  pointer : hp.toNat = heapEnd top blocks
  aligned : heapAlign.toNat ∣ hp.toNat
  below : ∀ b ∈ blocks, b.start + b.size ≤ hp.toNat

/-- What the code of a request has done where it goes on. -/
structure Answered (r : HeapRequest) (s : Instance) (locals : List Val) (sp hp : UInt32) (c : Config) :
    Prop where
  globals : c.inst.globals = [sp, hp + r.taken]
  locals : c.locals = locals.set r.place (.i32 hp)
  pages : c.inst.memory.pages = pagesAfter (hp + r.taken) s.memory.pages
  given : pagesAfter (hp + r.taken) s.memory.pages ≤ Wasm.maxPages

theorem HeapState.maxPages (h : HeapState top blocks s sp hp) : s.memory.pages ≤ Wasm.maxPages := by
  rw [h.pages]
  exact (initialPages_bounds hp).1

theorem HeapState.reaches_request (h : HeapState top blocks s sp hp) (hplace : r.place < locals.length) :
    Reaches engine invoke r.code ⟨s, locals, stack⟩ (Answered r s locals sp hp) := by
  rw [r.spec.2]
  refine .after (runs_bump h.globals hplace _) ?_
  refine (reaches_growMemory (s := { s with globals := [sp, hp + r.taken] }) rfl
    h.maxPages).imp ?_
  rintro c ⟨hlocals, _, hgrown, hpages, hgiven⟩
  exact ⟨hgrown.globals, hlocals, hpages, hgiven⟩

/-- An engine that gives what it can lets the code go on if there can be so many pages. -/
theorem HeapState.runs_request (h : HeapState top blocks s sp hp) (hplace : r.place < locals.length)
    (hgiven : pagesAfter (hp + r.taken) s.memory.pages ≤ Wasm.maxPages) :
    ∃ c, Runs (fun _ => true) invoke r.code ⟨s, locals, stack⟩ c := by
  obtain ⟨c, hgrow⟩ := runs_growMemory (s := { s with globals := [sp, hp + r.taken] })
    rfl h.maxPages hgiven
  rw [r.spec.2]
  exact ⟨c, (runs_bump h.globals hplace _).append hgrow⟩

/-- What was answered is granted if it is in memory and the pointer has not moved down. -/
theorem HeapState.granted_iff (h : HeapState top blocks s sp hp) (hplace : r.place < locals.length)
    (hc : Answered r s locals sp hp c) :
    (∃ address, Granted top blocks r s c address) ↔
      hp.toNat + r.size ≤ pagesAfter (hp + r.taken) (initialPages hp) * Wasm.pageBytes ∧
        hp.toNat ≤ (hp + r.taken).toNat := by
  have hprevious : s.globals[heapPointer]? = some hp := by rw [h.globals]; rfl
  have hnext : c.inst.globals[heapPointer]? = some (hp + r.taken) := by
    rw [hc.globals]
    rfl
  have hsize : c.inst.memory.size =
      pagesAfter (hp + r.taken) (initialPages hp) * Wasm.pageBytes := by
    rw [Wasm.Memory.size, hc.pages, h.pages]
  constructor
  · rintro ⟨address, hgranted⟩
    obtain rfl : address = hp := Option.some.inj (hgranted.previous.symm.trans hprevious)
    obtain ⟨hp', hhp', hup⟩ := hgranted.upward
    cases hhp'.symm.trans hnext
    exact ⟨hsize ▸ hgranted.inside, hup⟩
  · rintro ⟨hinside, hup⟩
    refine ⟨hp, hprevious, ?_, h.aligned, hsize ▸ hinside, ?_, fun b hb => .inl (h.below b hb),
      _, hnext, hup⟩
    · rw [hc.locals]
      exact List.getElem?_set_self hplace
    · rw [h.pointer]
      exact le_heapEnd top blocks

/-- A request is honored by every engine exactly if there is room, or memory is refused for want of pages. -/
theorem HeapState.honors_iff (h : HeapState top blocks s sp hp) (hplace : r.place < locals.length) :
    (∀ engine, Honors engine invoke top blocks r s locals stack) ↔
      Room (heapEnd top blocks) (heapTaken r.size) ∨
        Refusable (heapEnd top blocks) (heapTaken r.size) := by
  rw [← h.pointer, ← r.spec.1, ← room_iff r.spec.1, ← refusable_iff]
  constructor
  · -- An engine that gives every page there can be shows whether what is there suffices.
    intro hhonors
    rcases Nat.lt_or_ge Wasm.maxPages (pagesAfter (hp + r.taken) (initialPages hp))
      with hmore | hgiven
    · exact .inr hmore
    · obtain ⟨c, hruns⟩ : ∃ c, Runs (fun _ => true) invoke r.code ⟨s, locals, stack⟩ c :=
        h.runs_request hplace (h.pages ▸ hgiven)
      have hanswered := (Reaches.iff_of_runs hruns).mp (h.reaches_request hplace)
      exact .inl ⟨hgiven,
        (h.granted_iff hplace hanswered).mp ((Reaches.iff_of_runs hruns).mp (hhonors _))⟩
  · intro hroom engine
    refine (h.reaches_request hplace).imp fun c hc => ?_
    rcases hroom with ⟨_, hroom⟩ | hmore
    · exact (h.granted_iff hplace hc).mpr hroom
    · exact absurd (h.pages ▸ hc.given) (Nat.not_le.mpr hmore)

theorem HeapState.next (h : HeapState top blocks s sp hp) (hplace : r.place < locals.length)
    (hc : Answered r s locals sp hp c) {address : UInt32}
    (hgranted : Granted top blocks r s c address) :
    HeapState top (blocks ++ [⟨address.toNat, r.size⟩]) c.inst sp (hp + r.taken) := by
  have hprevious : s.globals[heapPointer]? = some hp := by rw [h.globals]; rfl
  obtain rfl : address = hp := Option.some.inj (hgranted.previous.symm.trans hprevious)
  have hroom : Room address.toNat r.taken.toNat :=
    (room_iff r.spec.1).mp ⟨h.pages ▸ hc.given, (h.granted_iff hplace hc).mp ⟨_, hgranted⟩⟩
  have hnext := toNat_bump_of_room hroom
  obtain ⟨hle, _, hdvd⟩ := heapTaken_bounds r.size
  rw [r.spec.1] at hnext
  refine ⟨hc.globals, ?_, ?_, ?_, fun b hb => ?_⟩
  · rw [hc.pages, h.pages]
    exact pagesAfter_of_le (by omega)
  · rw [heapEnd_concat, ← h.pointer, hnext]
  · rw [hnext]
    exact (Nat.dvd_add_right h.aligned).mpr hdvd
  · rw [hnext]
    rcases List.mem_append.mp hb with hb | hb
    · exact (h.below b hb).trans (Nat.le_add_right _ _)
    · cases List.mem_singleton.mp hb
      exact Nat.add_le_add_left hle _

end Request

/-- A run goes where the blocks say. -/
theorem HeapRun.state {wasm : Wasm.Module} {top : UInt32} (hglobals : wasm.globals = [top, top])
    (hpages : wasm.pages = initialPages top) (htop : heapAlign.toNat ∣ top.toNat)
    {blocks : List HeapBlock} {s : Instance} (h : HeapRun wasm top blocks s) :
    ∃ sp hp, HeapState top blocks s sp hp := by
  -- Along the run: code has one outcome, so where a granted request led is where its code leads.
  induction h with
  | start => exact ⟨top, top, hglobals, hpages, rfl, htop, by simp⟩
  | other _ hkeeps ih =>
    obtain ⟨sp, hp, hstate⟩ := ih
    obtain ⟨sp', hglobals'⟩ := hkeeps.globals sp hp hstate.globals
    exact ⟨sp', hp, hglobals', hkeeps.pages.trans hstate.pages, hstate.pointer, hstate.aligned,
      hstate.below⟩
  | request r _ hplace hruns hgranted ih =>
    obtain ⟨sp, hp, hstate⟩ := ih
    have hanswered := (Reaches.iff_of_runs hruns).mp (hstate.reaches_request hplace)
    exact ⟨sp, _, hstate.next hplace hanswered hgranted⟩

/-- The request of an instruction, if it is one. -/
def HeapRequest.of? (ctx : FunctionContext) (inst : Inst) : Option HeapRequest :=
  match hop : inst.op with
  | .heapAlloc ty =>
    match hextent : ctx.layouts.extent ty, hplace : ctx.frame.result? inst.id,
      hlowered : ctx.lowerInst inst with
    | .ok e, some place, .ok code => some ⟨ctx, inst, ty, e, place, code, hop, hextent, hplace, hlowered⟩
    | _, _, _ => none
  | _ => none

/-- The first request of a function, in the code that it is lowered to. -/
def firstRequest? (m : IR.Module) (f : IR.Function) : Option HeapRequest :=
  match Layouts.ofStructs m.structs with
  | .error _ => none
  | .ok layouts =>
    match DataImage.ofModule layouts m, Frame.ofFunction layouts f with
    | .ok data, .ok frame => f.insts.findSome? (HeapRequest.of? ⟨layouts, data, frame⟩)
    | _, _ => none

end Straightline.Lowering

namespace Straightline

open Lowering

/-- Which requests are honored. A module is lowered, and a run has gone somewhere where every request was
granted that did not stop it. Then the heap pointer is what the blocks take, without a bound. Whatever the
engine does, the next request is granted or stopped where memory is refused, exactly if the heap then still
ends below `2 ^ 32`, or if no more pages can be there than there are and the pointer wraps to where some
would be missing. -/
theorem heap_request_honored_iff {m : IR.Module} {stackPages : Nat} {wasm : Wasm.Module}
    (hlower : lowerModule m stackPages = .ok wasm) :
    ∃ top, wasm.globals = [top, top] ∧ wasm.pages = initialPages top ∧
      ∀ {blocks : List HeapBlock} {s : Wasm.Instance}, HeapRun wasm top blocks s →
        (∃ hp, s.globals[heapPointer]? = some hp ∧ hp.toNat = heapEnd top blocks) ∧
        ∀ (invoke : Wasm.Invoke) (r : HeapRequest) (locals stack : List Wasm.Val),
          r.place < locals.length →
            ((∀ engine, Honors engine invoke top blocks r s locals stack) ↔
              Room (heapEnd top blocks) (heapTaken r.size) ∨
                Refusable (heapEnd top blocks) (heapTaken r.size)) := by
  obtain ⟨_, data, top, _, _, _, _, htop, _, _, rfl⟩ := of_lowerModule hlower
  have haligned : heapAlign.toNat ∣ top.toNat := by
    obtain ⟨base, hbase, htop⟩ := of_stackTop htop
    rw [htop]
    exact (Nat.dvd_add_right (Nat.dvd_mul_left_of_dvd (by decide) _)).mpr
      (Nat.dvd_trans (by decide) (frameAlign_dvd hbase))
  refine ⟨top, rfl, rfl, fun {blocks s} hrun => ?_⟩
  obtain ⟨sp, hp, hstate⟩ := hrun.state rfl rfl haligned
  refine ⟨⟨hp, ?_, hstate.pointer⟩, fun invoke r locals stack hplace => hstate.honors_iff hplace⟩
  rw [hstate.globals]
  rfl

/-- The one request of a program, on a heap with room. -/
theorem heap_request_honored_iff_boxing :
    ∃ m wasm top f r, (buildModule [boxing] {}).result = .ok m ∧ lowerModule m 16 = .ok wasm ∧
      wasm.globals = [top, top] ∧ m.function? 0 = some f ∧ firstRequest? m f = some r ∧
      ∀ engine invoke, Honors engine invoke top [] r wasm.instantiate
        (List.replicate (r.place + 1) (.i32 0)) [] := by
  have hcheck : ∃ m, (buildModule [boxing] {}).result = .ok m ∧
      ∃ wasm, lowerModule m 16 = .ok wasm ∧ ∃ f, m.function? 0 = some f ∧
        ∃ r, firstRequest? m f = some r ∧ ∃ top, wasm.globals.head? = some top ∧
          top.toNat + heapTaken r.size < UInt32.size := by decide +kernel
  obtain ⟨m, hbuild, wasm, hlower, f, hf, r, hr, top, htop, hroom⟩ := hcheck
  obtain ⟨_, hglobals, _, hrun⟩ := heap_request_honored_iff hlower
  rw [hglobals] at htop
  cases htop
  refine ⟨m, wasm, top, f, r, hbuild, hlower, hglobals, hf, hr, fun engine invoke => ?_⟩
  exact ((hrun .start).2 invoke r _ [] (by simp)).mpr (.inl hroom) engine

/-- A model that takes 131072 bytes, as structures are nested in it four deep. -/
def nesting : SourceUnit where
  name := "nesting"
  bytes := eightOf "A" "Int64" ++ eightOf "B" "A" ++ eightOf "C" "B" ++ eightOf "D" "C" ++
    ("Big: model = (a: D, b: D, c: D, d: D)\n" ++
      "make: (d: D) -> Big = \x7b\n  return Big(d, d, d, d)\n\x7d\n").toList.map Char.toUInt8

/-- Where the stack takes all but two of the pages, the first request for that model is answered with the end
of the stack, and the heap pointer wraps to 16. No page is asked for, and the storage does not end in
memory. -/
theorem heap_request_honored_fails_nesting :
    ∃ m wasm top f r c, (buildModule [nesting] {}).result = .ok m ∧ lowerModule m 65534 = .ok wasm ∧
      wasm.globals = [top, top] ∧ HeapRun wasm top [] wasm.instantiate ∧ m.function? 0 = some f ∧
      firstRequest? m f = some r ∧
      Wasm.Runs (fun _ => true) (fun _ _ => throw .depth) r.code
        ⟨wasm.instantiate, List.replicate (r.place + 1) (.i32 0), []⟩ c ∧
      c.locals[r.place]? = some (.i32 top) ∧ c.inst.globals = [top, 16] ∧
      c.inst.memory.size < top.toNat + r.size := by
  have hcheck : ∃ m, (buildModule [nesting] {}).result = .ok m ∧
      ∃ wasm, lowerModule m 65534 = .ok wasm ∧ wasm.globals = [4294836240, 4294836240] ∧
        ∃ f, m.function? 0 = some f ∧ ∃ r, firstRequest? m f = some r ∧
          ∃ c, Wasm.execAll (fun _ => true) (fun _ _ => throw .depth)
              ⟨wasm.instantiate, List.replicate (r.place + 1) (.i32 0), []⟩ r.code = .next c ∧
            c.locals[r.place]? = some (.i32 4294836240) ∧ c.inst.globals = [4294836240, 16] ∧
            c.inst.memory.size < (4294836240 : UInt32).toNat + r.size := by decide +kernel
  obtain ⟨m, hbuild, wasm, hlower, hglobals, f, hf, r, hr, c, hruns, hresult, hwrapped, houtside⟩ :=
    hcheck
  exact ⟨m, wasm, 4294836240, f, r, c, hbuild, hlower, hglobals, .start, hf, hr, hruns, hresult,
    hwrapped, houtside⟩

end Straightline
