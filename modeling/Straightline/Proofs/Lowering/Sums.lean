import Mathlib.Data.Int.ModEq
import Straightline.Proofs.Emission.Sums
import Straightline.Proofs.Lowering.Effects
import Straightline.Proofs.Meaning.Source
import Straightline.Proofs.Units.Constants

/-!
# Sums wrap around

Additions and subtractions of integers of a width are executed on words that are wider, and cut back after
each one. Wherever that happens, a sum comes to the number of its width that is congruent to the exact one
(`sums_wrap`): what there is so far stays congruent to the exact sum so far from one step to the next
(`sums_execute`). Nothing that is executed for an operand sets the local of an earlier value, so what there
is so far is still there when the operand is added (`FunctionContext.Holds.later`).
-/

set_option autoImplicit false

namespace Straightline

open IR (Canonical Inst Site Value widths)
open Wasm (Avoids Config Effect Engine Instr Invoke Pushes Runs Val)
open Wasm.Instr (effectsAll)

/-! ## Numbers of a width -/

namespace IR

theorem bmod_modEq (n : Int) (bits : Nat) : n.bmod (Nat.pow 2 bits) ≡ n [ZMOD 2 ^ bits] := by
  have hpow : ((Nat.pow 2 bits : Nat) : Int) = 2 ^ bits := by simp
  unfold Int.ModEq
  rw [← hpow]
  exact Int.bmod_emod

/-- A width has one number of each class. -/
theorem Canonical.eq_of_modEq {bits : Nat} {a b : Int} (hbits : bits ∈ widths) (hone : bits ≠ 1)
    (ha : Canonical bits a) (hb : Canonical bits b) (h : a ≡ b [ZMOD 2 ^ bits]) : a = b := by
  have hpow : ((Nat.pow 2 bits : Nat) : Int) = 2 ^ bits := by simp
  rw [← ha.bmod_eq hbits hone, ← hb.bmod_eq hbits hone, ← Int.emod_bmod a, ← Int.emod_bmod b, hpow, h.eq]

end IR

/-- The exact result of these steps, if these are the numbers of their operands. -/
def exactSum (sum : Int) : List Step → List Int → Int
  | .mk operator _ _ :: steps, n :: ns => exactSum (Meaning.apply operator sum n) steps ns
  | _, _ => sum

/-- What is congruent stays so. -/
theorem Meaning.apply_modEq {a b m : Int} (h : a ≡ b [ZMOD m]) (operator : Operator) (n : Int) :
    apply operator a n ≡ apply operator b n [ZMOD m] := by
  cases operator with
  | add => exact h.add_right n
  | sub => exact h.sub_right n

namespace Lowering

variable {fc : FunctionContext} {f : IR.Function} {w : Site} {bits : Nat} {insts more : List Inst}
variable {engine : Engine} {invoke : Invoke} {c c' c'' : Config} {v : Value} {n : Int}

namespace FunctionContext

/-! ## What is executed for instructions -/

/-- The code of the instructions goes from one configuration on to another. -/
def Executes (fc : FunctionContext) (engine : Engine) (invoke : Invoke) (insts : List Inst)
    (c c' : Config) : Prop :=
  ∃ codes, insts.mapM fc.lowerInst = .ok codes ∧ Runs engine invoke codes.flatten c c'

namespace Executes

theorem nil : fc.Executes engine invoke [] c c := ⟨[], rfl, .nil⟩

theorem one {inst : Inst} {code : List Instr} (hcode : fc.lowerInst inst = .ok code)
    (hruns : Runs engine invoke code c c') : fc.Executes engine invoke [inst] c c' := by
  refine ⟨[code], ?_, ?_⟩
  · rw [List.mapM_cons, hcode]
    rfl
  · rwa [List.flatten_singleton]

theorem append (h : fc.Executes engine invoke insts c c') (h' : fc.Executes engine invoke more c' c'') :
    fc.Executes engine invoke (insts ++ more) c c'' := by
  obtain ⟨codes, hcodes, hruns⟩ := h
  obtain ⟨codes', hcodes', hruns'⟩ := h'
  refine ⟨codes ++ codes', ?_, ?_⟩
  · rw [List.mapM_append, hcodes, hcodes']
    rfl
  · rw [List.flatten_append]
    exact hruns.append hruns'

/-- The locals that are of no result of the instructions. -/
def Spares (fc : FunctionContext) (insts : List Inst) (e : Effect) : Prop :=
  ∃ place, e = .setLocal place ∧ ∀ inst ∈ insts, fc.frame.result? inst.id ≠ some place

theorem avoids {codes : List (List Instr)} (h : List.Forall₂ (Lowered fc) more codes)
    (hsub : ∀ inst ∈ more, inst ∈ insts) : Avoids (Spares fc insts) (effectsAll codes.flatten) := by
  induction h with
  | nil => exact List.forall_mem_nil _
  | @cons inst code rest codes hcode _ ih =>
    obtain ⟨hinst, hrest⟩ := List.forall_mem_cons.mp hsub
    rw [List.flatten_cons, Wasm.Instr.effectsAll_append]
    refine Avoids.append_iff.mpr ⟨?_, ih hrest⟩
    rintro e he ⟨place, rfl, hspared⟩
    exact hspared inst hinst (hcode.of_setLocal he)

/-- No local is set but those of the results. -/
theorem same (h : fc.Executes engine invoke insts c c') : c.Same (Spares fc insts) c' := by
  obtain ⟨codes, hcodes, hruns⟩ := h
  have hlowered := (Except.forall₂_of_mapM hcodes).imp fun _ _ => lowered_of_lowerInst
  -- A function that is called has locals of its own.
  have hkeeps : invoke.Keeps (Spares fc insts) := by
    rintro _ _ _ _ _ _ _ ⟨_, ⟨⟩, _⟩
  have hleaves : (Wasm.execAll engine invoke c codes.flatten).Leaves (c.Same (Spares fc insts)) _ :=
    Wasm.execAll_same hkeeps (.of_eq rfl rfl) _ (avoids hlowered fun _ h => h)
  rw [hruns] at hleaves
  exact hleaves

end Executes

/-! ## Values in hand -/

/-- The value is in hand, as the word that is this number of `bits` bits with its sign. -/
structure Holds (fc : FunctionContext) (bits : Nat) (c : Config) (v : Value) (n : Int) : Prop where
  canonical : Canonical bits n
  pushed : ∃ push word, fc.pushValue v = .ok push ∧ Pushes push c.locals word ∧
    word.type = valType (.int bits) ∧ word.signed = n

namespace Holds

theorem of_word (hbits : bits ∈ widths) (hn : Canonical bits n) {push : List Instr}
    (hpush : fc.pushValue v = .ok push) (hpushes : Pushes push c.locals (word (.int bits) n)) :
    fc.Holds bits c v n :=
  ⟨hn, push, _, hpush, hpushes, type_word bits n, signed_word hbits hn⟩

theorem pushes (h : fc.Holds bits c v n) : ∃ push, fc.pushValue v = .ok push ∧
    Pushes push c.locals (word (.int bits) n) := by
  obtain ⟨push, w, hpush, hpushes, htype, hsigned⟩ := h.pushed
  exact ⟨push, hpush, eq_word_of_signed htype hsigned ▸ hpushes⟩

/-- A result is in hand once it is in its local. -/
theorem put (hbits : bits ∈ widths) (hn : Canonical bits n) {id place : Nat}
    (hplace : fc.frame.result? id = some place) (hlt : place < c.locals.length) :
    fc.Holds bits { c with locals := c.locals.set place (word (.int bits) n) } ⟨.inst id, .int bits⟩ n := by
  have hpush : fc.pushValue ⟨.inst id, .int bits⟩ = .ok [.localGet place] := by
    simp only [FunctionContext.pushValue, FunctionContext.pushInst, hplace]
  exact .of_word hbits hn hpush fun _ _ _ _ => .localGet (List.getElem?_set_self hlt)

/-- Pushing reads at most the local of a parameter or of a result. -/
theorem of_locals (h : fc.Holds bits c v n) (hparam : ∀ place, v.source = .param place →
      c'.locals[place]? = c.locals[place]?)
    (hresult : ∀ id place, v.source = .inst id → fc.frame.result? id = some place →
      c'.locals[place]? = c.locals[place]?) : fc.Holds bits c' v n := by
  obtain ⟨hn, push, word, hpush, hpushes, hword⟩ := h
  refine ⟨hn, push, word, hpush, fun engine invoke s stack => ?_, hword⟩
  have hruns := hpushes engine invoke s stack
  cases pushed_of_pushValue hpush with
  | param => exact .localGet ((hparam _ rfl).trans hruns.of_localGet)
  | inst hplace => exact .localGet ((hresult _ _ rfl hplace).trans hruns.of_localGet)
  | wide | word | struct | global =>
    -- A constant and the address of a global are pushed without a local.
    cases hruns
    exact .one rfl

/-- A value that is in hand is so after whatever is executed for later instructions. -/
theorem later (h : fc.Holds bits c v n) (hframe : fc.frame.Numbered f)
    (hparams : f.params = w.function.params) (hscoped : w.Scoped insts v)
    (hids : ∀ inst ∈ more, insts.length ≤ inst.id) (hexecutes : fc.Executes engine invoke more c c') :
    fc.Holds bits c' v n := by
  have hsame := hexecutes.same
  refine h.of_locals (fun place hsource => ?_) fun id place hsource hplace => ?_
  · refine hsame.locals place ⟨place, rfl, fun inst _ hresult => ?_⟩
    cases hscoped with
    | param hty =>
      cases hsource
      have hlt := (List.getElem?_eq_some_iff.mp hty).1
      have hlow := (hframe.result_bounds hresult).1
      rw [hparams] at hlow
      omega
    | inst | const | global => cases hsource
  · refine hsame.locals place ⟨place, rfl, fun inst hinst hresult => ?_⟩
    cases hscoped with
    | inst hearlier =>
      cases hsource
      have hlt := (List.getElem?_eq_some_iff.mp hearlier).1
      have hle := hids inst hinst
      rw [hframe.results_apart hresult hplace] at hle
      omega
    | param | const | global => cases hsource

end Holds

/-! ## Arithmetic -/

/-- The instruction of an operator puts into its local what the numbers of its operands come to, cut back to
their width. -/
theorem executes_operator (hbits : bits ∈ widths) (hone : bits ≠ 1) {id : Nat} {operator : Operator}
    {left right : Value} {code : List Instr}
    (hcode : fc.lowerInst ⟨id, .int bits, operator.op left right⟩ = .ok code)
    (hroom : ∀ place, fc.frame.result? id = some place → place < c.locals.length) {x y : Int}
    (hx : fc.Holds bits c left x) (hy : fc.Holds bits c right y) :
    ∃ c', fc.Executes engine invoke [⟨id, .int bits, operator.op left right⟩] c c' ∧
      fc.Holds bits c' ⟨.inst id, .int bits⟩
        ((Meaning.apply operator x y).bmod (Nat.pow 2 bits)) := by
  obtain ⟨push, hpush, hpushes⟩ := hx.pushes
  obtain ⟨push', hpush', hpushes'⟩ := hy.pushes
  have hlowered := lowered_of_lowerInst hcode
  obtain ⟨op, place, hplace, rfl, hruns⟩ : ∃ op place, fc.frame.result? id = some place ∧
      code = push ++ push' ++ op ++ narrow (.int bits) ++ [.localSet place] ∧
      Runs engine invoke (op ++ narrow (.int bits))
        ⟨c.inst, c.locals, word (.int bits) y :: word (.int bits) x :: c.stack⟩
        ⟨c.inst, c.locals,
          word (.int bits) ((Meaning.apply operator x y).bmod (Nat.pow 2 bits)) :: c.stack⟩ := by
    cases operator with
    | add =>
      cases hlowered with
      | add hleft hright hplace =>
        cases hpush.symm.trans hleft
        cases hpush'.symm.trans hright
        exact ⟨_, _, hplace, rfl, runs_add hbits hone x y⟩
    | sub =>
      cases hlowered with
      | sub hleft hright hplace =>
        cases hpush.symm.trans hleft
        cases hpush'.symm.trans hright
        exact ⟨_, _, hplace, rfl, runs_sub hbits hone x y⟩
  have hlt := hroom place hplace
  have hpushed := (hpushes engine invoke c.inst c.stack).append (hpushes' engine invoke c.inst _)
  refine ⟨_, .one hcode ?_, .put hbits (canonical_bmod hbits hone _) hplace hlt⟩
  rw [List.append_assoc (push ++ push')]
  exact (hpushed.append hruns).append (.localSet hlt)

/-! ## Steps -/

/-- Whenever their turn comes, the operands of these steps are supplied: what is executed for one goes on,
and leaves it in hand as the number given for it. -/
inductive Supplied (fc : FunctionContext) (engine : Engine) (invoke : Invoke) (bits : Nat) :
    Config → List Addend → List Int → Prop
  | nil {c : Config} : Supplied fc engine invoke bits c [] []
  | cons {c c' : Config} {a : Addend} {addends : List Addend} {n : Int} {ns : List Int}
      (executed : fc.Executes engine invoke a.operand c c') (held : fc.Holds bits c' a.value n)
      (others : ∀ c'', fc.Executes engine invoke [a.step] c' c'' →
        Supplied fc engine invoke bits c'' addends ns) :
      Supplied fc engine invoke bits c (a :: addends) (n :: ns)

end FunctionContext

/-- What there is so far stays congruent to the exact sum so far, and in hand. -/
theorem sums_execute {ctx : BodyContext} {scope : Scope Value} {expected : Ty} {left result : Value}
    {steps : List Step} {addends : List Addend} {ns : List Int} {sum z : Int}
    (hsums : ctx.Sums w scope expected insts left steps addends result)
    (hty : expected.irType = .int bits) (hbits : bits ∈ widths) (hone : bits ≠ 1)
    (hframe : fc.frame.Numbered f) (hparams : f.params = w.function.params)
    (hcodes : ∀ inst ∈ addends.flatMap Addend.insts, ∃ code, fc.lowerInst inst = .ok code)
    (hscoped : w.Scoped insts left) (hlocals : c.locals.length = f.params.length + fc.frame.locals.length)
    (hz : fc.Holds bits c left z) (hsum : z ≡ sum [ZMOD 2 ^ bits])
    (hsupplied : fc.Supplied engine invoke bits c addends ns) :
    ∃ c' z', fc.Executes engine invoke (addends.flatMap Addend.insts) c c' ∧
      fc.Holds bits c' result z' ∧ z' ≡ exactSum sum steps ns [ZMOD 2 ^ bits] := by
  induction hsums generalizing c ns sum z with
  | done =>
    cases hsupplied
    exact ⟨c, z, .nil, hz, hsum⟩
  | @step insts operand left right result operator stop term steps addends emitted others ih =>
    cases hsupplied with
    | @cons _ c' _ _ n ns executed held supplied =>
      rw [List.flatMap_cons] at hcodes ⊢
      obtain ⟨hfirst, hrest⟩ := List.forall_mem_append.mp hcodes
      obtain ⟨code, hcode⟩ := hfirst _ (List.mem_append_right _ (List.mem_singleton_self _))
      have hids : ∀ inst ∈ operand, insts.length ≤ inst.id := by
        intro inst hinst
        have hid : inst.id ∈ operand.map Inst.id := List.mem_map_of_mem hinst
        rw [emitted.chain.ids] at hid
        exact (List.mem_range'_1.mp hid).1
      have hlocals' : c'.locals.length = f.params.length + fc.frame.locals.length :=
        executed.same.size.trans hlocals
      -- What there is so far outlasts the operand, so both are in hand when they are added.
      have hleft := hz.later hframe hparams hscoped hids executed
      rw [hty] at hcode
      obtain ⟨c'', hstep, hresult⟩ := FunctionContext.executes_operator hbits hone hcode
        (fun place hplace => hlocals' ▸ (hframe.result_bounds hplace).2) hleft held
      rw [← hty] at hstep hresult
      have hscoped' : w.Scoped
          (insts ++ operand ++ [⟨(insts ++ operand).length, expected.irType, operator.op left right⟩])
          (Site.next (insts ++ operand) expected.irType) := Site.scoped_next (by simp [hty]) _
      have hnext : (Meaning.apply operator z n).bmod (Nat.pow 2 bits) ≡ Meaning.apply operator sum n
          [ZMOD 2 ^ bits] :=
        (IR.bmod_modEq _ bits).trans (Meaning.apply_modEq hsum operator n)
      obtain ⟨c₁, z₁, hexecutes, hz₁, hsum₁⟩ := ih hrest hscoped' (hstep.same.size.trans hlocals') hresult
        hnext (supplied c'' hstep)
      exact ⟨c₁, z₁, (executed.append hstep).append hexecutes, hz₁, hsum₁⟩

/-! ## Functions -/

namespace FunctionContext

/-- The code of the instructions is part of the body. -/
def Contains (fc : FunctionContext) (body : List Instr) (insts : List Inst) : Prop :=
  ∃ ahead codes behind, insts.mapM fc.lowerInst = .ok codes ∧ body = ahead ++ codes.flatten ++ behind

/-- Wherever its operands are supplied, the sum is executed, and leaves the one number of `bits` bits in hand
that is congruent to the exact sum. -/
def Wraps (fc : FunctionContext) (bits locals : Nat) (operand : List Inst) (left : Value)
    (steps : List Step) (addends : List Addend) (value : Value) : Prop :=
  ∀ (engine : Engine) (invoke : Invoke) (c c₀ : Config) (n : Int) (ns : List Int),
    c.locals.length = locals → fc.Executes engine invoke operand c c₀ → fc.Holds bits c₀ left n →
    fc.Supplied engine invoke bits c₀ addends ns →
    ∃ c' z, fc.Executes engine invoke (operand ++ addends.flatMap Addend.insts) c c' ∧
      fc.Holds bits c' value z ∧ z ≡ exactSum n steps ns [ZMOD 2 ^ bits] ∧
      ∀ z', Canonical bits z' → z' ≡ exactSum n steps ns [ZMOD 2 ^ bits] → z' = z

theorem wraps {ctx : BodyContext} {scope : Scope Value} {expected : Ty} {first : Term}
    {left value : Value} {operand : List Inst} {steps : List Step} {addends : List Addend}
    (hfirst : ctx.Emitted w scope expected insts first left operand)
    (hsums : ctx.Sums w scope expected (insts ++ operand) left steps addends value)
    (hty : expected.irType = .int bits) (hbits : bits ∈ widths) (hone : bits ≠ 1)
    (hframe : fc.frame.Numbered f) (hparams : f.params = w.function.params) {codes : List (List Instr)}
    (hcodes : (operand ++ addends.flatMap Addend.insts).mapM fc.lowerInst = .ok codes) :
    fc.Wraps bits (f.params.length + fc.frame.locals.length) operand left steps addends value := by
  intro engine invoke c c₀ n ns hlocals hexecuted hheld hsupplied
  have hlowered : ∀ inst ∈ addends.flatMap Addend.insts, ∃ code, fc.lowerInst inst = .ok code := by
    intro inst hinst
    obtain ⟨i, hi⟩ := List.getElem?_of_mem (List.mem_append_right operand hinst)
    obtain ⟨code, _, hcode⟩ := forall₂_getElem? (Except.forall₂_of_mapM hcodes) hi
    exact ⟨code, hcode⟩
  obtain ⟨c', z, hexecutes, hz, hsum⟩ := sums_execute hsums hty hbits hone hframe hparams hlowered
    hfirst.live (hexecuted.same.size.trans hlocals) hheld (Int.ModEq.refl n) hsupplied
  refine ⟨c', z, hexecuted.append hexecutes, hz, hsum, fun z' hz' hsum' => ?_⟩
  exact hz'.eq_of_modEq hbits hone hz.canonical (hsum'.trans hsum.symm)

end FunctionContext

end Lowering

open Lowering (DataImage Frame FunctionContext Layouts lowerFunction)

/-- An expression of a type of 8, 16, 32 or 64 bits, wherever it is compiled, is read as a sum and comes to
code operand by operand, with an instruction for each operator. However the function goes on and whatever it
is lowered with, the code that these instructions get has no trap of its own: as long as each operand leaves
a number of the width in its local, or is a constant, sign-extended, the sum is in the end the one number of
the width that is congruent to the exact sum from left to right. -/
theorem sums_wrap (name : String) (units : List SourceUnit) (unit : SourceUnit) (ctx : BodyContext)
    (scope : Scope Value) (e : Emission)
    (hmet : Project.Compiling ((Project.start name).run units) unit ctx scope e) (expected : Ty)
    (hinteger : expected.isInteger = true) (c : Cursor) (value : Value) (s : BodyState)
    (hcompiled : ctx.compileExpression scope expected ⟨e, c⟩ = .ok value s) :
    ∃ first steps stop, Scan.expression c = .ok (.mk first steps stop) s.cursor ∧
    ∃ bits ∈ [8, 16, 32, 64], expected.irType = .int bits ∧
    ∃ (w : Site) (insts operand : List Inst) (left : Value) (addends : List Addend),
      w.Open ∧ e.builder = w.builder insts ∧
      s.builder = w.builder (insts ++ (operand ++ addends.flatMap Addend.insts)) ∧
      ctx.Emitted w scope expected insts first left operand ∧
      ctx.Sums w scope expected (insts ++ operand) left steps addends value ∧
      ∀ (f : IR.Function) (layouts : Layouts) (data : DataImage) (code : Wasm.Function),
        f.params = w.function.params →
        insts ++ (operand ++ addends.flatMap Addend.insts) <+: f.insts →
        lowerFunction layouts data f = .ok code →
        ∃ frame, Frame.ofFunction layouts f = .ok frame ∧
          FunctionContext.Contains ⟨layouts, data, frame⟩ code.body
            (operand ++ addends.flatMap Addend.insts) ∧
          FunctionContext.Wraps ⟨layouts, data, frame⟩ bits (code.params.length + code.locals.length)
            operand left steps addends value := by
  obtain ⟨builder, log⟩ := e
  obtain ⟨w, insts, rfl, hctx, hscope, _⟩ := hmet.placed ((Project.current_start name).run units)
  obtain ⟨⟨first, steps, stop⟩, hread, hemitted⟩ := (ctx.follows_compileExpression expected c).ok_iff.mp hcompiled
  obtain ⟨bits, hbits, hone, hty⟩ := Ty.irType_of_isInteger hinteger
  have hvalued : expected.isVoid = false := Ty.valued_of_isInteger hinteger
  obtain ⟨_, log', hmade, operand, left, addends, hfirst, hsums, rfl⟩ :=
    BodyContext.emits_sum hctx hscope hvalued first steps stop log value _ hemitted
  refine ⟨first, steps, stop, hread, bits, by simpa [widths, hone] using hbits, hty, w, insts, operand, left,
    addends, hctx.fits.opened, rfl, congrArg Emission.builder hmade, hfirst, hsums, ?_⟩
  intro f layouts data code hparams hprefix hlowered
  obtain ⟨behind, hbehind⟩ := hprefix
  obtain ⟨frame, codes, hframe, hcodes, rfl⟩ := Lowering.codes_of_lowerFunction hlowered
  rw [← hbehind] at hcodes
  obtain ⟨sofar, later, hsofar, _, rfl⟩ := Except.mapM_append_ok hcodes
  obtain ⟨ahead, codes, _, hsum, rfl⟩ := Except.mapM_append_ok hsofar
  refine ⟨frame, hframe, ⟨FunctionContext.prologue ⟨layouts, data, frame⟩ ++ ahead.flatten, codes,
    later.flatten, hsum, ?_⟩, ?_⟩
  · simp only [List.flatten_append, List.append_assoc]
  · rw [List.length_map]
    exact FunctionContext.wraps hfirst hsums hty hbits hone (Lowering.Frame.numbered_of_ofFunction hframe)
      hparams hsum

/-- A function that adds two numbers and takes a third away. -/
def wrapping : SourceUnit where
  name := "u"
  bytes := "f: (a: Int8, b: Int8) -> Int8 = \x7b\n  return a + b - 3\n\x7d\n".toList.map Char.toUInt8

/-- What it returns, where it is written. -/
def wrappingSum : Cursor := .start ("a + b - 3\n".toList.map Char.toUInt8)

/-- The instructions of that. -/
def wrappingInsts : List Inst :=
  [⟨0, .int 8, .add ⟨.param 0, .int 8⟩ ⟨.param 1, .int 8⟩⟩,
    ⟨1, .int 8, .sub ⟨.inst 0, .int 8⟩ ⟨.const (.int 3), .int 8⟩⟩]

set_option synthInstance.maxSize 512 in
/-- Two numbers whose sum is none of their width are added, and the difference is again none. -/
theorem sums_wrap_wrapping :
    ∃ m f layouts data frame code, (buildModule [wrapping] {}).result = .ok m ∧ f ∈ m.functions ∧
      Layouts.ofStructs m.structs = .ok layouts ∧ DataImage.ofModule layouts m = .ok data ∧
      Frame.ofFunction layouts f = .ok frame ∧ lowerFunction layouts data f = .ok code ∧
      FunctionContext.Contains ⟨layouts, data, frame⟩ code.body wrappingInsts ∧
      ∀ engine invoke s, ∃ c', FunctionContext.Executes ⟨layouts, data, frame⟩ engine invoke wrappingInsts
        ⟨s, [.i32 100, .i32 100, .i32 0, .i32 0], []⟩ c' ∧
        FunctionContext.Holds ⟨layouts, data, frame⟩ 8 c' ⟨.inst 1, .int 8⟩ (-59) := by
  obtain ⟨pending, s, hdeclared, hnames, body, hbody, value, s', hrun, hvalue, hfound⟩ :
    ∃ pending s, Declare.declareAll (((Project.start "m").run []).opening wrapping) = .ok pending s ∧
      s.pending.names = [.function "f"] ∧
      ∃ body, s.declarations.pendingBody? (.function "f") = some body ∧
      ∃ value s', (do
          let parameters ← Compile.emit fun _ =>
            BodyContext.bindParameters body.function 0 .root body.parameters
          BodyContext.compileExpression ⟨s.declarations.withoutResume (.function "f"), body.name, body.result⟩
            parameters.push (.primitive .int8))
        ⟨BodyContext.opened body s.begun, wrappingSum⟩ = .ok value s' ∧
      value = ⟨.inst 1, .int 8⟩ ∧
      s'.builder.currentFunction?.map (fun g => (g.params, g.insts)) = some ([.int 8, .int 8], wrappingInsts) := by
    decide +kernel
  obtain ⟨m, hm, f, hf, hfparams, hfinsts, layouts, hlayouts, data, hdata, code, hcode, hlocals⟩ :
    ∃ m, (buildModule [wrapping] {}).result = .ok m ∧
      ∃ f, m.functions[0]? = some f ∧ f.params = [.int 8, .int 8] ∧
      f.insts = wrappingInsts ++ [⟨2, .void, .ret (some ⟨.inst 1, .int 8⟩)⟩] ∧
      ∃ layouts, Layouts.ofStructs m.structs = .ok layouts ∧
      ∃ data, DataImage.ofModule layouts m = .ok data ∧
      ∃ code, lowerFunction layouts data f = .ok code ∧ code.params.length + code.locals.length = 4 := by
    decide +kernel
  obtain ⟨parameters, ⟨e, c⟩, hbound, hcompiled⟩ := bind_ok hrun
  obtain ⟨hbind, rfl⟩ := Compile.emit_ok hbound
  have hdeclares : Project.Declares ((Project.start "m").run []) wrapping s := .inr ⟨pending, hdeclared⟩
  have hfirst : [].forM (Declare.compileNext wrapping.bytes) { s with log := s.begun.log }
      = .ok () { s with log := s.begun.log } := rfl
  have hmet := Project.Compiling.entered hdeclares (hnames.trans (List.nil_append _).symm) hfirst hbody hbind
  obtain ⟨first, steps, stop, hread', bits, _, hty, w, insts, operand, left, addends, hopen, _, hbuilder, _, hsums,
    hwraps⟩ := sums_wrap "m" [] wrapping _ _ e hmet (.primitive .int8) rfl wrappingSum value s' hcompiled
  obtain ⟨c, hread⟩ : ∃ c, Scan.expression wrappingSum
      = .ok (.mk (.word "a" 1) [.mk .add 3 (.word "b" 5), .mk .sub 7 (.word "3" 9)] 9) c := ⟨_, rfl⟩
  cases hread.symm.trans hread'
  cases hty
  rw [hbuilder, Site.currentFunction? hopen] at hfound
  obtain ⟨hparams, hinsts⟩ := Prod.mk.inj (Option.some.inj hfound)
  -- There are no more instructions than operators, so the operands take none.
  obtain _ | @⟨_, operand₁, _, right₁, _, _, _, _, _, _, _, hsums⟩ := hsums
  obtain _ | @⟨_, operand₂, _, right₂, _, _, _, _, _, _, _, ⟨⟩⟩ := hsums
  simp only [IR.Function.insts, Site.withBody, List.flatMap_cons, List.flatMap_nil, List.append_nil,
    Addend.insts] at hinsts
  have hlength := congrArg List.length hinsts
  simp only [List.length_append, List.length_cons, List.length_nil, wrappingInsts] at hlength
  obtain rfl : insts = [] := List.length_eq_zero_iff.mp (by omega)
  obtain rfl : operand = [] := List.length_eq_zero_iff.mp (by omega)
  obtain rfl : operand₁ = [] := List.length_eq_zero_iff.mp (by omega)
  obtain rfl : operand₂ = [] := List.length_eq_zero_iff.mp (by omega)
  simp only [List.nil_append, List.cons_append] at hinsts
  cases hinsts
  obtain ⟨frame, hframe, hcontains, hwraps⟩ := hwraps f layouts data code (hfparams.trans hparams.symm)
    ⟨_, hfinsts.symm⟩ hcode
  refine ⟨m, f, layouts, data, frame, code, hm, List.mem_of_getElem? hf, hlayouts, hdata, hframe, hcode,
    hcontains, fun engine invoke s => ?_⟩
  have hhundred : ∀ i ∈ [0, 1], FunctionContext.Holds ⟨layouts, data, frame⟩ 8
      ⟨s, [.i32 100, .i32 100, .i32 0, .i32 0], []⟩ ⟨.param i, .int 8⟩ 100 := by
    intro i hi
    refine ⟨by unfold Canonical; decide, [.localGet i], .i32 100, rfl, fun _ _ _ _ => .localGet ?_, rfl, by decide⟩
    obtain rfl | rfl : i = 0 ∨ i = 1 := by simpa using hi
    all_goals rfl
  have hthree : ∀ c, FunctionContext.Holds ⟨layouts, data, frame⟩ 8 c ⟨.const (.int 3), .int 8⟩ 3 :=
    fun _ => ⟨by unfold Canonical; decide, [.i32Const 3], .i32 3, rfl, fun _ _ _ _ => .i32Const, rfl, by decide⟩
  obtain ⟨c', z, hexecutes, hz, hsum, hunique⟩ := hwraps engine invoke
    ⟨s, [.i32 100, .i32 100, .i32 0, .i32 0], []⟩ _ 100 [100, 3] hlocals.symm .nil (hhundred 0 (by simp))
    (.cons .nil (hhundred 1 (by simp)) fun c _ => .cons .nil (hthree c) fun _ _ => .nil)
  obtain rfl := hunique (-59) (by unfold Canonical; decide) (by decide)
  exact ⟨c', hexecutes, hz⟩

end Straightline
