import Straightline.Proofs.Emission.Constants
import Straightline.Proofs.Units.Types

/-!
# The two readers of constants agree

The contents of a global are read by a reader that knows the types and nothing else; the terms of a body are
compiled in a scope and among globals and functions. Wherever a unit can have its bodies
compiled (`Project.Compiling`), the two find the same constants at the same places, if the type expected is
passed by value, and a constant that a body reaches adds no instruction to it (`Project.constants_agree`).
-/

set_option autoImplicit false

namespace Straightline

open IR (Site Inst)

namespace Project

/-- The declarations of `unit` were taken, some or all, and `s` is what there is then. -/
def Declares (p : Project) (unit : SourceUnit) (s : Declaring) : Prop :=
  Declare.Rounds (p.opening unit) s ∨ ∃ pending, Declare.declareAll (p.opening unit) = .ok pending s

/-- With the declarations of `unit`, terms of a body can be met in this scope after what was made so far:
some of the bodies were compiled, the parameters of the next were bound, and statements of it have changed
the scope since. Bodies are compiled when all declarations were taken; what could be met after some of them is
counted in. -/
inductive Compiling (p : Project) (unit : SourceUnit) :
    BodyContext → Scope IR.Value → Emission → Prop
  | entered {s s₁ : Declaring} {before after : List CallableName} {name : CallableName} {body : PendingBody}
      {parameters : Scope IR.Value} {e : Emission} (declared : p.Declares unit s)
      (names : s.pending.names = before ++ name :: after)
      (compiled : before.forM (Declare.compileNext unit.bytes) { s with log := s.begun.log } = .ok () s₁)
      (next : s₁.declarations.pendingBody? name = some body)
      (bound : BodyContext.bindParameters body.function 0 .root body.parameters
        (BodyContext.opened body s₁.made) = .ok parameters e) :
      Compiling p unit ⟨s₁.declarations.withoutResume name, body.name, body.result⟩ parameters.push e
  /-- A statement may be any, also one that the unit does not have. -/
  | statement {ctx : BodyContext} {scope scope' : Scope IR.Value} {e : Emission} {c : Cursor} {s : BodyState}
      (met : Compiling p unit ctx scope e)
      (compiled : ctx.compileStatement scope ⟨e, c⟩ = .ok (some scope') s) :
      Compiling p unit ctx scope' s.toEmission
  /-- Within a statement instructions are added before its terms are met. -/
  | instruction {ctx : BodyContext} {scope : Scope IR.Value} {e : Emission} {ty : IRType} {op : IR.Op}
      {log : List Event} (met : Compiling p unit ctx scope e) :
      Compiling p unit ctx scope ⟨(IR.Build.emit ty op e.builder).2, log⟩

variable {p : Project} {unit : SourceUnit} {ctx : BodyContext} {scope : Scope IR.Value} {e : Emission}

theorem Current.declares {s : Declaring} (h : p.Current) (hs : p.Declares unit s) : s.Current :=
  hs.elim (fun hrounds => hrounds.invariant (p.listed_opening unit) Declaring.Current.step (h.opening unit))
    fun ⟨_, hdeclare⟩ => h.declareAll hdeclare

theorem Declares.listed {s : Declaring} (hs : p.Declares unit s) : s.Listed := by
  obtain hrounds | ⟨pending, hdeclare⟩ := hs
  · exact hrounds.listed (p.listed_opening unit)
  · exact Declare.declareAll_listed hdeclare

theorem Declares.resumable {s : Declaring} (hs : p.Declares unit s) :
    ∀ body ∈ s.bodies, ∃ c, Scan.skipBlock (.seek unit.bytes body.resume) = .ok () c := by
  obtain hrounds | ⟨pending, hdeclare⟩ := hs
  · exact (hrounds.invariant (p.listed_opening unit) Declare.Resumable.step (.opening p unit)).bodies
  · exact Declare.declareAll_resumable hdeclare

/-- The bodies before one that is compiled were compiled as trees. -/
theorem Declares.compiled {s s₁ : Declaring} {before after : List CallableName} {name : CallableName}
    {body : PendingBody} (hs : p.Declares unit s) (names : s.pending.names = before ++ name :: after)
    (compiled : before.forM (Declare.compileNext unit.bytes) { s with log := s.begun.log } = .ok () s₁)
    (next : s₁.declarations.pendingBody? name = some body) :
    s.bodies = before.filterMap s.declarations.pendingBody? ++ body :: after.filterMap s.declarations.pendingBody? ∧
      (before.filterMap s.declarations.pendingBody?).forM (BodyContext.emitPending s.declarations unit.bytes)
        s.begun = .ok () s₁.made ∧
      s₁.declarations.settled = s.declarations.settled := by
  have hdistinct := hs.listed.distinct
  rw [names] at hdistinct
  have hends := Declare.ends_forM unit.bytes (s := { s with log := s.begun.log })
    (List.nodup_append.mp hdistinct).1 fun other hother => by
      have hmem : other ∈ s.pending.names := names ▸ List.mem_append_left _ hother
      obtain ⟨body, hbody⟩ := Option.isSome_iff_exists.mp (hs.listed.found other hmem)
      obtain ⟨c, hskip⟩ := hs.resumable body (List.mem_filterMap.mpr ⟨other, hmem, hbody⟩)
      obtain ⟨block, hblock⟩ := BodyContext.skipBlock_ok hskip
      exact ⟨body, hbody, block, c, hblock⟩
  rw [compiled] at hends
  change Declare.Ends _ before ((before.filterMap s.declarations.pendingBody?).forM
    (BodyContext.emitPending s.declarations unit.bytes) s.begun) _ at hends
  generalize hemit : (before.filterMap s.declarations.pendingBody?).forM
    (BodyContext.emitPending s.declarations unit.bytes) s.begun = emitted at hends
  cases hends with
  | ok made c =>
    have hname : s.declarations.pendingBody? name = some body := by
      have hfound := (s.declarations.pendingBody?_withoutResumes before name).symm.trans next
      split at hfound
      · cases hfound
      · exact hfound
    refine ⟨?_, rfl, s.declarations.settled_withoutResumes before⟩
    rw [Declaring.bodies, names, List.filterMap_append, List.filterMap_cons_some hname]

/-- In a project whose tables agree with its module, a function is open wherever a body is compiled, and what
is in scope may be used there and is no constant. -/
theorem Compiling.placed (h : Compiling p unit ctx scope e) (hcurrent : p.Current) :
    ∃ (w : Site) (insts : List Inst), e.builder = w.builder insts ∧ ctx.Placed w ∧
      scope.Placed w ctx.declarations.types insts ∧ scope.Varies := by
  induction h with
  | @entered s s₁ before after name body parameters e declared names compiled next bound =>
    obtain ⟨hbodies, hemitted, hsettled⟩ := declared.compiled names compiled next
    have hsettled' := (s₁.declarations.settled_withoutResume name).trans hsettled
    -- The bodies before are complete and this one is awaited, so its function has no instructions yet.
    have hcorresponds := (hcurrent.declares declared).corresponding
    unfold Declaring.Corresponding at hcorresponds
    rw [hbodies] at hcorresponds
    have hrest := BodyContext.emitPendings_corresponds hcorresponds hemitted
    obtain ⟨f, hopen, hparams, hret⟩ := hrest.awaits.site
    have hready := hrest.awaits.ready body List.mem_cons_self
    have hvaries := BodyContext.varies_bindParameters .root _ _ _ bound
    rw [BodyContext.opened_eq hopen] at bound
    have hctx : BodyContext.Placed ⟨s₁.declarations.withoutResume name, body.name, body.result⟩
        ⟨s₁.made.builder, body.function, f⟩ :=
      ⟨⟨hopen, hrest.awaits.declarations.of_settled hsettled', hret⟩, hrest.matching.of_settled hsettled'⟩
    obtain ⟨more, log, rfl, hleaves⟩ := BodyContext.scoped_bindParameters hctx 0 body.parameters
      (fun i p hp => by
        rw [hparams, Nat.zero_add, List.getElem?_map, hp]
        rfl)
      (Declarations.types_of_settled hsettled' ▸ hready.parameters) .root _ _ _ bound
    exact ⟨_, _, rfl, hctx, hleaves.scope.push, hvaries.push⟩
  | @statement ctx scope scope' e c s met compiled ih =>
    obtain ⟨builder, log⟩ := e
    obtain ⟨w, insts, rfl, hctx, hscope, hvaries⟩ := ih
    obtain ⟨statement, _, emitted⟩ := BodyContext.compileStatement_ok compiled
    have hvaries' := BodyContext.varies_emitStatement hvaries statement _ _ _ emitted scope' rfl
    obtain ⟨more, log', hs, hleaves⟩ :=
      BodyContext.scoped_emitStatement hctx hscope statement _ _ _ emitted
    exact ⟨w, _, congrArg Emission.builder hs, hctx, hleaves.scope, hvaries'⟩
  | @instruction ctx scope e ty op log met ih =>
    obtain ⟨w, insts, hbuilder, hctx, hscope, hvaries⟩ := ih
    -- Of the instructions so far nothing is asked, so any may be added.
    have hpushed : (IR.Build.emit ty op (w.builder insts)).2 = w.pushed insts ty op :=
      congrArg Prod.snd (Site.emit hctx.fits.opened ty op)
    rw [← hbuilder] at hpushed
    exact ⟨w, _, hpushed, hctx, hscope.later _, hvaries⟩

/-- What is in scope fits. -/
theorem Compiling.site (h : Compiling p unit ctx scope e) (hcurrent : p.Current) :
    ∃ (w : Site) (insts : List Inst), e.builder = w.builder insts ∧ ctx.Fits w ∧
      scope.Fits ctx.declarations.types ∧ scope.Varies := by
  obtain ⟨w, insts, hbuilder, hctx, hscope, hvaries⟩ := h.placed hcurrent
  exact ⟨w, insts, hbuilder, hctx.fits, hscope.fits, hvaries⟩

/-- In whatever project and wherever in the body of a function, a type that is passed by value has the same
constants as contents of a global and as values of terms, at every place of every source: both readers
succeed with the same constant up to the same place, or neither does. A term that comes to a constant adds
no instruction. -/
theorem constants_agree (name : String) (units : List SourceUnit) (unit : SourceUnit) (ctx : BodyContext)
    (scope : Scope IR.Value) (e : Emission)
    (hmet : Compiling ((start name).run units) unit ctx scope e) (expected : Ty)
    (hpassing : expected.passing = .byValue) (source : List UInt8) (offset : Nat) :
    (∀ v c', Scan.constant ctx.declarations.types expected (.seek source offset) = .ok v c' ↔
      ∃ value s, ctx.compileTerm scope expected ⟨e, .seek source offset⟩ = .ok value s ∧ s.cursor = c' ∧
        value.constant? = some v) ∧
    ∀ value s v, ctx.compileTerm scope expected ⟨e, .seek source offset⟩ = .ok value s →
      value.constant? = some v → value.ty = expected.irType ∧ s.toEmission = e := by
  obtain ⟨builder, log⟩ := e
  obtain ⟨w, insts, rfl, hctx, hscope, hvaries⟩ := hmet.site ((current_start name).run units)
  have hterm : Compile.Follows (.seek source offset) Scan.term (ctx.emitTerm scope expected)
      (ctx.compileTerm scope expected) := ctx.follows_compileTerm expected _
  refine ⟨fun v c' => ?_, fun value s v h hvalue => ?_⟩
  · rw [Scan.constant_iff hpassing]
    constructor
    · rintro ⟨t, ht, hconstant⟩
      obtain ⟨h, hvalue⟩ :=
        (BodyContext.emitTerm_constant_iff hctx hscope hvaries).mpr ⟨hconstant, rfl, rfl⟩
      exact ⟨_, ⟨_, c'⟩, hterm.ok_iff.mpr ⟨t, ht, h⟩, rfl, hvalue⟩
    · rintro ⟨value, s, h, rfl, hvalue⟩
      obtain ⟨t, ht, h⟩ := hterm.ok_iff.mp h
      exact ⟨t, ht, ((BodyContext.emitTerm_constant_iff hctx hscope hvaries).mp ⟨h, hvalue⟩).1⟩
  · obtain ⟨t, _, h⟩ := hterm.ok_iff.mp h
    obtain ⟨_, rfl, hmade⟩ :=
      (BodyContext.emitTerm_constant_iff hctx hscope hvaries).mp ⟨h, hvalue⟩
    exact ⟨rfl, hmade⟩

/-- Two structs, one a field of the other, and a function with a parameter. -/
def nested : SourceUnit where
  name := "u"
  bytes := ("P: struct = (x: Int32, y: Int32)\nQ: struct = (p: P, z: Bool)\n" ++
    "f: (n: Int32) -> Int32 = \x7b\n  return n\n\x7d\n").toList.map Char.toUInt8

/-- The outer of the two. -/
def outer : Ty :=
  .aggregate "Q" .struct [("p", .aggregate "P" .struct [("x", .primitive .int32), ("y", .primitive .int32)]),
    ("z", .primitive .bool)]

/-- A literal of it as it may stand in either place. -/
def nestedLiteral : List UInt8 := "Q(P(1, y: 2), true)".toList.map Char.toUInt8

/-- A struct within a struct, met behind a variable of its function, is a constant that needs no
instruction. -/
theorem constants_agree_nested :
    ∃ ctx scope e, Compiling ((start "m").run []) nested ctx scope e ∧ outer.passing = .byValue ∧
      ∃ value s, ctx.compileTerm scope outer ⟨e, .seek nestedLiteral 0⟩ = .ok value s ∧
        value.constant? = some (.struct [.struct [.int 1, .int 2], .int 1]) ∧ s.toEmission = e := by
  obtain ⟨pending, s, hdeclared, name, hname, body, hbody, parameters, e, hbound, after, s₁, hstatement, scope,
      rfl, v, c', hconstant, rfl⟩ :
    ∃ pending s, Declare.declareAll (((start "m").run []).opening nested) = .ok pending s ∧
      ∃ name, s.pending.names.head? = some name ∧
      ∃ body, s.declarations.pendingBody? name = some body ∧
      ∃ parameters e, BodyContext.bindParameters body.function 0 .root body.parameters
        (BodyContext.opened body s.begun) = .ok parameters e ∧
      ∃ after s₁, BodyContext.compileStatement ⟨s.declarations.withoutResume name, body.name, body.result⟩
        parameters.push ⟨e, .start ("k: Int32 = 1".toList.map Char.toUInt8)⟩ = .ok after s₁ ∧
      ∃ scope, after = some scope ∧
      ∃ v c', Scan.constant s.declarations.types outer (.seek nestedLiteral 0) = .ok v c' ∧
        v = .struct [.struct [.int 1, .int 2], .int 1] := by
    decide +kernel
  obtain ⟨rest, hnames⟩ := List.head?_eq_some_iff.mp hname
  have hfirst : [].forM (Declare.compileNext nested.bytes) { s with log := s.begun.log }
      = .ok () { s with log := s.begun.log } := rfl
  have hdeclares : Project.Declares ((start "m").run []) nested s := .inr ⟨pending, hdeclared⟩
  have hentered := Compiling.entered hdeclares (hnames.trans (List.nil_append _).symm) hfirst hbody hbound
  have hmet := Compiling.statement hentered hstatement
  have hagree := constants_agree "m" [] nested _ scope _ hmet outer rfl nestedLiteral 0
  have htypes : (s.declarations.withoutResume name).types = s.declarations.types :=
    Declarations.types_of_settled (s.declarations.settled_withoutResume name)
  obtain ⟨value, s₂, hvalue, _, hconstant⟩ := (hagree.1 _ _).mp (htypes.symm ▸ hconstant)
  exact ⟨_, scope, _, hmet, rfl, value, s₂, hvalue, hconstant, (hagree.2 _ _ _ hvalue hconstant).2⟩

end Project

end Straightline
