import Straightline.Proofs.Compiling.Bodies

/-!
# The two passes over a body

While a unit is declared every body is skipped, and where it began is kept. The second phase comes back there
and compiles it as it reads. The two walks go by the same heads, but one keeps nothing and the other looks
names up, checks types and makes instructions on its way; they are compared through the tree that both could
have read (`BodyContext.follows_compileBlock`, `Scan.discard_block`). So they end at the same place, and a
body that was skipped can only be refused for what it means, within the body.
-/

set_option autoImplicit false

namespace Straightline

/-! ## Where bodies resume -/

namespace Declare

/-- The cursor is within `source`, and every body that was put off can be skipped from the offset at
which it resumes. -/
structure Resumable (source : List UInt8) (s : Declaring) : Prop where
  cursor : (Cursor.start source).Reaches s.cursor
  bodies : ∀ body ∈ s.bodies,
    ∃ c, Scan.skipBlock (.seek source body.resume) = .ok () c

variable {source : List UInt8} {s s' : Declaring}

/-- Both sorts of functions are put off in the same way: the place after the opening brace is found
again by its offset. -/
theorem Resumable.body {c₀ c₁ c₂ c₃ : Cursor} {types : SymbolTable Ty} {header : Declaration}
    (hs : Resumable source s) (hreach : s.cursor.Reaches c₀)
    (hheader : Scan.declaration types c₀ = .ok header c₁)
    (hopen : Scan.openBody c₁ = .ok () c₂) (hskip : Scan.skipBlock c₂ = .ok () c₃) :
    (Cursor.start source).Reaches c₃ ∧
      ∃ c, Scan.skipBlock (.seek source c₂.offset) = .ok () c := by
  have hc₁ := hs.cursor.trans (hreach.trans (Scan.advances_declaration types _ _ _ hheader))
  have hc₂ := hc₁.trans (Scan.advances_openBody _ _ _ hopen)
  refine ⟨hc₂.trans (Scan.advances_skipBlock _ _ _ hskip), c₃, ?_⟩
  rw [← hc₂.eq_seek]
  exact hskip

theorem Resumable.step (hs : Resumable source s) (h : Step s s') : Resumable source s' := by
  cases h with
  | type hreach hheader _ _ hdefinition =>
    have hc := hreach.trans (Scan.advances_declaration _ _ _ _ hheader)
    exact ⟨hs.cursor.trans (hc.trans (Scan.advances_typeDefinition _ _ _ _ _ _ hdefinition)),
      hs.bodies⟩
  | global hreach hheader _ hcontents =>
    have hc := hreach.trans (Scan.advances_declaration _ _ _ _ hheader)
    exact ⟨hs.cursor.trans (hc.trans (Scan.advances_contents _ _ _ _ _ hcontents)), hs.bodies⟩
  | function hreach hheader hfree hopen hskip hunlisted =>
    obtain ⟨hcursor, hresume⟩ := hs.body hreach hheader hopen hskip
    exact ⟨hcursor, PendingBody.forall_concat (Declaring.bodies_withFunction hfree hunlisted _ _) hs.bodies hresume⟩
  | method hreach hheader hfree hopen hskip hunlisted =>
    obtain ⟨hcursor, hresume⟩ := hs.body hreach hheader hopen hskip
    exact ⟨hcursor, PendingBody.forall_concat (Declaring.bodies_withMethod hfree hunlisted _ _) hs.bodies hresume⟩

theorem Resumable.opening (p : Project) (unit : SourceUnit) : Resumable unit.bytes (p.opening unit) :=
  ⟨.refl _, by simp [Project.opening, Declaring.bodies, Pending.names]⟩

/-- Every body that the first phase puts off is one that it has skipped. -/
theorem declareAll_resumable {p : Project} {unit : SourceUnit} {pending : Pending}
    {s : Declaring} (h : declareAll (p.opening unit) = .ok pending s) :
    ∀ body ∈ s.bodies, ∃ c, Scan.skipBlock (.seek unit.bytes body.resume) = .ok () c := by
  obtain ⟨log, hsteps, rfl⟩ := declareAll_steps (p.listed_opening unit) h
  have hs : Resumable unit.bytes s :=
    hsteps.invariant Resumable.step (fun ha hreach => ⟨ha.cursor.trans hreach, ha.bodies⟩)
      ⟨(Resumable.opening p unit).cursor, (Resumable.opening p unit).bodies⟩
  exact hs.bodies

end Declare

/-! ## The passes agree -/

namespace BodyContext

variable {ctx : BodyContext} {scope : Scope IR.Value} {source : List UInt8}

/-- Skipping succeeds exactly where a tree is read, and ends where that does. -/
theorem skipBlock_ok {c c' : Cursor} (h : Scan.skipBlock c = .ok () c') :
    ∃ block, Scan.block c = .ok block c' := by
  rw [← Scan.discard_block, discard_eq] at h
  obtain ⟨block, c₁, hblock, h⟩ := bind_ok h
  cases h
  exact ⟨block, hblock⟩

theorem skipBlock_of_ok {block : Block} {c c' : Cursor} (h : Scan.block c = .ok block c') :
    Scan.skipBlock c = .ok () c' := by
  rw [← Scan.discard_block, discard_eq, bind_of_ok h]
  rfl

theorem skipBlock_of_error {fault : Fault} {c c' : Cursor}
    (h : Scan.block c = .error fault c') : Scan.skipBlock c = .error fault c' := by
  rw [← Scan.discard_block, discard_eq, bind_of_error h]

/-- A body that can be skipped is refused for what it means, and between where it begins and where it
ends. -/
theorem emitBlockAt_error {start : Nat} {c : Cursor} {s s' : Emission} {refusal : Refusal}
    (hskip : Scan.skipBlock (.seek source start) = .ok () c)
    (h : ctx.emitBlockAt scope source start s = .error refusal s') :
    refusal.fault.isSemantic = true ∧ (Cursor.seek source start).offset ≤ refusal.offset
      ∧ refusal.offset ≤ c.offset := by
  obtain ⟨block, hblock⟩ := skipBlock_ok hskip
  rw [emitBlockAt, hblock] at h
  obtain ⟨hfault, hoffset⟩ := refuses_emitBlock block _ _ _ h
  exact ⟨hfault, (Scan.spans_block _ _ _ hblock).2 _ hoffset⟩

/-- Making the instructions of bodies refuses nothing but what they mean, if all of them can be skipped. -/
theorem refuses_emitPendings {declarations : Declarations} {bodies : List PendingBody}
    (h : ∀ body ∈ bodies, ∃ c, Scan.skipBlock (.seek source body.resume) = .ok () c) :
    Refuses (bodies.forM (emitPending declarations source))
      fun refusal => refusal.fault.isSemantic = true := by
  refine .forM fun body hbody => ?_
  refine (Emit.refuses_report _).bind fun _ => (Emit.refuses_build _).bind fun _ => ?_
  refine (refuses_bindParameters body.parameters).bind fun scope => ?_
  obtain ⟨c, hskip⟩ := h body hbody
  exact fun _ _ _ he => (emitBlockAt_error hskip he).1

end BodyContext

/-- When the declarations of a unit have been taken, the second phase ends like making the instructions of
the bodies that were put off. -/
theorem Declare.ends_declared {p : Project} {unit : SourceUnit} {pending : Pending} {s : Declaring}
    (h : declareAll (p.opening unit) = .ok pending s) :
    Ends s s.pending.names
      (s.bodies.forM (BodyContext.emitPending s.declarations unit.bytes) s.begun)
      (compileBodies unit.bytes pending s) := by
  obtain ⟨log, _, rfl⟩ := declareAll_steps (p.listed_opening unit) h
  refine ends_compileBodies (declareAll_listed h) fun body hbody => ?_
  obtain ⟨c, hskip⟩ := declareAll_resumable h body hbody
  obtain ⟨block, hblock⟩ := BodyContext.skipBlock_ok hskip
  exact ⟨block, c, hblock⟩

/-- The passes over a body agree. Wherever compiling succeeds, the body can be skipped, and both end at the
same place; where a body can be skipped, compiling it succeeds or refuses it, within the body, for what it
means. So the second phase of a unit never finds a fault of grammar. -/
theorem BodyContext.passes_agree :
    (∀ (ctx : BodyContext) (scope : Scope IR.Value) (source : List UInt8) (start : Nat)
      (made : Emission),
      match ctx.compileBlock scope ⟨made, .seek source start⟩, Scan.skipBlock (.seek source start) with
      | .ok _ s, .ok _ c => s.cursor = c
      | .error fault s, .ok _ c =>
        fault.isSemantic = true ∧ (Cursor.seek source start).offset ≤ s.cursor.offset
          ∧ s.cursor.offset ≤ c.offset
      | .ok _ _, .error _ _ => False
      | .error _ _, .error _ _ => True) ∧
    ∀ (p : Project) (unit : SourceUnit),
      match Declare.declareAll (p.opening unit) with
      | .error _ _ => True
      | .ok pending s =>
        match Declare.compileBodies unit.bytes pending s with
        | .ok _ _ => True
        | .error refusal _ => refusal.fault.isSemantic = true := by
  constructor
  · intro ctx scope source start made
    have hends := ctx.follows_compileBlock scope (.seek source start) made
    generalize ctx.compileBlock scope ⟨made, .seek source start⟩ = compiled at hends ⊢
    generalize hblock : Scan.block (.seek source start) = read at hends
    cases hends with
    | ok emitted =>
      rw [skipBlock_of_ok hblock]
    | refused refused =>
      rw [skipBlock_of_ok hblock]
      obtain ⟨hfault, hoffset⟩ := refuses_emitBlock _ _ _ _ refused
      exact ⟨hfault, (Scan.spans_block _ _ _ hblock).2 _ hoffset⟩
    | unread =>
      rw [skipBlock_of_error hblock]
      trivial
  · intro p unit
    cases hdeclare : Declare.declareAll (p.opening unit) with
    | error refusal s => trivial
    | ok pending s =>
      have hends := Declare.ends_declared hdeclare
      dsimp only
      generalize Declare.compileBodies unit.bytes pending s = compiled at hends ⊢
      generalize hemit : s.bodies.forM (emitPending s.declarations unit.bytes) s.begun = emitted at hends
      cases hends with
      | ok made c => trivial
      | refused refusal made c htaken =>
        exact refuses_emitPendings (Declare.declareAll_resumable hdeclare) _ _ _ hemit

/-- Where a body cannot be skipped, the walks may end apart: of an unknown name and a word behind it that is no
statement, each tells the one that it comes to. -/
example :
    let source := "foo = 1\nbar !\n\x7d".toList.map Char.toUInt8
    let made : Emission := { builder := { module := { name := "main" } } }
    (BodyContext.mk {} "main" (.primitive .void)).compileBlock .root ⟨made, .start source⟩
        = .error (.unknownVariable "foo") ⟨made, .seek source 5⟩ ∧
      Scan.skipBlock (.start source) = .error (.unknownStatement "bar") (.seek source 12) :=
  ⟨rfl, rfl⟩

end Straightline
