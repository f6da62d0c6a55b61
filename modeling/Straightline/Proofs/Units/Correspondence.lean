import Straightline.Proofs.Declaring.Matching
import Straightline.Proofs.Units.Verified

/-!
# Tables and module correspond

Between units the tables of a project and those of its module list the same things in the same order,
whatever units were accepted or refused before (`Project.tables_match_module`). The first phase enters
a declaration on both sides, the second only gives bodies to functions that the first has put off, and
cutting back after a refusal restores both sides together.
-/

set_option autoImplicit false

namespace Straightline

open IR (Site Inst)

namespace IR

/-- The function has a body of a single block, its entry. -/
def Function.Entered (f : Function) : Prop := ∃ insts, f.blocks = [⟨"entry", insts⟩]

namespace Site

variable {w : Site} {insts : List Inst}

/-- A body changes no header. -/
theorem headers (h : w.Open) : (w.builder insts).module.headers = w.base.module.headers := by
  refine List.ext_getElem? fun i => ?_
  simp only [Module.headers, List.getElem?_map]
  change ((w.builder insts).module.function? i).map _ = (w.base.module.function? i).map _
  by_cases hi : w.id = i
  · subst hi
    rw [function?_self h, h.placed]
    rfl
  · rw [function?_of_ne hi]

end Site

end IR

/-! ## Both phases -/

/-- Tables and module match, and the functions without an entry block are those that await one of the
bodies. -/
structure Declarations.Corresponds (d : Declarations) (b : IR.Builder) (bodies : List PendingBody) :
    Prop where
  awaits : d.Awaits b bodies
  matching : d.Matches b.module
  entered : ∀ id f, b.module.function? id = some f →
    f.Entered ∨ ∃ body ∈ bodies, body.function = id

theorem Declarations.Corresponds.of_settled {d d' : Declarations} {b : IR.Builder} {bodies : List PendingBody}
    (h : d.Corresponds b bodies) (hsettled : d'.settled = d.settled) : d'.Corresponds b bodies :=
  ⟨h.awaits.of_settled hsettled, h.matching.of_settled hsettled, h.entered⟩

namespace Declaring

variable {s s' : Declaring}

/-- Tables and module correspond while the declarations of a unit are taken. -/
abbrev Corresponding (s : Declaring) : Prop :=
  s.declarations.Corresponds s.builder s.bodies

/-- The functions after one more was declared that awaits its body. -/
theorem entered_declared {name : String} {parameters : List (String × Ty)} {result : Ty}
    {resume : Nat} {bodies : List PendingBody} (h : s.Corresponding)
    (hperm : bodies.Perm (s.bodies ++
      [⟨name, s.nextFunction, parameters, result, resume⟩])) :
    ∀ id f, (s.declaredFunction name parameters result).module.function? id = some f →
      f.Entered ∨ ∃ body ∈ bodies, body.function = id := by
  intro id f hf
  obtain ⟨hkept, hnew⟩ := PendingBody.mem_concat hperm
  rcases (Sound.declared s name parameters result).2.2 id f hf with hold | rfl
  · refine (h.entered id f hold).imp_right ?_
    rintro ⟨body, hbody, hid⟩
    exact ⟨body, hkept body hbody, hid⟩
  · exact Or.inr ⟨_, hnew, rfl⟩

theorem Corresponding.step (h : s.Corresponding) (hstep : Declare.Step s s') :
    s'.Corresponding where
  awaits := Sound.step h.awaits hstep
  matching := Matching.step h.matching h.awaits hstep
  entered := by
    cases hstep with
    | type => exact h.entered
    | global => exact h.entered
    | function _ _ hfree _ _ hunlisted => exact entered_declared h (bodies_withFunction hfree hunlisted _ _)
    | method _ _ hfree _ _ hunlisted => exact entered_declared h (bodies_withMethod hfree hunlisted _ _)

/-- No body is found but those that were put off. -/
def Complete (s : Declaring) : Prop :=
  ∀ name body, s.declarations.pendingBody? name = some body → name ∈ s.pending.names

theorem Complete.step (h : s.Complete) (hstep : Declare.Step s s') : s'.Complete := by
  intro name body hbody
  cases hstep with
  | type | global => exact h name body hbody
  | function _ _ hfree =>
    rw [pendingBody?_withFunction hfree] at hbody
    rw [names_withFunction, List.mem_append, List.mem_singleton]
    split at hbody
    · exact .inr ‹_›
    · exact .inl (h name body hbody)
  | method _ _ hfree =>
    rw [pendingBody?_withMethod hfree] at hbody
    rw [names_withMethod.mem_iff, List.mem_append, List.mem_singleton]
    split at hbody
    · exact .inr ‹_›
    · exact .inl (h name body hbody)

end Declaring

namespace BodyContext

variable {d : Declarations} {source : List UInt8}

/-- A body that is accepted becomes the entry block of its function, and nothing else changes. -/
theorem emitPending_corresponds {body : PendingBody} {rest : List PendingBody} {s s' : Emission}
    (h : d.Corresponds s.builder (body :: rest))
    (hs : emitPending d source body s = .ok () s') : d.Corresponds s'.builder rest := by
  have hawaits := emitPending_awaits h.awaits hs
  obtain ⟨w, hbase, hopen, hid, hparams, hret, hemits⟩ := emitPending_ok h.awaits hs
  rw [← hbase] at h
  obtain ⟨more, hbuilder, _⟩ := hemits _ (typed_emitOpened hopen hid h.awaits.declarations hparams
    hret (h.awaits.ready body List.mem_cons_self).parameters)
  refine ⟨hawaits, ?_, ?_⟩ <;> rw [hbuilder]
  · exact h.matching.of_headers rfl rfl (Site.headers hopen)
  · intro id f hf
    by_cases hself : w.id = id
    · subst hself
      rw [Site.function?_self hopen] at hf
      cases hf
      exact Or.inl ⟨more, rfl⟩
    · rw [Site.function?_of_ne hself] at hf
      refine (h.entered id f hf).imp_right ?_
      rintro ⟨other, hother, rfl⟩
      rcases List.mem_cons.mp hother with rfl | hother
      · exact absurd hid hself
      · exact ⟨other, hother, rfl⟩

/-- After some of the bodies the others are awaited. -/
theorem emitPendings_corresponds {bodies rest : List PendingBody} {s s' : Emission}
    (h : d.Corresponds s.builder (bodies ++ rest))
    (hs : bodies.forM (emitPending d source) s = .ok () s') : d.Corresponds s'.builder rest :=
  forM_ok (P := fun s bodies => d.Corresponds s.builder bodies) (fun _ _ _ _ => emitPending_corresponds) h hs

end BodyContext

/-! ## Projects -/

/-- Tables and module correspond, and no body is awaited. -/
def Project.Corresponds (p : Project) : Prop := p.declarations.Corresponds p.builder []

namespace Project

variable {p q : Project}

theorem corresponds_start (name : String) : (start name).Corresponds where
  awaits := sound_start name
  matching :=
    { structs := rfl
      types := by simp [start, SymbolTable.empty]
      typeNames := by simp [start, SymbolTable.empty, SymbolTable.names]
      globals := rfl
      addresses := by simp [start, SymbolTable.empty]
      functions := by simp [start, SymbolTable.empty]
      methods := by simp [start, SymbolTable.empty]
      handles := .refl _
      keys := by simp [start, SymbolTable.empty, SymbolTable.names, Declarations.keys]
      undotted := by simp [start, SymbolTable.empty, SymbolTable.names] }
  entered := by simp [start, IR.Builder.start, IR.Module.function?]

theorem Corresponds.of_sameTables (h : p.Corresponds) (hsame : p.SameTables q) :
    q.Corresponds where
  awaits := Sound.of_sameTables h.awaits hsame
  matching := hsame.declarations ▸ hsame.module ▸ h.matching
  entered := hsame.module ▸ h.entered

/-- After the first phase the bodies that were put off are awaited. -/
theorem Corresponds.declareAll {unit : SourceUnit} {pending : Pending} {s : Declaring}
    (h : p.Corresponds) (hs : Declare.declareAll (p.opening unit) = .ok pending s) :
    s.declarations.Corresponds s.builder s.bodies := by
  obtain ⟨log, hsteps, rfl⟩ := Declare.declareAll_steps (p.listed_opening unit) hs
  refine hsteps.invariant (P := Declaring.Corresponding) Declaring.Corresponding.step ?_ h
  exact fun ha _ => ⟨ha.awaits, ha.matching, ha.entered⟩

theorem Corresponds.takeUnit {unit : SourceUnit} (h : p.Corresponds)
    (hok : (p.takeUnit unit).result = .ok ()) : (p.takeUnit unit).project.Corresponds := by
  obtain ⟨s, made, hdeclare, hloop, hproject⟩ := takeUnit_ok hok
  rw [hproject]
  have hcorresponds : s.declarations.Corresponds s.builder (s.bodies ++ []) := by
    rw [List.append_nil]
    exact h.declareAll hdeclare
  exact (BodyContext.emitPendings_corresponds hcorresponds hloop).of_settled
    (Declarations.settled_withoutResumes _ _)

theorem Corresponds.run (h : p.Corresponds) (units : List SourceUnit) :
    (p.run units).Corresponds :=
  run_invariant Corresponds.of_sameTables Corresponds.takeUnit h units

theorem Corresponds.entered_of_mem (h : p.Corresponds) {f : IR.Function}
    (hf : f ∈ p.builder.module.functions) : f.Entered := by
  obtain ⟨id, hid⟩ := List.getElem?_of_mem hf
  rcases h.entered id f hid with hentered | ⟨body, hbody, _⟩
  · exact hentered
  · cases hbody

/-! ## Resume offsets -/

/-- No function has a body that is still to be compiled. -/
def Settled (p : Project) : Prop := ∀ name, p.declarations.pendingBody? name = none

theorem settled_start (name : String) : (start name).Settled := by
  intro name
  cases name <;> rfl

theorem Settled.of_sameTables (h : p.Settled) (hsame : p.SameTables q) : q.Settled := by
  rw [Settled, hsame.declarations]
  exact h

theorem Settled.declareAll {unit : SourceUnit} {pending : Pending} {s : Declaring} (h : p.Settled)
    (hs : Declare.declareAll (p.opening unit) = .ok pending s) : s.Complete := by
  obtain ⟨log, hsteps, _⟩ := Declare.declareAll_steps (p.listed_opening unit) hs
  refine hsteps.invariant (P := Declaring.Complete) Declaring.Complete.step (fun ha _ => ha) ?_
  intro name body hbody
  change p.declarations.pendingBody? name = some body at hbody
  rw [h name] at hbody
  cases hbody

/-- Every offset that the first phase has kept is taken by the second. -/
theorem Settled.takeUnit {unit : SourceUnit} (h : p.Settled) (hok : (p.takeUnit unit).result = .ok ()) :
    (p.takeUnit unit).project.Settled := by
  obtain ⟨s, made, hdeclare, _, hproject⟩ := takeUnit_ok hok
  intro name
  rw [hproject, Declarations.pendingBody?_withoutResumes]
  split
  · rfl
  · cases hbody : s.declarations.pendingBody? name with
    | none => rfl
    | some body => exact absurd (h.declareAll hdeclare name body hbody) ‹_›

theorem Settled.run (h : p.Settled) (units : List SourceUnit) : (p.run units).Settled :=
  run_invariant Settled.of_sameTables Settled.takeUnit h units

/-- So no record has an offset left. -/
theorem Settled.resume (h : p.Settled) (hmatches : p.declarations.Matches p.builder.module) :
    (∀ entry ∈ p.declarations.functions.entries, entry.2.resume = none) ∧
    ∀ entry ∈ p.declarations.methods.entries, entry.2.resume = none := by
  have hkeys := List.nodup_append.mp hmatches.keys
  constructor
  · intro entry hentry
    have hfound := SymbolTable.find?_of_mem hkeys.1 hentry
    have hbody := h (.function entry.1)
    cases hresume : entry.2.resume with
    | none => rfl
    | some resume => simp [Declarations.pendingBody?, hfound, hresume] at hbody
  · intro entry hentry
    have hfound := SymbolTable.find?_of_mem hkeys.2.1 hentry
    have hbody := h (.method entry.1)
    cases hresume : entry.2.resume with
    | none => rfl
    | some resume => simp [Declarations.pendingBody?, hfound, hresume] at hbody

/-- The tables say all there is to say. -/
theorem Settled.settled (h : p.Settled) (hmatches : p.declarations.Matches p.builder.module) :
    p.declarations.settled = p.declarations := by
  obtain ⟨hfunctions, hmethods⟩ := h.resume hmatches
  have hfunctions' : p.declarations.settled.functions.entries = p.declarations.functions.entries := by
    refine (List.map_congr_left fun entry hentry => ?_).trans (List.map_id _)
    rw [FunctionRecord.settled, ← hfunctions entry hentry]
    rfl
  have hmethods' : p.declarations.settled.methods.entries = p.declarations.methods.entries := by
    refine (List.map_congr_left fun entry hentry => ?_).trans (List.map_id _)
    rw [MethodRecord.settled, ← hmethods entry hentry]
    rfl
  calc p.declarations.settled
      = { p.declarations with
          functions := ⟨p.declarations.settled.functions.entries⟩
          methods := ⟨p.declarations.settled.methods.entries⟩ } := rfl
    _ = p.declarations := by rw [hfunctions', hmethods']

/-- Tables and module correspond after any units, accepted or refused: the structures are the types and
the globals are the globals, in order; the handles of functions and methods are the numbers of the
functions of the module, each once, and lead to functions of their names and signatures; every function has
one entry block; and no record has a resume offset left.

Where a body resumes is kept for as long as its function has no block, and for no longer. When the first
phase of any further unit is over, the functions without a block are those whose bodies were put off, one
body for each, and it is for these that a record has an offset. -/
theorem tables_match_module (name : String) (units : List SourceUnit) :
    ((start name).run units).declarations.Matches ((start name).run units).builder.module ∧
    (((start name).run units).builder.module.functions.map IR.Function.name).Nodup ∧
    (∀ f ∈ ((start name).run units).builder.module.functions,
      ∃ insts, f.blocks = [⟨"entry", insts⟩]) ∧
    ((∀ entry ∈ ((start name).run units).declarations.functions.entries, entry.2.resume = none) ∧
      ∀ entry ∈ ((start name).run units).declarations.methods.entries, entry.2.resume = none) ∧
    ∀ (unit : SourceUnit) (pending : Pending) (s : Declaring),
      Declare.declareAll (((start name).run units).opening unit) = .ok pending s →
      (∀ key, (s.declarations.pendingBody? key).isSome = true ↔ key ∈ pending.names) ∧
      (s.bodies.map PendingBody.function).Nodup ∧
      ∀ id f, s.builder.module.function? id = some f →
        (f.blocks = [] ↔ ∃ body ∈ s.bodies, body.function = id) := by
  have h := (corresponds_start name).run units
  have hsettled := (settled_start name).run units
  refine ⟨h.matching, h.matching.names_nodup, fun f hf => h.entered_of_mem hf, hsettled.resume h.matching, ?_⟩
  intro unit pending s hs
  have hpending := h.declareAll hs
  obtain ⟨log, _, rfl⟩ := Declare.declareAll_steps (listed_opening _ unit) hs
  refine ⟨fun key => ⟨fun hkey => ?_, (Declare.declareAll_listed hs).found key⟩, hpending.awaits.distinct,
    fun id f hf => ⟨fun hblocks => ?_, ?_⟩⟩
  · obtain ⟨body, hbody⟩ := Option.isSome_iff_exists.mp hkey
    exact hsettled.declareAll hs key body hbody
  · rcases hpending.entered id f hf with ⟨insts, hentered⟩ | hawaited
    · rw [hblocks] at hentered
      cases hentered
    · exact hawaited
  · rintro ⟨body, hbody, rfl⟩
    obtain ⟨f', hf', _, _, hblocks⟩ := (hpending.awaits.ready body hbody).function
    rw [hf] at hf'
    cases hf'
    exact hblocks

end Project

end Straightline
