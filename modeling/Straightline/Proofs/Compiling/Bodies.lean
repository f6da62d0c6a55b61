import Straightline.Proofs.Compiling.Blocks
import Straightline.Proofs.Declaring.Steps
import Straightline.Proofs.Emission.Renumbering

/-!
# The second phase is a loop over bodies

The second phase goes through names, finds the body that each of them still has, takes it out of its record
and compiles it where it stands. Since every name that was put off has a body and no name comes twice, none
is passed over; since what is taken out of the records is not asked for by anything that is compiled, it
makes no difference to the bodies after it. So the phase ends like making the instructions of the bodies one
after the other (`Declare.ends_compileBodies`), if all of them can be read.
-/

set_option autoImplicit false

namespace Straightline

namespace Declaring

/-- What has been made when the first body of a unit is compiled. -/
def begun (s : Declaring) : Emission where
  builder := s.builder
  log := s.log ++ [.bodiesStarted s.pending.methods.length s.pending.functions.length]

/-- What has been made by the declarations. -/
def made (s : Declaring) : Emission := ⟨s.builder, s.log⟩

/-- The state when the bodies of `names` have been taken, of which `made` was made. -/
def after (s : Declaring) (names : List CallableName) (made : Emission) (cursor : Cursor) : Declaring :=
  { s with
    cursor
    declarations := s.declarations.withoutResumes names
    builder := made.builder
    log := made.log }

end Declaring

namespace Declare

/-- How compiling the bodies of `names` ends, if making their instructions ends like this. Where a body is
refused, those after it have not been taken. -/
inductive Ends (s : Declaring) (names : List CallableName) :
    EStateM.Result Refusal Emission Unit → EStateM.Result Refusal Declaring Unit → Prop where
  | ok (made : Emission) (c : Cursor) : Ends s names (.ok () made) (.ok () (s.after names made c))
  | refused (refusal : Refusal) (made : Emission) (c : Cursor) {taken : List CallableName}
      (htaken : taken <+: names) : Ends s names (.error refusal made) (.error refusal (s.after taken made c))

variable {source : List UInt8} {s : Declaring} {name : CallableName} {body : PendingBody}

/-- A body is compiled as its tree is, from its parameters on. -/
theorem follows_compileBody (declarations : Declarations) (body : PendingBody) (c : Cursor) :
    Compile.Follows c Scan.block (fun block => do
        Emit.build (IR.Build.openEntry body.function)
        let parameters ← BodyContext.bindParameters body.function 0 .root body.parameters
        BodyContext.emitBlock ⟨declarations, body.name, body.result⟩ parameters.push block)
      (declarations.compileBody body) := by
  refine .step (Compile.placed_of_never (Emit.refuses_build _)) fun _ => ?_
  refine .step (Compile.placed_of_never (BodyContext.refuses_bindParameters _)) fun parameters => ?_
  exact BodyContext.follows_compileBlock parameters.push c

/-- A body that is still in its record is taken out and compiled. -/
theorem ends_compileNext (hbody : s.declarations.pendingBody? name = some body)
    (hread : ∃ block c, Scan.block (.seek source body.resume) = .ok block c) :
    Ends s [name] (BodyContext.emitPending s.declarations source body s.made) (compileNext source name s) := by
  obtain ⟨block, c, hblock⟩ := hread
  have hemit : BodyContext.emitPending s.declarations source body s.made = (do
      Emit.build (IR.Build.openEntry body.function)
      let parameters ← BodyContext.bindParameters body.function 0 .root body.parameters
      BodyContext.emitBlock ⟨s.declarations.withoutResume name, body.name, body.result⟩ parameters.push block)
        ⟨s.builder, s.log ++ [Event.bodyStarted body.name body.resume]⟩ := by
    rw [← BodyContext.emitPending_of_settled (s.declarations.settled_withoutResume name)]
    simp only [BodyContext.emitPending, BodyContext.emitOpened, BodyContext.emitBlockAt, hblock]
    rfl
  have hcompile : compileNext source name s
      = compile ((s.declarations.withoutResume name).compileBody body)
        { s with
          cursor := .seek source body.resume
          declarations := s.declarations.withoutResume name
          log := s.log ++ [.bodyStarted body.name body.resume] } := by
    have htaken : takeBody name s
        = .ok (some body) { s with declarations := s.declarations.withoutResume name } := by
      simp only [takeBody, hbody]
    exact bind_of_ok htaken
  have hends := follows_compileBody (s.declarations.withoutResume name) body (.seek source body.resume)
    ⟨s.builder, s.log ++ [.bodyStarted body.name body.resume]⟩
  rw [hemit, hcompile]
  unfold compile
  generalize (s.declarations.withoutResume name).compileBody body _ = ended at hends ⊢
  rw [hblock] at hends
  cases hends with
  | ok emitted =>
    rw [emitted]
    exact .ok _ _
  | refused refused =>
    rw [refused]
    exact .refused _ _ _ List.prefix_rfl

/-- The first body was compiled before the others. -/
theorem Ends.after {names : List CallableName} {made : Emission} {c : Cursor}
    {r : EStateM.Result Refusal Emission Unit} {r' : EStateM.Result Refusal Declaring Unit}
    (h : Ends (s.after [name] made c) names r r') : Ends s (name :: names) r r' := by
  cases h with
  | ok made' c' => exact .ok made' c'
  | refused refusal made' c' htaken =>
    exact .refused refusal made' c' (List.cons_prefix_cons.mpr ⟨rfl, htaken⟩)

/-- The bodies of several names are compiled one after the other. -/
theorem ends_forM (source : List UInt8) {names : List CallableName} (distinct : names.Nodup)
    (hnames : ∀ name ∈ names, ∃ body, s.declarations.pendingBody? name = some body ∧
      ∃ block c, Scan.block (.seek source body.resume) = .ok block c) :
    Ends s names
      ((names.filterMap s.declarations.pendingBody?).forM (BodyContext.emitPending s.declarations source) s.made)
      (names.forM (compileNext source) s) := by
  induction names generalizing s with
  | nil => exact .ok _ _
  | cons name rest ih =>
    obtain ⟨body, hbody, hread⟩ := hnames name List.mem_cons_self
    obtain ⟨hname, hdistinct⟩ := List.nodup_cons.mp distinct
    have hfirst := ends_compileNext hbody hread
    rw [List.filterMap_cons_some hbody]
    change Ends s (name :: rest)
      ((BodyContext.emitPending s.declarations source body >>= fun _ =>
        (rest.filterMap s.declarations.pendingBody?).forM (BodyContext.emitPending s.declarations source)) s.made)
      ((compileNext source name >>= fun _ => rest.forM (compileNext source)) s)
    generalize hemit : BodyContext.emitPending s.declarations source body s.made = emitted at hfirst
    generalize hcompile : compileNext source name s = compiled at hfirst
    cases hfirst with
    | refused refusal made c htaken =>
      rw [bind_of_error hemit, bind_of_error hcompile]
      exact .refused _ _ _ (htaken.trans (List.cons_prefix_cons.mpr ⟨rfl, List.nil_prefix⟩))
    | ok made c =>
      rw [bind_of_ok hemit, bind_of_ok hcompile]
      have hothers : ∀ other ∈ rest,
          (s.after [name] made c).declarations.pendingBody? other = s.declarations.pendingBody? other :=
        fun other hother => s.declarations.pendingBody?_withoutResume_of_ne fun he => hname (he ▸ hother)
      have hsettled : (s.after [name] made c).declarations.settled = s.declarations.settled :=
        s.declarations.settled_withoutResume name
      have hrest := ih (s := s.after [name] made c) hdistinct fun other hother => by
        rw [hothers other hother]
        exact hnames other (List.mem_cons_of_mem _ hother)
      rw [List.filterMap_congr hothers,
        funext (BodyContext.emitPending_of_settled hsettled source)] at hrest
      exact hrest.after

/-- The second phase ends like making the instructions of the bodies, one after the other. -/
theorem ends_compileBodies (hs : s.Listed)
    (hread : ∀ body ∈ s.bodies, ∃ block c, Scan.block (.seek source body.resume) = .ok block c) :
    Ends s s.pending.names (s.bodies.forM (BodyContext.emitPending s.declarations source) s.begun)
      (compileBodies source s.pending s) := by
  have hends : Ends { s with log := s.begun.log } s.pending.names
      (s.bodies.forM (BodyContext.emitPending s.declarations source) s.begun) (compileBodies source s.pending s) :=
    ends_forM source hs.distinct fun name hname => by
      obtain ⟨body, hbody⟩ := Option.isSome_iff_exists.mp (hs.found name hname)
      exact ⟨body, hbody, hread body (List.mem_filterMap.mpr ⟨name, hname, hbody⟩)⟩
  generalize s.bodies.forM (BodyContext.emitPending s.declarations source) s.begun = emitted at hends ⊢
  generalize compileBodies source s.pending s = compiled at hends ⊢
  -- The event before the first body is among what was made.
  cases hends with
  | ok made c => exact .ok made c
  | refused refusal made c htaken => exact .refused refusal made c htaken

end Declare

end Straightline
