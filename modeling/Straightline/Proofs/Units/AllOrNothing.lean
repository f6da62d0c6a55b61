import Straightline.Project.Artifact
import Straightline.Proofs.Emission.Frame
import Straightline.Proofs.TwoPasses
import Straightline.Proofs.Units.Growth

/-!
# Units are taken whole or not at all

A unit that is refused leaves every table as it was, and one that is accepted leaves every former
entry as it was. Which function is open is the one thing that a refused unit may change; nothing
that a later unit does depends on it, since a body is opened before anything is added to it.

So a project is determined by the units that it accepted (`compileUnit_all_or_nothing`).
-/

set_option autoImplicit false

namespace Straightline

/-! ## The second phase -/

namespace BodyContext

variable {b₀ : IR.Builder} {declarations : Declarations} {source : List UInt8}

/-- A function that is not one of `b₀` is opened, and then instructions are added. -/
theorem extends_of_amends {b b' : IR.Builder} {id : IR.FunctionId} (h : b₀.Extends b)
    (hnew : b₀.module.functions.length ≤ id) (hid : id < b.module.functions.length)
    (hamends : (IR.Build.openEntry id b).2.Amends b') :
    b₀.Extends b' ∧ b'.module.functions.length = b.module.functions.length := by
  have hf : b.module.function? id = some b.module.functions[id] := List.getElem?_eq_getElem hid
  simp only [IR.Build.openEntry, hf] at hamends
  obtain ⟨hname, hstructs, hglobals, _, hcount, hothers, hdefects⟩ := hamends
  refine ⟨⟨hname.trans h.name, hstructs ▸ h.structs, hglobals ▸ h.globals, ?_,
    h.defects.trans hdefects⟩, by simpa using hcount⟩
  rw [List.prefix_iff_getElem?]
  intro i hi
  have hne : id ≠ i := Nat.ne_of_gt (Nat.lt_of_lt_of_le hi hnew)
  rw [hothers i (by simpa using hne), ← List.prefix_iff_getElem?.mp h.functions i hi]
  simp [hne]

/-- The loop over the bodies of a unit changes none of the functions that were there before. -/
theorem extends_emitPendings {bodies : List PendingBody} {s : Emission}
    (h : b₀.Extends s.builder)
    (hbodies : ∀ body ∈ bodies, b₀.module.functions.length ≤ body.function ∧
      body.function < s.builder.module.functions.length) :
    b₀.Extends (endState (bodies.forM (emitPending declarations source) s)).builder := by
  induction bodies generalizing s with
  | nil => exact h
  | cons body rest ih =>
    obtain ⟨hnew, hid⟩ := hbodies body List.mem_cons_self
    have hbody := extends_of_amends h hnew hid
      (amends_emitOpened declarations source body (opened body s))
    rw [← emitPending_eq] at hbody
    change b₀.Extends (endState ((emitPending declarations source body >>= fun _ =>
      rest.forM (emitPending declarations source)) s)).builder
    cases hs : emitPending declarations source body s with
    | error refusal s₁ =>
      rw [bind_of_error hs]
      rw [hs] at hbody
      exact hbody.1
    | ok _ s₁ =>
      rw [bind_of_ok hs]
      rw [hs] at hbody
      refine ih hbody.1 ?_
      intro b hb
      have hb' := hbodies b (List.mem_cons_of_mem _ hb)
      exact ⟨hb'.1, hbody.2.symm ▸ hb'.2⟩

end BodyContext

/-! ## One unit -/

/-- Everything that the projects hold is the same, except for which function is open. -/
structure Project.SameTables (p q : Project) : Prop where
  name : q.name = p.name
  declarations : q.declarations = p.declarations
  module : q.builder.module = p.builder.module
  defects : q.builder.defects = p.builder.defects

/-- What `p` holds comes first in what `q` holds, unchanged: the registered types, globals, functions
and methods, the structures, globals and functions of the module with their bodies, and the
defects. -/
structure Project.Extends (p q : Project) : Prop where
  name : q.name = p.name
  declarations : p.declarations.Extends q.declarations
  builder : p.builder.Extends q.builder

namespace Project

variable {p q r : Project}

theorem SameTables.refl (p : Project) : p.SameTables p := ⟨rfl, rfl, rfl, rfl⟩

theorem SameTables.symm (h : p.SameTables q) : q.SameTables p :=
  ⟨h.name.symm, h.declarations.symm, h.module.symm, h.defects.symm⟩

theorem SameTables.trans (h : p.SameTables q) (h' : q.SameTables r) : p.SameTables r :=
  ⟨h'.name.trans h.name, h'.declarations.trans h.declarations, h'.module.trans h.module,
    h'.defects.trans h.defects⟩

/-- What a unit comes to: it is declared, and then the instructions of the bodies that were put off are made.
Where a body is refused, those after it are still in their records. -/
theorem takeUnit_ends (p : Project) (unit : SourceUnit) :
    match Declare.declareAll (p.opening unit) with
    | .error refusal s =>
      p.takeUnit unit
        = ⟨.error refusal, s.log, { p with declarations := s.declarations, builder := s.builder }⟩
    | .ok pending s =>
      pending = s.pending ∧
      match s.bodies.forM (BodyContext.emitPending s.declarations unit.bytes) s.begun with
      | .error refusal made => ∃ taken, taken <+: s.pending.names ∧ p.takeUnit unit
          = ⟨.error refusal, made.log,
            { p with declarations := s.declarations.withoutResumes taken, builder := made.builder }⟩
      | .ok () made => p.takeUnit unit
          = ⟨.ok (), made.log, { p with
              declarations := s.declarations.withoutResumes s.pending.names
              builder := made.builder }⟩ := by
  unfold takeUnit Declare.takeUnit
  cases hdeclare : Declare.declareAll (p.opening unit) with
  | error refusal s => rw [bind_of_error hdeclare]
  | ok pending s =>
    rw [bind_of_ok hdeclare]
    obtain ⟨log, _, rfl⟩ := Declare.declareAll_steps (p.listed_opening unit) hdeclare
    have hends := Declare.ends_declared hdeclare
    refine ⟨rfl, ?_⟩
    generalize Declare.compileBodies unit.bytes s.pending s = compiled at hends ⊢
    generalize s.bodies.forM (BodyContext.emitPending s.declarations unit.bytes) s.begun = emitted at hends ⊢
    cases hends with
    | ok made c => rfl
    | refused refusal made c htaken => exact ⟨_, htaken, rfl⟩

/-- A unit that is accepted went through both phases. -/
theorem takeUnit_ok {unit : SourceUnit} (h : (p.takeUnit unit).result = .ok ()) :
    ∃ s made, Declare.declareAll (p.opening unit) = .ok s.pending s ∧
      s.bodies.forM (BodyContext.emitPending s.declarations unit.bytes) s.begun = .ok () made ∧
      (p.takeUnit unit).project = { p with
        declarations := s.declarations.withoutResumes s.pending.names
        builder := made.builder } := by
  have hends := takeUnit_ends p unit
  cases hdeclare : Declare.declareAll (p.opening unit) with
  | error refusal s =>
    simp only [hdeclare] at hends
    rw [hends] at h
    cases h
  | ok pending s =>
    simp only [hdeclare] at hends
    obtain ⟨rfl, hends⟩ := hends
    cases hemit : s.bodies.forM (BodyContext.emitPending s.declarations unit.bytes) s.begun with
    | error refusal made =>
      simp only [hemit] at hends
      obtain ⟨taken, _, hends⟩ := hends
      rw [hends] at h
      cases h
    | ok _ made =>
      simp only [hemit] at hends
      exact ⟨s, made, rfl, hemit, congrArg Outcome.project hends⟩

/-- Both phases only add, whether the unit is refused or not. -/
theorem extends_takeUnit (p : Project) (unit : SourceUnit) :
    p.Extends (p.takeUnit unit).project := by
  have hends := takeUnit_ends p unit
  have hgrown := Declare.grows_declareAll (p.opening unit)
  cases hdeclare : Declare.declareAll (p.opening unit) with
  | error refusal s =>
    simp only [hdeclare] at hends
    rw [hdeclare] at hgrown
    rw [hends]
    exact ⟨rfl, hgrown.declarations, hgrown.builder⟩
  | ok pending s =>
    simp only [hdeclare] at hends
    rw [hdeclare] at hgrown
    obtain ⟨rfl, hends⟩ := hends
    have hfresh := Declare.declareAll_fresh hdeclare
    have hbuilder : p.builder.Extends
        (endState (s.bodies.forM (BodyContext.emitPending s.declarations unit.bytes) s.begun)).builder :=
      BodyContext.extends_emitPendings hgrown.builder hfresh.bodies
    cases hemit : s.bodies.forM (BodyContext.emitPending s.declarations unit.bytes) s.begun with
    | error refusal made =>
      simp only [hemit] at hends
      rw [hemit] at hbuilder
      obtain ⟨taken, htaken, hends⟩ := hends
      rw [hends]
      exact ⟨rfl, hfresh.declarations.withoutResumes fun name hname => hfresh.names name (htaken.subset hname),
        hbuilder⟩
    | ok _ made =>
      simp only [hemit] at hends
      rw [hemit] at hbuilder
      rw [hends]
      exact ⟨rfl, hfresh.declarations.withoutResumes hfresh.names, hbuilder⟩

theorem compileUnit_of_ok {unit : SourceUnit} (h : (p.takeUnit unit).result = .ok ()) :
    p.compileUnit unit = p.takeUnit unit := by
  simp only [compileUnit, h]

theorem compileUnit_of_error {unit : SourceUnit} {refusal : Refusal}
    (h : (p.takeUnit unit).result = .error refusal) :
    (p.compileUnit unit).result = .error refusal ∧
      (p.compileUnit unit).project = (p.takeUnit unit).project.rollback p := by
  simp only [compileUnit, h, and_self]

/-- Cutting back what extends a project restores it. -/
theorem Extends.rollback (h : p.Extends q) : p.SameTables (q.rollback p) := by
  have hbuilder : (q.rollback p).builder = { p.builder with current := none } :=
    h.builder.rollback
  exact ⟨h.name, h.declarations.truncate, by rw [hbuilder], by rw [hbuilder]⟩

/-- A unit that is refused changes no table; one that is accepted changes no former entry. -/
theorem compileUnit_tables (p : Project) (unit : SourceUnit) :
    match (p.compileUnit unit).result with
    | .error _ => p.SameTables (p.compileUnit unit).project
    | .ok () => p.Extends (p.compileUnit unit).project := by
  have htake := extends_takeUnit p unit
  cases h : (p.takeUnit unit).result with
  | ok _ =>
    rw [compileUnit_of_ok h, h]
    exact htake
  | error refusal =>
    obtain ⟨hresult, hproject⟩ := compileUnit_of_error h
    rw [hresult, hproject]
    exact htake.rollback

end Project

/-! ## The open function makes no difference -/

/-- The builder with another function open, or none. -/
def IR.Builder.withCurrent (current : Option IR.FunctionId) (b : IR.Builder) : IR.Builder :=
  { b with current }

def Declaring.withCurrent (current : Option IR.FunctionId) (s : Declaring) : Declaring :=
  { s with builder := s.builder.withCurrent current }

def Emission.withCurrent (current : Option IR.FunctionId) (s : Emission) : Emission :=
  { s with builder := s.builder.withCurrent current }

def Project.withCurrent (current : Option IR.FunctionId) (p : Project) : Project :=
  { p with builder := p.builder.withCurrent current }

namespace Declare

variable {current : Option IR.FunctionId}

theorem blind_scan {α : Type} (reader : Scan α) :
    Blind (Declaring.withCurrent current) (scan reader) := by
  intro s
  simp only [scan, Declaring.withCurrent]
  cases reader s.cursor <;> rfl

theorem blind_putOff (name : String) (parameters : List (String × Ty)) (result : Ty) :
    Blind (Declaring.withCurrent current) (putOff name parameters result) := by
  refine Blind.bind (fun s => rfl) fun _ => (blind_scan _).bind ?_
  intro _
  exact (blind_scan _).bind fun _ => (blind_scan _).bind fun _ => .pure _

theorem blind_declare (header : Declaration) :
    Blind (Declaring.withCurrent current) (declare header) := by
  have hdeclarations : Blind (Declaring.withCurrent current) declarations := fun s => rfl
  have hset : ∀ d, Blind (Declaring.withCurrent current) (setDeclarations d) := fun d s => rfl
  cases header with
  | type name kind =>
    refine hdeclarations.bind fun d => (blind_scan _).bind ?_
    intro _
    refine (blind_scan _).bind fun fields => Blind.bind (fun s => rfl) ?_
    intro _
    exact (blind_scan _).bind fun _ => hset _
  | global name ty =>
    refine hdeclarations.bind fun d => (blind_scan _).bind ?_
    intro _
    refine (blind_scan _).bind fun contents => Blind.bind (fun s => rfl) ?_
    intro _
    exact (blind_scan _).bind fun _ => hset _
  | function name signature =>
    refine hdeclarations.bind fun d => (blind_scan _).bind ?_
    intro _
    refine (blind_putOff _ _ _).bind fun body => (blind_scan _).bind ?_
    intro _
    exact (hset _).bind fun _ s => rfl
  | method name receiver owner signature =>
    refine hdeclarations.bind fun d => (blind_scan _).bind ?_
    intro _
    refine (blind_putOff _ _ _).bind fun body => (blind_scan _).bind ?_
    intro _
    exact (hset _).bind fun _ s => rfl

theorem blind_declareWithin (bound : Nat) :
    Blind (Declaring.withCurrent current) (declareWithin bound) := by
  induction bound with
  | zero => exact blind_scan _
  | succ bound ih =>
    refine (blind_scan _).bind fun _ => (blind_scan _).bind ?_
    intro atEnd
    cases atEnd with
    | true => exact .pure _
    | false =>
      refine Blind.bind (fun s => rfl) fun d => (blind_scan _).bind ?_
      intro header
      exact Blind.bind (fun s => rfl) fun _ => (blind_declare header).bind fun _ => ih

/-- Declaring does not ask which function is open. -/
theorem blind_declareAll : Blind (Declaring.withCurrent current) declareAll := by
  refine Blind.bind (fun s => rfl) ?_
  intro _ s
  exact ((blind_declareWithin (s.cursor.rest.length + 1)).bind fun _ s => rfl) s

end Declare

namespace BodyContext

/-- The second phase opens a function before it adds anything, so it does not depend on which one was
open before. It leaves that one open if there are no bodies. -/
theorem emitPendings_withCurrent (current : Option IR.FunctionId) (declarations : Declarations)
    (source : List UInt8) {bodies : List PendingBody} {s : Emission}
    (h : ∀ body ∈ bodies, body.function < s.builder.module.functions.length) :
    ∃ current', bodies.forM (emitPending declarations source) (s.withCurrent current)
      = mapState (Emission.withCurrent current') (bodies.forM (emitPending declarations source) s) := by
  cases bodies with
  | nil => exact ⟨current, rfl⟩
  | cons body rest =>
    have hid := h body List.mem_cons_self
    have hf : s.builder.module.function? body.function
        = some s.builder.module.functions[body.function] := List.getElem?_eq_getElem hid
    have hopened : opened body (s.withCurrent current) = opened body s := by
      simp only [opened, Emission.withCurrent, IR.Builder.withCurrent, IR.Build.openEntry, hf]
    let outcome := (emitOpened declarations source body >>= fun _ =>
      rest.forM (emitPending declarations source)) (opened body s)
    refine ⟨(endState outcome).builder.current, ?_⟩
    change (emitOpened declarations source body >>= fun _ =>
      rest.forM (emitPending declarations source)) (opened body (s.withCurrent current))
        = mapState _ outcome
    rw [hopened]
    change outcome = _
    cases outcome <;> rfl

end BodyContext

namespace Project

variable {p q : Project}

theorem SameTables.eq_withCurrent (h : p.SameTables q) :
    q = p.withCurrent q.builder.current := by
  obtain ⟨name, declarations, ⟨module, current, defects⟩⟩ := p
  obtain ⟨name', declarations', ⟨module', current', defects'⟩⟩ := q
  obtain ⟨hname, hdeclarations, hmodule, hdefects⟩ := h
  cases hname
  cases hdeclarations
  cases hmodule
  cases hdefects
  rfl

theorem takeUnit_withCurrent (current : Option IR.FunctionId) (p : Project)
    (unit : SourceUnit) :
    ((p.withCurrent current).takeUnit unit).result = (p.takeUnit unit).result ∧
      ((p.takeUnit unit).result = .ok () →
        (p.takeUnit unit).project.SameTables ((p.withCurrent current).takeUnit unit).project) := by
  have hdeclare : Declare.declareAll ((p.withCurrent current).opening unit)
      = mapState (Declaring.withCurrent current) (Declare.declareAll (p.opening unit)) :=
    Declare.blind_declareAll (p.opening unit)
  have hends := takeUnit_ends p unit
  have hends' := takeUnit_ends (p.withCurrent current) unit
  rw [hdeclare] at hends'
  cases hdeclared : Declare.declareAll (p.opening unit) with
  | error refusal s =>
    simp only [hdeclared, mapState] at hends hends'
    rw [hends, hends']
    exact ⟨rfl, fun h => by cases h⟩
  | ok pending s =>
    simp only [hdeclared, mapState] at hends hends'
    obtain ⟨rfl, hends⟩ := hends
    obtain ⟨-, hends'⟩ := hends'
    obtain ⟨current', hemit⟩ := BodyContext.emitPendings_withCurrent current s.declarations unit.bytes
      (s := s.begun) fun body hbody => ((Declare.declareAll_fresh hdeclared).bodies body hbody).2
    have hemit' : (s.withCurrent current).bodies.forM
        (BodyContext.emitPending (s.withCurrent current).declarations unit.bytes) (s.withCurrent current).begun
        = mapState _ _ := hemit
    rw [hemit'] at hends'
    cases hemitted : s.bodies.forM (BodyContext.emitPending s.declarations unit.bytes) s.begun with
    | error refusal made =>
      simp only [hemitted, mapState] at hends hends'
      obtain ⟨taken, _, hends⟩ := hends
      obtain ⟨taken', _, hends'⟩ := hends'
      rw [hends, hends']
      exact ⟨rfl, fun h => by cases h⟩
    | ok _ made =>
      simp only [hemitted, mapState] at hends hends'
      rw [hends, hends']
      exact ⟨rfl, fun _ => ⟨rfl, rfl, rfl, rfl⟩⟩

/-- Projects that differ only in which function is open accept the same units, and go on differing in
nothing else. -/
theorem compileUnit_sameTables (h : p.SameTables q) (unit : SourceUnit) :
    (q.compileUnit unit).result = (p.compileUnit unit).result ∧
      (p.compileUnit unit).project.SameTables (q.compileUnit unit).project := by
  obtain ⟨hresult, hproject⟩ := takeUnit_withCurrent q.builder.current p unit
  rw [← h.eq_withCurrent] at hresult hproject
  cases hp : (p.takeUnit unit).result with
  | ok _ =>
    rw [compileUnit_of_ok hp, compileUnit_of_ok (hresult.trans hp)]
    exact ⟨hresult, hproject hp⟩
  | error refusal =>
    have hq := compileUnit_of_error (hresult.trans hp)
    have hp := compileUnit_of_error hp
    refine ⟨hq.1.trans hp.1.symm, ?_⟩
    rw [hp.2, hq.2]
    exact (extends_takeUnit p unit).rollback.symm.trans
      (h.trans (extends_takeUnit q unit).rollback)

/-! ## Lists of units -/

/-- The project after each of the units was compiled, whether it was refused or not. -/
def run (p : Project) : List SourceUnit → Project
  | [] => p
  | unit :: rest => (p.compileUnit unit).project.run rest

/-- A unit keeps what is said of the tables alone, if it is kept where the unit is accepted. -/
theorem compileUnit_invariant {P : Project → Prop} (hsame : ∀ {p q}, P p → p.SameTables q → P q)
    (haccepted : ∀ {p unit}, P p → (p.takeUnit unit).result = .ok () → P (p.takeUnit unit).project)
    (h : P p) (unit : SourceUnit) : P (p.compileUnit unit).project := by
  cases hresult : (p.takeUnit unit).result with
  | ok _ =>
    rw [compileUnit_of_ok hresult]
    exact haccepted h hresult
  | error refusal =>
    have htables := compileUnit_tables p unit
    rw [(compileUnit_of_error hresult).1] at htables
    exact hsame h htables

theorem run_invariant {P : Project → Prop} (hsame : ∀ {p q}, P p → p.SameTables q → P q)
    (haccepted : ∀ {p unit}, P p → (p.takeUnit unit).result = .ok () → P (p.takeUnit unit).project)
    (h : P p) (units : List SourceUnit) : P (p.run units) := by
  induction units generalizing p with
  | nil => exact h
  | cons unit rest ih => exact ih (compileUnit_invariant hsame haccepted h unit)

/-- The units that are accepted along the way. -/
def accepted (p : Project) : List SourceUnit → List SourceUnit
  | [] => []
  | unit :: rest =>
    match (p.compileUnit unit).result with
    | .ok () => unit :: (p.compileUnit unit).project.accepted rest
    | .error _ => (p.compileUnit unit).project.accepted rest

/-- A project with the same tables as `p` takes the units that `p` accepts, all of them, and then has
the tables that `p` has in the end. -/
theorem compileUnits_accepted (units : List SourceUnit) (h : p.SameTables q) :
    ∃ q', (q.compileUnits (p.accepted units)).result = .ok q' ∧ (p.run units).SameTables q' := by
  induction units generalizing p q with
  | nil => exact ⟨q, rfl, h⟩
  | cons unit rest ih =>
    have htables := compileUnit_tables p unit
    cases hp : (p.compileUnit unit).result with
    | error refusal =>
      rw [hp] at htables
      simp only [accepted, hp, run]
      exact ih (htables.symm.trans h)
    | ok _ =>
      obtain ⟨hresult, hproject⟩ := compileUnit_sameTables h unit
      obtain ⟨q', hq', hsame⟩ := ih hproject
      simp only [accepted, hp, run, compileUnits, hresult]
      exact ⟨q', hq', hsame⟩

theorem SameTables.finish (h : p.SameTables q) : q.finish = p.finish := by
  simp only [Project.finish, IR.Builder.verify, h.defects, h.module]

/-- Compiling is all or nothing, and only adds. A unit that is refused leaves the four tables of
declarations, the module with all bodies and the defects as they were; one that is accepted leaves
what was there as an unchanged prefix. So whatever units a project was given, its tables, the outcome
of its check and both forms of output are those of a project that was given only the accepted
ones. -/
theorem compileUnit_all_or_nothing :
    (∀ (p : Project) (unit : SourceUnit),
      match (p.compileUnit unit).result with
      | .error _ => p.SameTables (p.compileUnit unit).project
      | .ok () => p.Extends (p.compileUnit unit).project) ∧
    ∀ (name : String) (units : List SourceUnit) (stackPages : Nat),
      match ((start name).compileUnits ((start name).accepted units)).result with
      | .error _ => False
      | .ok only =>
        only.declarations = ((start name).run units).declarations ∧
        only.builder.module = ((start name).run units).builder.module ∧
        only.finish = ((start name).run units).finish ∧
        only.finish.map IR.Module.text = ((start name).run units).finish.map IR.Module.text ∧
        (only.finish.bind fun m => lowerToWasm m stackPages)
          = ((start name).run units).finish.bind fun m => lowerToWasm m stackPages := by
  refine ⟨compileUnit_tables, fun name units stackPages => ?_⟩
  obtain ⟨only, honly, hsame⟩ := compileUnits_accepted units (.refl (start name))
  rw [honly]
  refine ⟨hsame.declarations, hsame.module, hsame.finish, ?_, ?_⟩
  · rw [hsame.finish]
  · rw [hsame.finish]

end Project

end Straightline
