import Straightline.Proofs.Declaring.Steps
import Straightline.Proofs.Lists

/-!
# Units only add

Taking a unit adds entries at the end of the tables of the project and of its module, and amends the
functions that it has added itself. Whatever was there before the unit is a prefix of what is there
after it (`Project.Extends`), also when the unit is refused halfway. Of that, cutting the tables back
to their former lengths restores what they were.
-/

set_option autoImplicit false

namespace Straightline

/-! ## Extensions -/

/-- Every table of the builder `b` is a prefix of that of `b'`. -/
structure IR.Builder.Extends (b b' : IR.Builder) : Prop where
  name : b'.module.name = b.module.name
  structs : b.module.structs <+: b'.module.structs
  globals : b.module.globals <+: b'.module.globals
  functions : b.module.functions <+: b'.module.functions
  defects : b.defects <+: b'.defects

namespace IR.Builder.Extends

variable {b b' b'' : IR.Builder}

theorem refl (b : IR.Builder) : b.Extends b :=
  ⟨rfl, List.prefix_rfl, List.prefix_rfl, List.prefix_rfl, List.prefix_rfl⟩

theorem trans (h : b.Extends b') (h' : b'.Extends b'') : b.Extends b'' where
  name := h'.name.trans h.name
  structs := h.structs.trans h'.structs
  globals := h.globals.trans h'.globals
  functions := h.functions.trans h'.functions
  defects := h.defects.trans h'.defects

theorem declareStruct (b : IR.Builder) (name : String) (fields : List IRType) :
    b.Extends (IR.Build.declareStruct name fields b).2 :=
  ⟨rfl, List.prefix_append _ _, List.prefix_rfl, List.prefix_rfl, List.prefix_rfl⟩

theorem declareFunction (b : IR.Builder) (name : String) (params : List IRType) (ret : IRType) :
    b.Extends (IR.Build.declareFunction name params ret b).2 :=
  ⟨rfl, List.prefix_rfl, List.prefix_rfl, List.prefix_append _ _, List.prefix_rfl⟩

theorem addGlobal (b : IR.Builder) (name : String) (ty : IRType) (contents : IR.Constant) :
    b.Extends (IR.Build.addGlobal name ⟨.const contents, ty⟩ b).2 :=
  ⟨rfl, List.prefix_rfl, List.prefix_append _ _, List.prefix_rfl, List.prefix_rfl⟩

/-- Cutting an extension back gives the tables that were extended. -/
theorem rollback (h : b.Extends b') :
    b'.rollback b.checkpoint = { b with current := none } := by
  obtain ⟨⟨name, structs, globals, functions⟩, current, defects⟩ := b
  obtain ⟨⟨name', structs', globals', functions'⟩, current', defects'⟩ := b'
  obtain ⟨hname, hstructs, hglobals, hfunctions, hdefects⟩ := h
  cases hname
  have hstructs := List.prefix_iff_eq_take.mp hstructs
  have hglobals := List.prefix_iff_eq_take.mp hglobals
  have hfunctions := List.prefix_iff_eq_take.mp hfunctions
  have hdefects := List.prefix_iff_eq_take.mp hdefects
  simp only [IR.Builder.rollback, IR.Builder.checkpoint, ← hstructs, ← hglobals, ← hfunctions,
    ← hdefects]

end IR.Builder.Extends

/-- Every table of `d` is a prefix of that of `d'`. -/
structure Declarations.Extends (d d' : Declarations) : Prop where
  types : d.types.entries <+: d'.types.entries
  globals : d.globals.entries <+: d'.globals.entries
  functions : d.functions.entries <+: d'.functions.entries
  methods : d.methods.entries <+: d'.methods.entries

namespace Declarations.Extends

variable {d d' d'' : Declarations}

theorem settled (h : d.Extends d') : d.settled.Extends d'.settled :=
  ⟨h.types, h.globals, h.functions.map _, h.methods.map _⟩

theorem refl (d : Declarations) : d.Extends d :=
  ⟨List.prefix_rfl, List.prefix_rfl, List.prefix_rfl, List.prefix_rfl⟩

theorem trans (h : d.Extends d') (h' : d'.Extends d'') : d.Extends d'' where
  types := h.types.trans h'.types
  globals := h.globals.trans h'.globals
  functions := h.functions.trans h'.functions
  methods := h.methods.trans h'.methods

theorem truncate (h : d.Extends d') : d'.truncate d.counts = d := by
  obtain ⟨⟨types⟩, ⟨globals⟩, ⟨functions⟩, ⟨methods⟩⟩ := d
  obtain ⟨⟨types'⟩, ⟨globals'⟩, ⟨functions'⟩, ⟨methods'⟩⟩ := d'
  have htypes := List.prefix_iff_eq_take.mp h.types
  have hglobals := List.prefix_iff_eq_take.mp h.globals
  have hfunctions := List.prefix_iff_eq_take.mp h.functions
  have hmethods := List.prefix_iff_eq_take.mp h.methods
  simp only [Declarations.truncate, Declarations.counts, SymbolTable.truncate, SymbolTable.size,
    ← htypes, ← hglobals, ← hfunctions, ← hmethods]

/-- What was there before was not among the names that the table has since. -/
theorem holds (h : d.Extends d') {name : CallableName} (hfree : d'.holds name = false) : d.holds name = false := by
  have hcontains : ∀ {α : Type} {t t' : SymbolTable α} {name : String}, t.entries <+: t'.entries →
      t'.contains name = false → t.contains name = false := by
    intro α t t' name hprefix hfree
    obtain ⟨more, hmore⟩ := hprefix
    rw [SymbolTable.contains, ← hmore, List.any_append, Bool.or_eq_false_iff] at hfree
    exact hfree.1
  cases name with
  | method key => exact hcontains h.methods hfree
  | function name => exact hcontains h.functions hfree

/-- Taking a new body out of its record changes nothing that was there before. -/
theorem withoutResume (h : d.Extends d') {name : CallableName} (hnew : d.holds name = false) :
    d.Extends (d'.withoutResume name) := by
  cases name with
  | method key => exact ⟨h.types, h.globals, h.functions, SymbolTable.prefix_modify _ h.methods hnew⟩
  | function name => exact ⟨h.types, h.globals, SymbolTable.prefix_modify _ h.functions hnew, h.methods⟩

theorem withoutResumes (h : d.Extends d') {names : List CallableName}
    (hnew : ∀ name ∈ names, d.holds name = false) : d.Extends (d'.withoutResumes names) := by
  induction names generalizing d' with
  | nil => exact h
  | cons name rest ih =>
    obtain ⟨hname, hrest⟩ := List.forall_mem_cons.mp hnew
    exact ih (h.withoutResume hname) hrest

end Declarations.Extends

/-! ## Declaring -/

/-- What was declared and built in `s` comes first in `s'`. -/
structure Declaring.Extends (s s' : Declaring) : Prop where
  declarations : s.declarations.Extends s'.declarations
  builder : s.builder.Extends s'.builder

namespace Declaring.Extends

variable {s s' s'' : Declaring}

theorem refl (s : Declaring) : s.Extends s := ⟨.refl _, .refl _⟩

theorem trans (h : s.Extends s') (h' : s'.Extends s'') : s.Extends s'' :=
  ⟨h.declarations.trans h'.declarations, h.builder.trans h'.builder⟩

end Declaring.Extends

namespace Declare

variable {α β : Type}

/-- However `m` ends, it has only added. -/
abbrev Grows (m : Declare α) : Prop := Keeps Declaring.Extends m

/-- Where `m` fails, it has only added. -/
def FailsGrown (m : Declare α) : Prop := ∀ s e s', m s = .error e s' → s.Extends s'

theorem grows_bind {m : Declare α} {k : α → Declare β} (hm : Grows m) (hk : ∀ a, Grows (k a)) :
    Grows (m >>= k) :=
  Keeps.bind Declaring.Extends.trans hm hk

theorem FailsGrown.bind {m : Declare α} {k : α → Declare β} (hm : Grows m)
    (hk : ∀ a, FailsGrown (k a)) : FailsGrown (m >>= k) := by
  intro s e s' h
  rcases bind_error h with h | ⟨a, s₁, hma, h⟩
  · exact hm.error h
  · exact (hm.ok hma).trans (hk a s₁ e s' h)

theorem grows_pure (a : α) : Grows (pure a : Declare α) := Keeps.pure Declaring.Extends.refl a

theorem grows_scan (reader : Scan α) : Grows (scan reader) := by
  intro s
  unfold scan
  split <;> exact ⟨.refl _, .refl _⟩

theorem grows_build {step : IR.Build α} (h : ∀ b : IR.Builder, b.Extends (step b).2) :
    Grows (build step) :=
  fun s => ⟨.refl _, h s.builder⟩

theorem grows_report (event : Event) : Grows (report event) := fun _ => ⟨.refl _, .refl _⟩

theorem grows_declarations : Grows declarations := fun _ => ⟨.refl _, .refl _⟩

theorem grows_putOff (name : String) (parameters : List (String × Ty)) (result : Ty) :
    Grows (putOff name parameters result) := by
  refine grows_bind (grows_build fun b => .declareFunction b _ _ _) ?_
  intro _
  refine grows_bind (grows_scan _) fun _ => grows_bind (grows_scan _) ?_
  intro _
  exact grows_bind (grows_scan _) fun _ => grows_pure _

/-- The tables of the project are changed at the very end of a declaration, where nothing fails any
more. -/
theorem failsGrown_set (d : Declarations) : FailsGrown (setDeclarations d) := by
  intro s e s' h
  cases h

theorem failsGrown_register (d : Declarations) (f : Declaring → Declaring) :
    FailsGrown (do setDeclarations d; modify f) := by
  intro s e s' h
  cases h

theorem failsGrown_declare (header : Declaration) : FailsGrown (declare header) := by
  cases header with
  | type name kind =>
    refine .bind grows_declarations fun d => .bind (grows_scan _) ?_
    intro _
    refine .bind (grows_scan _) ?_
    intro fields
    refine .bind (grows_build fun b => .declareStruct b _ _) ?_
    intro _
    exact .bind (grows_scan _) fun _ => failsGrown_set _
  | global name ty =>
    refine .bind grows_declarations fun d => .bind (grows_scan _) ?_
    intro _
    refine .bind (grows_scan _) ?_
    intro contents
    refine .bind (grows_build fun b => .addGlobal b _ _ _) ?_
    intro _
    exact .bind (grows_scan _) fun _ => failsGrown_set _
  | function name signature =>
    refine .bind grows_declarations fun d => .bind (grows_scan _) ?_
    intro _
    refine .bind (grows_putOff _ _ _) ?_
    intro _
    exact .bind (grows_scan _) fun _ => failsGrown_register _ _
  | method name receiver owner signature =>
    refine .bind grows_declarations fun d => .bind (grows_scan _) ?_
    intro _
    refine .bind (grows_putOff _ _ _) ?_
    intro _
    exact .bind (grows_scan _) fun _ => failsGrown_register _ _

theorem grows_declare (header : Declaration) : Grows (declare header) := by
  intro s
  cases h : declare header s with
  | error refusal s' => exact failsGrown_declare header s refusal s' h
  | ok _ s' =>
    dsimp only [endState]
    cases header with
    | type name kind =>
      obtain ⟨fields, c, _, _, _, rfl⟩ := declareType_ok h
      exact ⟨⟨List.prefix_append _ _, List.prefix_rfl, List.prefix_rfl, List.prefix_rfl⟩,
        .declareStruct _ _ _⟩
    | global name ty =>
      obtain ⟨contents, c, _, _, rfl⟩ := declareGlobal_ok h
      exact ⟨⟨List.prefix_rfl, List.prefix_append _ _, List.prefix_rfl, List.prefix_rfl⟩,
        .addGlobal _ _ _ _⟩
    | function name signature =>
      obtain ⟨c, c', _, _, _, rfl⟩ := declareFunction_ok h
      exact ⟨⟨List.prefix_rfl, List.prefix_rfl, List.prefix_append _ _, List.prefix_rfl⟩,
        .declareFunction _ _ _ _⟩
    | method name receiver owner signature =>
      obtain ⟨c, c', _, _, _, rfl⟩ := declareMethod_ok h
      exact ⟨⟨List.prefix_rfl, List.prefix_rfl, List.prefix_rfl, List.prefix_append _ _⟩,
        .declareFunction _ _ _ _⟩

theorem grows_declareWithin (bound : Nat) : Grows (declareWithin bound) := by
  induction bound with
  | zero => exact grows_scan _
  | succ bound ih =>
    refine grows_bind (grows_scan _) fun _ => grows_bind (grows_scan _) ?_
    intro atEnd
    cases atEnd with
    | true => exact grows_pure _
    | false =>
      refine grows_bind grows_declarations fun d => grows_bind (grows_scan _) ?_
      intro header
      exact grows_bind (grows_report _) fun _ => grows_bind (grows_declare header) fun _ => ih

theorem grows_declareAll : Grows declareAll := by
  have hget : Grows (get : Declare Declaring) := fun s => .refl s
  refine grows_bind (grows_report _) fun _ => grows_bind hget ?_
  intro _
  exact grows_bind (grows_declareWithin _) fun _ => grows_bind hget fun _ => grows_pure _

/-! ## Bodies put off -/

/-- Every body that was put off since `p` belongs to a function that the module has and that neither `p` nor
its module had. -/
structure Fresh (p : Project) (s : Declaring) : Prop where
  declarations : p.declarations.Extends s.declarations
  grown : p.builder.module.functions.length ≤ s.nextFunction
  names : ∀ name ∈ s.pending.names, p.declarations.holds name = false
  bodies : ∀ body ∈ s.bodies,
    p.builder.module.functions.length ≤ body.function ∧ body.function < s.nextFunction

variable {p : Project} {s s' : Declaring}

theorem Fresh.step (hs : Fresh p s) (h : Step s s') : Fresh p s' := by
  have hgrown := hs.grown
  have hdeclarations := hs.declarations
  have hbodies : ∀ body ∈ s.bodies,
      p.builder.module.functions.length ≤ body.function ∧ body.function < s.nextFunction + 1 :=
    fun body hbody => ⟨(hs.bodies body hbody).1, Nat.lt_succ_of_lt (hs.bodies body hbody).2⟩
  have hnew : p.builder.module.functions.length ≤ s.nextFunction ∧ s.nextFunction < s.nextFunction + 1 :=
    ⟨hgrown, Nat.lt_succ_self _⟩
  cases h with
  | type =>
    refine ⟨?_, hs.grown, hs.names, hs.bodies⟩
    exact ⟨hdeclarations.types.trans (List.prefix_append _ _), hdeclarations.globals,
      hdeclarations.functions, hdeclarations.methods⟩
  | global =>
    refine ⟨?_, hs.grown, hs.names, hs.bodies⟩
    exact ⟨hdeclarations.types, hdeclarations.globals.trans (List.prefix_append _ _),
      hdeclarations.functions, hdeclarations.methods⟩
  | function _ _ hfree _ _ hunlisted =>
    refine ⟨?_, ?_, ?_, ?_⟩
    · exact ⟨hdeclarations.types, hdeclarations.globals,
        hdeclarations.functions.trans (List.prefix_append _ _), hdeclarations.methods⟩
    · rw [Declaring.nextFunction_withFunction]
      exact Nat.le_succ_of_le hgrown
    · rw [Declaring.names_withFunction]
      exact forall_concat hs.names (hdeclarations.holds hfree)
    · rw [Declaring.nextFunction_withFunction]
      exact PendingBody.forall_concat (Declaring.bodies_withFunction hfree hunlisted _ _) hbodies hnew
  | method _ _ hfree _ _ hunlisted =>
    refine ⟨?_, ?_, ?_, ?_⟩
    · exact ⟨hdeclarations.types, hdeclarations.globals, hdeclarations.functions,
        hdeclarations.methods.trans (List.prefix_append _ _)⟩
    · rw [Declaring.nextFunction_withMethod]
      exact Nat.le_succ_of_le hgrown
    · intro name hname
      rcases List.mem_append.mp (Declaring.names_withMethod.mem_iff.mp hname) with hname | hname
      · exact hs.names name hname
      · rw [List.mem_singleton.mp hname]
        exact hdeclarations.holds hfree
    · rw [Declaring.nextFunction_withMethod]
      exact PendingBody.forall_concat (Declaring.bodies_withMethod hfree hunlisted _ _) hbodies hnew

theorem declareAll_fresh {unit : SourceUnit} {pending : Pending}
    (h : declareAll (p.opening unit) = .ok pending s) : Fresh p s := by
  obtain ⟨log, hsteps, rfl⟩ := declareAll_steps (p.listed_opening unit) h
  exact hsteps.invariant Fresh.step (fun ha _ => ⟨ha.declarations, ha.grown, ha.names, ha.bodies⟩)
    ⟨.refl _, Nat.le_refl _, by simp [Project.opening, Pending.names],
      by simp [Project.opening, Declaring.bodies, Pending.names]⟩

end Declare

end Straightline
