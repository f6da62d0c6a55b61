import Straightline.Proofs.Meaning.Programs
import Straightline.Proofs.Safety.Bodies

/-!
# Programs are not stuck

What the tables of a project know of a function is what the program says of it, or what a body that is
still awaited will say (`Program.Covers`). Every declaration of a unit and every body that is compiled
preserves this. When nothing is awaited any more, all functions may be called on arguments of their
types, by induction on the depth to which calls are nested: each definition is safe, and knows no more
than the tables do.
-/

set_option autoImplicit false

namespace Straightline

open IR (Site)

namespace Meaning

/-- Function `id` has these types, by its definition or by a body that is awaited. -/
def Program.Offers (program : Program) (bodies : List PendingBody) (id : IR.FunctionId)
    (types : List Ty) (result : Ty) : Prop :=
  (∃ d, program.find? id = some d ∧ d.parameters.map Prod.snd = types ∧ d.result = result) ∨
    ∃ body ∈ bodies, body.function = id ∧ body.parameters.map Prod.snd = types ∧
      body.result = result

/-- The program offers whatever the tables know, and its definitions are safe. They know no more than the
tables do; which bodies are still to be compiled is nothing that they know. -/
structure Program.Covers (program : Program) (names : Declarations) (bodies : List PendingBody) :
    Prop where
  functions : ∀ entry ∈ names.functions.entries,
    program.Offers bodies entry.2.function entry.2.signature.argumentTypes
      entry.2.signature.result
  methods : ∀ entry ∈ names.methods.entries,
    program.Offers bodies entry.2.function (entry.2.owner :: entry.2.signature.argumentTypes)
      entry.2.signature.result
  safe : ∀ d ∈ program, d.Safe
  known : ∀ d ∈ program, d.names.settled.Extends names.settled

section Programs

variable {program : Program} {names : Declarations} {bodies : List PendingBody}

theorem Shape.Knows.of_extends {σ : Shape} {names' : Declarations} (h : σ.Knows names')
    (hgrowth : names.settled.Extends names'.settled) : σ.Knows names := by
  intro index entry hentry
  obtain ⟨more, hmore⟩ : names.globals.entries <+: names'.globals.entries := hgrowth.globals
  refine h index entry ?_
  rw [← hmore, List.getElem?_append_left (List.getElem?_eq_some_iff.mp hentry).1]
  exact hentry

theorem Calls.Serve.of_extends {calls : Calls} {σ : Shape} {names' : Declarations}
    (h : calls.Serve σ names') (hgrowth : names.settled.Extends names'.settled) : calls.Serve σ names where
  functions entry hentry := by
    obtain ⟨other, hother, hsame⟩ := List.mem_map.mp (hgrowth.functions.subset (List.mem_map_of_mem hentry))
    have htake := h.functions other hother
    obtain ⟨_, hrecord⟩ := Prod.mk.inj hsame
    obtain ⟨hsignature, hfunction, _⟩ := FunctionRecord.mk.inj hrecord
    rw [hsignature, hfunction] at htake
    exact htake
  methods entry hentry := by
    obtain ⟨other, hother, hsame⟩ := List.mem_map.mp (hgrowth.methods.subset (List.mem_map_of_mem hentry))
    have htake := h.methods other hother
    obtain ⟨_, hrecord⟩ := Prod.mk.inj hsame
    obtain ⟨howner, _, hsignature, hfunction, _⟩ := MethodRecord.mk.inj hrecord
    rw [howner, hsignature, hfunction] at htake
    exact htake

theorem Program.Offers.mono {bodies' : List PendingBody} {id : IR.FunctionId} {types : List Ty}
    {result : Ty} (h : program.Offers bodies id types result)
    (hbodies : ∀ body ∈ bodies, body ∈ bodies') : program.Offers bodies' id types result := by
  rcases h with hfound | ⟨body, hbody, hrest⟩
  · exact Or.inl hfound
  · exact Or.inr ⟨body, hbodies body hbody, hrest⟩

namespace Program.Covers

/-- More is known and awaited, and whatever was not known before is offered. -/
theorem extend {names' : Declarations} {bodies' : List PendingBody}
    (h : program.Covers names bodies) (hgrowth : names.Extends names')
    (hbodies : ∀ body ∈ bodies, body ∈ bodies')
    (hfunctions : ∀ entry ∈ names'.functions.entries, entry ∈ names.functions.entries ∨
      program.Offers bodies' entry.2.function entry.2.signature.argumentTypes
        entry.2.signature.result)
    (hmethods : ∀ entry ∈ names'.methods.entries, entry ∈ names.methods.entries ∨
      program.Offers bodies' entry.2.function
        (entry.2.owner :: entry.2.signature.argumentTypes) entry.2.signature.result) :
    program.Covers names' bodies' where
  functions := by
    intro entry hentry
    rcases hfunctions entry hentry with hold | hnew
    · exact (h.functions entry hold).mono hbodies
    · exact hnew
  methods := by
    intro entry hentry
    rcases hmethods entry hentry with hold | hnew
    · exact (h.methods entry hold).mono hbodies
    · exact hnew
  safe := h.safe
  known := fun d hd => (h.known d hd).trans hgrowth.settled

/-- A declaration adds entries of functions together with the bodies that are awaited for them. -/
theorem step {s s' : Declaring} (h : program.Covers s.declarations s.bodies)
    (hstep : Declare.Step s s') : program.Covers s'.declarations s'.bodies := by
  cases hstep with
  | type =>
    exact h.extend ⟨List.prefix_append _ _, List.prefix_rfl, List.prefix_rfl, List.prefix_rfl⟩
      (fun _ hbody => hbody) (fun _ hentry => Or.inl hentry) fun _ hentry => Or.inl hentry
  | global =>
    exact h.extend ⟨List.prefix_rfl, List.prefix_append _ _, List.prefix_rfl, List.prefix_rfl⟩
      (fun _ hbody => hbody) (fun _ hentry => Or.inl hentry) fun _ hentry => Or.inl hentry
  | function _ _ hfree _ _ hunlisted =>
    obtain ⟨hbodies, hnew⟩ := PendingBody.mem_concat (Declaring.bodies_withFunction hfree hunlisted _ _)
    refine h.extend ⟨List.prefix_rfl, List.prefix_rfl, List.prefix_append _ _, List.prefix_rfl⟩
      hbodies (fun entry hentry => ?_) fun _ hentry => Or.inl hentry
    rcases List.mem_append.mp hentry with hold | hentry
    · exact Or.inl hold
    · rw [List.mem_singleton.mp hentry]
      exact Or.inr (Or.inr ⟨_, hnew, rfl, rfl, rfl⟩)
  | method _ _ hfree _ _ hunlisted =>
    obtain ⟨hbodies, hnew⟩ := PendingBody.mem_concat (Declaring.bodies_withMethod hfree hunlisted _ _)
    refine h.extend ⟨List.prefix_rfl, List.prefix_rfl, List.prefix_rfl, List.prefix_append _ _⟩
      hbodies (fun _ hentry => Or.inl hentry) ?_
    intro entry hentry
    rcases List.mem_append.mp hentry with hold | hentry
    · exact Or.inl hold
    · rw [List.mem_singleton.mp hentry]
      exact Or.inr (Or.inr ⟨_, hnew, rfl, rfl, rfl⟩)

/-- Nothing is said of bodies that are still to be compiled. -/
theorem of_settled {names' : Declarations} (h : program.Covers names bodies)
    (hsettled : names'.settled = names.settled) : program.Covers names' bodies where
  functions entry hentry := by
    obtain ⟨_, hrecord⟩ := Declarations.function_of_settled hsettled hentry
    have hoffers := h.functions _ hrecord
    exact hoffers
  methods entry hentry := by
    obtain ⟨_, hrecord⟩ := Declarations.method_of_settled hsettled hentry
    have hoffers := h.methods _ hrecord
    exact hoffers
  safe := h.safe
  known := hsettled ▸ h.known

/-- A body that was awaited is defined. -/
theorem complete {m : IR.Module} {body : PendingBody} {d : Definition}
    (h : program.Covers names (body :: bodies)) (hawaits : program.Awaits m (body :: bodies))
    (hd : d.Safe) (hid : d.function = body.function) (hnames : d.names = names)
    (hparameters : d.parameters = body.parameters) (hresult : d.result = body.result) :
    Program.Covers (program ++ [d]) names bodies := by
  have hoffers : ∀ {id types result}, program.Offers (body :: bodies) id types result →
      Program.Offers (program ++ [d]) bodies id types result := by
    intro id types result hoffer
    rcases hoffer with ⟨d', hd', hrest⟩ | ⟨other, hother, hother', htypes, hres⟩
    · exact Or.inl ⟨d', find?_append_of_some hd', hrest⟩
    · rcases List.mem_cons.mp hother with hsame | hother
      · subst hsame
        refine Or.inl ⟨d, ?_, hparameters ▸ htypes, hresult.trans hres⟩
        rw [← hother']
        exact find?_append_of_none (hawaits.find?_eq_none List.mem_cons_self) hid
      · exact Or.inr ⟨other, hother, hother', htypes, hres⟩
  exact ⟨fun entry hentry => hoffers (h.functions entry hentry),
    fun entry hentry => hoffers (h.methods entry hentry),
    forall_concat h.safe hd,
    forall_concat h.known (hnames ▸ .refl _)⟩

/-- If all functions may be called, so may those that the tables know. -/
theorem serve (h : program.Covers names []) {σ : Shape} {calls : Calls}
    (hcalls : ∀ id d, program.find? id = some d →
      calls.Take σ id (d.parameters.map Prod.snd) d.result) : calls.Serve σ names := by
  have htake : ∀ {id types result}, program.Offers [] id types result →
      calls.Take σ id types result := by
    intro id types result hoffer
    rcases hoffer with ⟨d, hd, rfl, rfl⟩ | ⟨body, hbody, _⟩
    · exact hcalls id d hd
    · cases hbody
  exact ⟨fun entry hentry => htake (h.functions entry hentry),
    fun entry hentry => htake (h.methods entry hentry)⟩

/-- All functions may be called, however deep calls are nested. -/
theorem take (h : program.Covers names []) (depth : Nat) {σ : Shape} (hknows : σ.Knows names)
    {id : IR.FunctionId} {d : Definition} (hd : program.find? id = some d) :
    (program.callWithin depth).Take σ id (d.parameters.map Prod.snd) d.result := by
  induction depth generalizing σ id d with
  | zero =>
    -- No call is allowed, and that is why there is no result.
    intro σ' args hle hargs s hs
    rfl
  | succ depth ih =>
    intro σ' args hle hargs
    have hmem := List.mem_of_find?_eq_some hd
    have hgrowth := h.known d hmem
    have hknows' := hknows.later hle
    have hserve := h.serve fun id d hd => ih hknows' hd
    simp only [callWithin, hd, known_bind]
    exact h.safe d hmem σ' _ args (hknows'.of_extends hgrowth) (hserve.of_extends hgrowth) hargs

end Program.Covers

end Programs

end Meaning

end Straightline
