import Straightline.Proofs.Meaning.Bodies
import Straightline.Proofs.Units.Verified

/-!
# The programs of projects

A unit that is accepted defines the functions whose bodies were put off: each is the block that is read
where its body resumes, with the names that the unit knew. The definitions of all accepted units make a
program. While the bodies of a unit are compiled the functions of which the program says nothing yet are
those that await them (`Meaning.Program.Awaits`), as in the check of the module.
-/

set_option autoImplicit false

namespace Straightline

open IR (Site Inst)
open Meaning (Calls Value Store Definition Program Simulates)

/-! ## Programs of projects -/

/-- What a body that was put off defines, if it can be read. -/
def PendingBody.definition? (names : Declarations) (source : List UInt8) (body : PendingBody) :
    Option Definition :=
  match Scan.block (.seek source body.resume) with
  | .ok (.mk lines _) _ => some ⟨body.function, names, body.parameters, body.result, lines⟩
  | .error _ _ => none

namespace Project

/-- The functions that a unit defines, which know all the names of the unit. -/
def definitions (p : Project) (unit : SourceUnit) : Program :=
  match Declare.declareAll (p.opening unit) with
  | .ok _ s => s.bodies.filterMap (PendingBody.definition? s.declarations unit.bytes)
  | .error _ _ => []

/-- The functions that the accepted ones of some units define. -/
def program (p : Project) : List SourceUnit → Program
  | [] => []
  | unit :: rest =>
    match (p.compileUnit unit).result with
    | .ok () => p.definitions unit ++ (p.compileUnit unit).project.program rest
    | .error _ => (p.compileUnit unit).project.program rest

end Project

/-! ## Functions that are not yet realized -/

theorem IR.Function.Implements.mono {f : IR.Function} {m m' : IR.Module} {d : Definition}
    (h : f.Implements m d) (hoffers : m.Offers m') : f.Implements m' d where
  result := h.result
  simulates := by
    intro calls entry hagree hanswer
    refine h.simulates calls entry hagree ?_
    intro id f hf hvalued args
    obtain ⟨f', hf', _, hret⟩ := hoffers.functions hf
    exact hanswer id f' hf' (hret ▸ hvalued) args

namespace Meaning

/-- Every function of the module does what the program says of it, but for those that await their
bodies, of which the program says nothing. -/
structure Program.Awaits (program : Program) (m : IR.Module) (bodies : List PendingBody) : Prop where
  functions : ∀ id f, m.function? id = some f →
    (∃ d, program.find? id = some d ∧ f.Implements m d) ∨ ∃ body ∈ bodies, body.function = id
  placed : ∀ d ∈ program, d.function < m.functions.length
  apart : ∀ d ∈ program, ∀ body ∈ bodies, d.function ≠ body.function

theorem Program.find?_append_of_some {program : Program} {id : IR.FunctionId} {d d' : Definition}
    (h : program.find? id = some d) : Program.find? (program ++ [d']) id = some d := by
  unfold find? at h ⊢
  rw [List.find?_append, h]
  rfl

theorem Program.find?_append_of_none {program : Program} {id : IR.FunctionId} {d : Definition}
    (h : program.find? id = none) (hd : d.function = id) :
    Program.find? (program ++ [d]) id = some d := by
  unfold find? at h ⊢
  rw [List.find?_append, h, List.find?_cons, hd, BEq.rfl]
  rfl

namespace Program.Awaits

variable {program : Program} {m m' : IR.Module} {bodies : List PendingBody}

/-- The program says nothing yet of a function whose body is awaited. -/
theorem find?_eq_none (h : program.Awaits m bodies) {body : PendingBody} (hbody : body ∈ bodies) :
    program.find? body.function = none :=
  List.find?_eq_none.mpr fun d hd hid => h.apart d hd body hbody (beq_iff_eq.mp hid)

theorem realized (h : program.Awaits m []) : program.RealizedBy m where
  functions := by
    intro id f hf
    rcases h.functions id f hf with hfound | ⟨body, hbody, _⟩
    · exact hfound
    · cases hbody
  others := by
    intro id hf
    refine List.find?_eq_none.mpr fun d hd hid => ?_
    have hplaced := h.placed d hd
    rw [beq_iff_eq.mp hid] at hplaced
    exact absurd hplaced (Nat.not_lt.mpr (List.getElem?_eq_none_iff.mp hf))

/-- Nothing changes for the functions if none is added. -/
theorem of_functions (h : program.Awaits m bodies) (hoffers : m.Offers m')
    (hfunctions : m'.functions = m.functions) : program.Awaits m' bodies where
  functions := by
    intro id f hf
    unfold IR.Module.function? at hf
    rw [hfunctions] at hf
    rcases h.functions id f hf with ⟨d, hd, himplements⟩ | hbody
    · exact Or.inl ⟨d, hd, himplements.mono hoffers⟩
    · exact Or.inr hbody
  placed := fun d hd => hfunctions ▸ h.placed d hd
  apart := h.apart

/-- A function is declared, whose body is put off. -/
theorem declare {s : Declaring} {name : String} {parameters : List (String × Ty)} {result : Ty}
    {resume : Nat} {bodies' : List PendingBody} (h : program.Awaits s.builder.module s.bodies)
    (hperm : bodies'.Perm (s.bodies ++ [⟨name, s.nextFunction, parameters, result, resume⟩])) :
    program.Awaits (s.declaredFunction name parameters result).module bodies' := by
  obtain ⟨hoffers, _, hold⟩ := Declaring.Sound.declared s name parameters result
  obtain ⟨hbodies, hnew⟩ := PendingBody.mem_concat hperm
  refine ⟨fun id f hf => ?_, fun d hd => ?_, fun d hd => ?_⟩
  · rcases hold id f hf with hf | rfl
    · rcases h.functions id f hf with ⟨d, hd, himplements⟩ | ⟨body, hbody, hid⟩
      · exact Or.inl ⟨d, hd, himplements.mono hoffers⟩
      · exact Or.inr ⟨body, hbodies body hbody, hid⟩
    · exact Or.inr ⟨_, hnew, rfl⟩
  · refine Nat.lt_of_lt_of_le (h.placed d hd) ?_
    simp [Declaring.declaredFunction, IR.Build.declareFunction]
  · exact PendingBody.forall_concat hperm (h.apart d hd) (Nat.ne_of_lt (h.placed d hd))

theorem step {s s' : Declaring} (h : program.Awaits s.builder.module s.bodies)
    (hstep : Declare.Step s s') : program.Awaits s'.builder.module s'.bodies := by
  cases hstep with
  | type => exact h.of_functions (.of_growth (List.prefix_append _ _) List.prefix_rfl) rfl
  | global => exact h.of_functions (.of_growth List.prefix_rfl List.prefix_rfl) rfl
  | function _ _ hfree _ _ hunlisted => exact h.declare (Declaring.bodies_withFunction hfree hunlisted _ _)
  | method _ _ hfree _ _ hunlisted => exact h.declare (Declaring.bodies_withMethod hfree hunlisted _ _)

/-- A function that awaited its body is realized. -/
theorem complete {w : Site} {body : PendingBody} {rest : List PendingBody} {more : List Inst}
    {d : Definition} (h : program.Awaits w.base.module (body :: rest)) (hopen : w.Open)
    (hid : w.id = body.function) (hd : d.function = body.function)
    (hdistinct : ∀ other ∈ rest, body.function ≠ other.function)
    (himplements : (w.withBody more).Implements w.base.module d) :
    Program.Awaits (program ++ [d]) (w.builder more).module rest := by
  have hoffers := Site.offers hopen more
  refine ⟨fun id f hf => ?_, fun d' hd' => ?_, fun d' hd' => ?_⟩
  · by_cases hself : w.id = id
    · subst hself
      rw [Site.function?_self hopen] at hf
      cases hf
      have hnone := h.find?_eq_none List.mem_cons_self
      rw [← hid] at hnone hd
      exact Or.inl ⟨d, Program.find?_append_of_none hnone hd, himplements.mono hoffers⟩
    · rw [Site.function?_of_ne hself] at hf
      rcases h.functions id f hf with ⟨d', hd', himplements'⟩ | ⟨other, hother, rfl⟩
      · exact Or.inl ⟨d', Program.find?_append_of_some hd', himplements'.mono hoffers⟩
      · rcases List.mem_cons.mp hother with rfl | hother
        · exact absurd hid hself
        · exact Or.inr ⟨other, hother, rfl⟩
  · have hlength : (w.builder more).module.functions.length = w.base.module.functions.length :=
      List.length_set ..
    rw [hlength]
    rcases List.mem_append.mp hd' with hd' | hd'
    · exact h.placed d' hd'
    · rw [List.mem_singleton.mp hd', hd, ← hid]
      exact Site.lt_of_open hopen
  · intro other hother
    rcases List.mem_append.mp hd' with hd' | hd'
    · exact h.apart d' hd' other (List.mem_cons_of_mem _ hother)
    · rw [List.mem_singleton.mp hd', hd]
      exact hdistinct other hother

end Program.Awaits

end Meaning

end Straightline
