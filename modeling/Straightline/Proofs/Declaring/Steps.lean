import Straightline.Proofs.Declaring.Records
import Straightline.Proofs.Reading.Position

/-!
# What the first phase can do

A success of the first phase is a chain of steps, one for each declaration. `Declare.Step` says of
each sort of declaration everything that was checked and everything that was changed, so that a fact
about a declared unit is proved by going along the chain (`Declare.Steps`) and never by opening the
functions that declare.
-/

set_option autoImplicit false

namespace Straightline

namespace Declaring

/-- The bodies that are put off, in the order in which they are compiled. -/
def bodies (s : Declaring) : List PendingBody := s.pending.names.filterMap s.declarations.pendingBody?

/-- With a type more. -/
def withType (s : Declaring) (name : String) (kind : AggregateKind)
    (fields : List (String × Ty)) (cursor : Cursor) (log : List Event) : Declaring :=
  { s with
    cursor, log
    declarations :=
      { s.declarations with
        types := ⟨s.declarations.types.entries ++ [(name, .aggregate name kind fields)]⟩ }
    builder :=
      (IR.Build.declareStruct name (fields.map fun field => field.2.irType) s.builder).2 }

/-- Where a global is, if its contents are at `address`. -/
def globalStorage (ty : Ty) (address : IR.Value) : Storage IR.Value :=
  match ty.passing with
  | .byValue => .slot address
  | .byAddress => .direct address

/-- With a global more. -/
def withGlobal (s : Declaring) (name : String) (ty : Ty) (contents : IR.Constant)
    (cursor : Cursor) (log : List Event) : Declaring :=
  let added := IR.Build.addGlobal name ⟨.const contents, ty.layoutType⟩ s.builder
  { s with
    cursor, log
    declarations :=
      { s.declarations with
        globals :=
          ⟨s.declarations.globals.entries ++ [(name, ⟨ty, globalStorage ty added.1⟩)]⟩ }
    builder := added.2 }

/-- The number that the next function gets. -/
def nextFunction (s : Declaring) : IR.FunctionId := s.builder.module.functions.length

/-- The builder with a function more, which has no body yet. -/
def declaredFunction (s : Declaring) (name : String) (parameters : List (String × Ty))
    (result : Ty) : IR.Builder :=
  (IR.Build.declareFunction name (parameters.map fun p => p.2.irType) result.irType s.builder).2

/-- With a function more, whose body resumes at `resume`. -/
def withFunction (s : Declaring) (name : String) (signature : Signature) (resume : Nat)
    (cursor : Cursor) (log : List Event) : Declaring where
  cursor := cursor
  log := log
  declarations :=
    { s.declarations with
      functions := ⟨s.declarations.functions.entries ++
        [(name, ⟨signature, s.nextFunction, some resume⟩)]⟩ }
  builder := s.declaredFunction name signature.arguments signature.result
  pending := { s.pending with functions := s.pending.functions ++ [name] }

/-- With a method more, whose body resumes at `resume`. -/
def withMethod (s : Declaring) (name receiver : String) (owner : Ty) (signature : Signature)
    (resume : Nat) (cursor : Cursor) (log : List Event) : Declaring where
  cursor := cursor
  log := log
  declarations :=
    { s.declarations with
      methods := ⟨s.declarations.methods.entries ++
        [(Declarations.methodKey owner name, ⟨owner, receiver, signature, s.nextFunction, some resume⟩)]⟩ }
  builder := s.declaredFunction (Declarations.methodKey owner name)
    ((receiver, owner) :: signature.arguments) signature.result
  pending :=
    { s.pending with methods := s.pending.methods ++ [Declarations.methodKey owner name] }

section

variable {s : Declaring} {name receiver : String} {owner : Ty} {signature : Signature}
  {resume : Nat} {c : Cursor} {log : List Event}

@[simp] theorem nextFunction_withFunction :
    (s.withFunction name signature resume c log).nextFunction = s.nextFunction + 1 := by
  simp [nextFunction, withFunction, declaredFunction, IR.Build.declareFunction]

@[simp] theorem nextFunction_withMethod :
    (s.withMethod name receiver owner signature resume c log).nextFunction
      = s.nextFunction + 1 := by
  simp [nextFunction, withMethod, declaredFunction, IR.Build.declareFunction]

/-- The new body is found under its name, and the others as before. -/
theorem pendingBody?_withFunction (free : s.declarations.functions.contains name = false) (c : Cursor)
    (log : List Event) (other : CallableName) :
    (s.withFunction name signature resume c log).declarations.pendingBody? other
      = if other = .function name then
          some ⟨name, s.nextFunction, signature.arguments, signature.result, resume⟩
        else s.declarations.pendingBody? other := by
  cases other with
  | method key => rfl
  | function other =>
    by_cases hname : name = other
    · subst hname
      simp [Declarations.pendingBody?, withFunction, SymbolTable.find?_concat,
        SymbolTable.find?_of_free _ free]
    · simp [Declarations.pendingBody?, withFunction, SymbolTable.find?_concat, hname, Ne.symm hname]

theorem pendingBody?_withMethod
    (free : s.declarations.methods.contains (Declarations.methodKey owner name) = false) (c : Cursor)
    (log : List Event) (other : CallableName) :
    (s.withMethod name receiver owner signature resume c log).declarations.pendingBody? other
      = if other = .method (Declarations.methodKey owner name) then
          some ⟨Declarations.methodKey owner name, s.nextFunction,
            (receiver, owner) :: signature.arguments, signature.result, resume⟩
        else s.declarations.pendingBody? other := by
  cases other with
  | function other => rfl
  | method key =>
    by_cases hkey : Declarations.methodKey owner name = key
    · subst hkey
      simp [Declarations.pendingBody?, withMethod, SymbolTable.find?_concat,
        SymbolTable.find?_of_free _ free]
    · simp [Declarations.pendingBody?, withMethod, SymbolTable.find?_concat, hkey, Ne.symm hkey]

@[simp] theorem names_withFunction :
    (s.withFunction name signature resume c log).pending.names
      = s.pending.names ++ [.function name] := by
  simp [withFunction, Pending.names]

theorem names_withMethod :
    (s.withMethod name receiver owner signature resume c log).pending.names.Perm
      (s.pending.names ++ [.method (Declarations.methodKey owner name)]) := by
  simp only [withMethod, Pending.names, List.map_append, List.append_assoc]
  exact List.perm_append_comm.append_left _

/-- A name more is put off, and its body is found. -/
theorem bodies_concat {s' : Declaring} {name : CallableName} {new : PendingBody}
    (unlisted : name ∉ s.pending.names) (hnames : s'.pending.names.Perm (s.pending.names ++ [name]))
    (hfound : ∀ other, s'.declarations.pendingBody? other
      = if other = name then some new else s.declarations.pendingBody? other) :
    s'.bodies.Perm (s.bodies ++ [new]) := by
  have hold : ∀ other ∈ s.pending.names,
      s'.declarations.pendingBody? other = s.declarations.pendingBody? other := by
    intro other hother
    have hne : other ≠ name := fun he => unlisted (he ▸ hother)
    rw [hfound, if_neg hne]
  have hnew : s'.declarations.pendingBody? name = some new := by rw [hfound, if_pos rfl]
  have hbodies := hnames.filterMap s'.declarations.pendingBody?
  rw [List.filterMap_append, List.filterMap_congr hold] at hbodies
  simp only [List.filterMap_cons, hnew, List.filterMap_nil] at hbodies
  exact hbodies

theorem bodies_withFunction (free : s.declarations.functions.contains name = false)
    (unlisted : .function name ∉ s.pending.names) (c : Cursor) (log : List Event) :
    (s.withFunction name signature resume c log).bodies.Perm
      (s.bodies ++ [⟨name, s.nextFunction, signature.arguments, signature.result, resume⟩]) :=
  bodies_concat unlisted (.of_eq names_withFunction) (pendingBody?_withFunction free c log)

theorem bodies_withMethod
    (free : s.declarations.methods.contains (Declarations.methodKey owner name) = false)
    (unlisted : .method (Declarations.methodKey owner name) ∉ s.pending.names) (c : Cursor)
    (log : List Event) :
    (s.withMethod name receiver owner signature resume c log).bodies.Perm
      (s.bodies ++ [⟨Declarations.methodKey owner name, s.nextFunction,
        (receiver, owner) :: signature.arguments, signature.result, resume⟩]) :=
  bodies_concat unlisted names_withMethod (pendingBody?_withMethod free c log)

end

end Declaring

/-- What holds of all bodies and of one that is added holds of all. -/
theorem PendingBody.forall_concat {P : PendingBody → Prop} {bodies bodies' : List PendingBody}
    {new : PendingBody} (hperm : bodies'.Perm (bodies ++ [new])) (h : ∀ body ∈ bodies, P body)
    (hnew : P new) : ∀ body ∈ bodies', P body := by
  intro body hbody
  rcases List.mem_append.mp (hperm.mem_iff.mp hbody) with hbody | hbody
  · exact h body hbody
  · rw [List.mem_singleton.mp hbody]
    exact hnew

/-- Bodies stay when one is added. -/
theorem PendingBody.mem_concat {bodies bodies' : List PendingBody} {new : PendingBody}
    (hperm : bodies'.Perm (bodies ++ [new])) :
    (∀ body ∈ bodies, body ∈ bodies') ∧ new ∈ bodies' :=
  ⟨fun _ hbody => hperm.mem_iff.mpr (List.mem_append_left _ hbody),
    hperm.mem_iff.mpr (List.mem_append_right _ (List.mem_singleton_self _))⟩

namespace Declare

/-- One declaration is taken: its header is read at a place `c₀` further on, and its rest from where
that ended. -/
inductive Step (s : Declaring) : Declaring → Prop where
  | type {name : String} {kind : AggregateKind} {fields : List (String × Ty)}
      {c₀ c₁ c₂ : Cursor} {log : List Event}
      (reaches : s.cursor.Reaches c₀)
      (header : Scan.declaration s.declarations.types c₀ = .ok (.type name kind) c₁)
      (free : s.declarations.types.contains name = false)
      (builtin : Primitive.ofName? name = none)
      (definition : Scan.typeDefinition name kind s.declarations.types c₁ = .ok fields c₂) :
      Step s (s.withType name kind fields c₂ log)
  | global {name : String} {ty : Ty} {contents : IR.Constant} {c₀ c₁ c₂ : Cursor}
      {log : List Event}
      (reaches : s.cursor.Reaches c₀)
      (header : Scan.declaration s.declarations.types c₀ = .ok (.global name ty) c₁)
      (free : s.declarations.globals.contains name = false)
      (value : Scan.contents s.declarations.types ty c₁ = .ok contents c₂) :
      Step s (s.withGlobal name ty contents c₂ log)
  | function {name : String} {signature : Signature} {c₀ c₁ c₂ c₃ : Cursor} {log : List Event}
      (reaches : s.cursor.Reaches c₀)
      (header : Scan.declaration s.declarations.types c₀ = .ok (.function name signature) c₁)
      (free : s.declarations.functions.contains name = false)
      (opens : Scan.openBody c₁ = .ok () c₂)
      (body : Scan.skipBlock c₂ = .ok () c₃)
      (unlisted : .function name ∉ s.pending.names) :
      Step s (s.withFunction name signature c₂.offset c₃ log)
  | method {name receiver : String} {owner : Ty} {signature : Signature}
      {c₀ c₁ c₂ c₃ : Cursor} {log : List Event}
      (reaches : s.cursor.Reaches c₀)
      (header : Scan.declaration s.declarations.types c₀
        = .ok (.method name receiver owner signature) c₁)
      (free : s.declarations.methods.contains (Declarations.methodKey owner name) = false)
      (opens : Scan.openBody c₁ = .ok () c₂)
      (body : Scan.skipBlock c₂ = .ok () c₃)
      (unlisted : .method (Declarations.methodKey owner name) ∉ s.pending.names) :
      Step s (s.withMethod name receiver owner signature c₂.offset c₃ log)

/-- Declarations are taken up to the end of the source. -/
inductive Steps : Declaring → Declaring → Prop where
  | done {s : Declaring} {c : Cursor} {log : List Event} :
      s.cursor.Reaches c → Steps s { s with cursor := c, log := log }
  | step {s s₁ s' : Declaring} : Step s s₁ → Steps s₁ s' → Steps s s'

/-- What every step and the end preserve holds after a chain. -/
theorem Steps.invariant {P : Declaring → Prop} {s s' : Declaring} (h : Steps s s')
    (hstep : ∀ {a b}, P a → Step a b → P b)
    (hdone : ∀ {a : Declaring} {c log}, P a → a.cursor.Reaches c →
      P { a with cursor := c, log := log })
    (hs : P s) : P s' := by
  induction h with
  | done hreach => exact hdone hs hreach
  | step hfirst _ ih => exact ih (hstep hs hfirst)

/-! ## Inversion -/

section Inversion

variable {s s' : Declaring}

theorem scan_ok {α : Type} {reader : Scan α} {a : α} (h : scan reader s = .ok a s') :
    ∃ c, reader s.cursor = .ok a c ∧ s' = { s with cursor := c } := by
  unfold scan at h
  cases hr : reader s.cursor with
  | ok value c =>
    rw [hr] at h
    cases h
    exact ⟨c, rfl, rfl⟩
  | error fault c =>
    rw [hr] at h
    cases h

theorem require_ok {holds : Bool} {fault : Fault} (h : require holds fault s = .ok () s') :
    holds = true ∧ s' = s := by
  obtain ⟨c, hc, rfl⟩ := scan_ok h
  unfold Scan.require at hc
  split at hc
  · cases hc
    exact ⟨‹_›, rfl⟩
  · cases hc

theorem insert_ok {α : Type} {t t' : SymbolTable α} {name : String} {item : α}
    (h : scan (Scan.check (t.insert? name item)) s = .ok t' s') :
    t' = ⟨t.entries ++ [(name, item)]⟩ ∧ s' = s := by
  obtain ⟨c, hc, rfl⟩ := scan_ok h
  unfold SymbolTable.insert? at hc
  split at hc <;> cases hc
  exact ⟨rfl, rfl⟩

/-- What is declared was free, as far as `free` says. -/
theorem free_ok {α : Type} {free : Declarations → Bool} {fault : Fault} {k : Declarations → Declare α} {a : α}
    (h : (do let d ← declarations; require (free d) fault; k d) s = .ok a s') :
    free s.declarations = true ∧ k s.declarations s = .ok a s' := by
  obtain ⟨d, s₁, hd, h⟩ := bind_ok h
  cases hd
  obtain ⟨_, s₂, hfree, h⟩ := bind_ok h
  obtain ⟨hholds, rfl⟩ := require_ok hfree
  exact ⟨hholds, h⟩

theorem not_true {b : Bool} (h : (!b) = true) : b = false := by
  cases b
  · rfl
  · cases h

theorem declareType_ok {name : String} {kind : AggregateKind}
    (h : declareType name kind s = .ok () s') :
    ∃ fields c, s.declarations.types.contains name = false ∧ Primitive.ofName? name = none ∧
      Scan.typeDefinition name kind s.declarations.types s.cursor = .ok fields c ∧
      s' = s.withType name kind fields c s.log := by
  obtain ⟨hholds, h⟩ := free_ok h
  obtain ⟨fields, s₃, hdefinition, h⟩ := bind_ok h
  obtain ⟨c, hc, rfl⟩ := scan_ok hdefinition
  obtain ⟨_, s₄, hbuild, h⟩ := bind_ok h
  cases hbuild
  obtain ⟨types, s₅, hinsert, h⟩ := bind_ok h
  obtain ⟨rfl, rfl⟩ := insert_ok hinsert
  cases h
  rw [Bool.and_eq_true] at hholds
  exact ⟨fields, c, not_true hholds.1, Option.isNone_iff_eq_none.mp hholds.2, hc, rfl⟩

theorem declareGlobal_ok {name : String} {ty : Ty} (h : declareGlobal name ty s = .ok () s') :
    ∃ contents c, s.declarations.globals.contains name = false ∧
      Scan.contents s.declarations.types ty s.cursor = .ok contents c ∧
      s' = s.withGlobal name ty contents c s.log := by
  obtain ⟨hholds, h⟩ := free_ok h
  obtain ⟨contents, s₃, hcontents, h⟩ := bind_ok h
  obtain ⟨c, hc, rfl⟩ := scan_ok hcontents
  obtain ⟨address, s₄, hbuild, h⟩ := bind_ok h
  cases hbuild
  obtain ⟨globals, s₅, hinsert, h⟩ := bind_ok h
  obtain ⟨rfl, rfl⟩ := insert_ok hinsert
  cases h
  exact ⟨contents, c, not_true hholds, hc, rfl⟩

theorem putOff_ok {name : String} {parameters : List (String × Ty)} {result : Ty}
    {function : IR.FunctionId} {resume : Nat} (h : putOff name parameters result s = .ok (function, resume) s') :
    ∃ c c', Scan.openBody s.cursor = .ok () c ∧ Scan.skipBlock c = .ok () c' ∧
      function = s.nextFunction ∧ resume = c.offset ∧
      s' = { s with cursor := c', builder := s.declaredFunction name parameters result } := by
  obtain ⟨function, s₁, hbuild, h⟩ := bind_ok h
  cases hbuild
  obtain ⟨_, s₂, hopen, h⟩ := bind_ok h
  obtain ⟨c, hc, rfl⟩ := scan_ok hopen
  obtain ⟨resume, s₃, hresume, h⟩ := bind_ok h
  cases hresume
  obtain ⟨_, s₄, hskip, h⟩ := bind_ok h
  obtain ⟨c', hc', rfl⟩ := scan_ok hskip
  cases h
  exact ⟨c, c', hc, hc', rfl, rfl, rfl⟩

theorem declareFunction_ok {name : String} {signature : Signature}
    (h : declareFunction name signature s = .ok () s') :
    ∃ c c', s.declarations.functions.contains name = false ∧
      Scan.openBody s.cursor = .ok () c ∧ Scan.skipBlock c = .ok () c' ∧
      s' = s.withFunction name signature c.offset c' s.log := by
  obtain ⟨hholds, h⟩ := free_ok h
  obtain ⟨⟨function, resume⟩, s₃, hbody, h⟩ := bind_ok h
  obtain ⟨c, c', hc, hc', rfl, rfl, rfl⟩ := putOff_ok hbody
  obtain ⟨functions, s₄, hinsert, h⟩ := bind_ok h
  obtain ⟨rfl, rfl⟩ := insert_ok hinsert
  cases h
  exact ⟨c, c', not_true hholds, hc, hc', rfl⟩

theorem declareMethod_ok {name receiver : String} {owner : Ty} {signature : Signature}
    (h : declareMethod name receiver owner signature s = .ok () s') :
    ∃ c c', s.declarations.methods.contains (Declarations.methodKey owner name) = false ∧
      Scan.openBody s.cursor = .ok () c ∧ Scan.skipBlock c = .ok () c' ∧
      s' = s.withMethod name receiver owner signature c.offset c' s.log := by
  obtain ⟨hholds, h⟩ := free_ok h
  obtain ⟨⟨function, resume⟩, s₃, hbody, h⟩ := bind_ok h
  obtain ⟨c, c', hc, hc', rfl, rfl, rfl⟩ := putOff_ok hbody
  obtain ⟨methods, s₄, hinsert, h⟩ := bind_ok h
  obtain ⟨rfl, rfl⟩ := insert_ok hinsert
  cases h
  exact ⟨c, c', not_true hholds, hc, hc', rfl⟩

end Inversion

/-! ## The chain -/

end Declare

namespace Declaring

/-- What is put off is found in the tables, and nothing is put off twice. -/
structure Listed (s : Declaring) : Prop where
  found : ∀ name ∈ s.pending.names, (s.declarations.pendingBody? name).isSome = true
  distinct : s.pending.names.Nodup

variable {s s' : Declaring} {name : String} {owner : Ty}

theorem Listed.elsewhere {c : Cursor} {log : List Event} (h : s.Listed) :
    Listed { s with cursor := c, log := log } := ⟨h.found, h.distinct⟩

theorem Listed.unlisted_function (h : s.Listed) (hfree : s.declarations.functions.contains name = false) :
    .function name ∉ s.pending.names := by
  intro hmem
  have hfound := h.found _ hmem
  simp [Declarations.pendingBody?, SymbolTable.find?_of_free _ hfree] at hfound

theorem Listed.unlisted_method (h : s.Listed)
    (hfree : s.declarations.methods.contains (Declarations.methodKey owner name) = false) :
    .method (Declarations.methodKey owner name) ∉ s.pending.names := by
  intro hmem
  have hfound := h.found _ hmem
  simp [Declarations.pendingBody?, SymbolTable.find?_of_free _ hfree] at hfound

theorem Listed.concat {name : CallableName} {new : PendingBody} (h : s.Listed)
    (unlisted : name ∉ s.pending.names) (hnames : s'.pending.names.Perm (s.pending.names ++ [name]))
    (hfound : ∀ other, s'.declarations.pendingBody? other
      = if other = name then some new else s.declarations.pendingBody? other) : s'.Listed where
  found other hother := by
    rw [hfound]
    split
    · rfl
    · rcases List.mem_append.mp (hnames.mem_iff.mp hother) with hother | hother
      · exact h.found other hother
      · exact absurd (List.mem_singleton.mp hother) ‹_›
  distinct := by
    rw [hnames.nodup_iff, List.nodup_append]
    exact ⟨h.distinct, by simp, fun other hother last hlast he =>
      unlisted (List.mem_singleton.mp hlast ▸ he ▸ hother)⟩

theorem Listed.withFunction {signature : Signature} {resume : Nat} (h : s.Listed)
    (hfree : s.declarations.functions.contains name = false) (c : Cursor) (log : List Event) :
    (s.withFunction name signature resume c log).Listed :=
  h.concat (h.unlisted_function hfree) (.of_eq names_withFunction) (pendingBody?_withFunction hfree c log)

theorem Listed.withMethod {receiver : String} {signature : Signature} {resume : Nat} (h : s.Listed)
    (hfree : s.declarations.methods.contains (Declarations.methodKey owner name) = false) (c : Cursor)
    (log : List Event) : (s.withMethod name receiver owner signature resume c log).Listed :=
  h.concat (h.unlisted_method hfree) names_withMethod (pendingBody?_withMethod hfree c log)

theorem Listed.step (h : s.Listed) (hstep : Declare.Step s s') : s'.Listed := by
  cases hstep with
  | type | global => exact ⟨h.found, h.distinct⟩
  | function _ _ hfree => exact h.withFunction hfree _ _
  | method _ _ hfree => exact h.withMethod hfree _ _

end Declaring

/-- Nothing is put off when a unit begins. -/
theorem Project.listed_opening (p : Project) (unit : SourceUnit) : (p.opening unit).Listed where
  found := by simp [opening, Pending.names]
  distinct := by simp [opening, Pending.names]

namespace Declare

/-- A declaration whose header was read at `c₀` is a step of the chain. -/
theorem declare_step {s s' : Declaring} {header : Declaration} {c₀ c₁ : Cursor}
    {log : List Event} (hs : s.Listed) (hreach : s.cursor.Reaches c₀)
    (hheader : Scan.declaration s.declarations.types c₀ = .ok header c₁)
    (h : declare header { s with cursor := c₁, log := log } = .ok () s') : Step s s' := by
  cases header with
  | type name kind =>
    obtain ⟨fields, c, hfree, hbuiltin, hdefinition, rfl⟩ := declareType_ok h
    exact .type hreach hheader hfree hbuiltin hdefinition
  | global name ty =>
    obtain ⟨contents, c, hfree, hcontents, rfl⟩ := declareGlobal_ok h
    exact .global hreach hheader hfree hcontents
  | function name signature =>
    obtain ⟨c, c', hfree, hopen, hskip, rfl⟩ := declareFunction_ok h
    exact .function hreach hheader hfree hopen hskip (hs.unlisted_function hfree)
  | method name receiver owner signature =>
    obtain ⟨c, c', hfree, hopen, hskip, rfl⟩ := declareMethod_ok h
    exact .method hreach hheader hfree hopen hskip (hs.unlisted_method hfree)

theorem declareWithin_steps {bound : Nat} {s s' : Declaring} (hs : s.Listed)
    (h : declareWithin bound s = .ok () s') : Steps s s' := by
  induction bound generalizing s with
  | zero => cases h
  | succ bound ih =>
    obtain ⟨_, s₁, hspace, h⟩ := bind_ok h
    obtain ⟨c₀, hc₀, rfl⟩ := scan_ok hspace
    have hreach := Scan.advances_skipSpace true _ _ _ hc₀
    obtain ⟨atEnd, s₂, hatEnd, h⟩ := bind_ok h
    obtain ⟨c₁, hc₁, rfl⟩ := scan_ok hatEnd
    cases hc₁
    split at h
    · cases h
      exact .done hreach
    · obtain ⟨d, s₃, hd, h⟩ := bind_ok h
      cases hd
      obtain ⟨header, s₄, hheader, h⟩ := bind_ok h
      obtain ⟨c₂, hc₂, rfl⟩ := scan_ok hheader
      obtain ⟨_, s₅, hreport, h⟩ := bind_ok h
      cases hreport
      obtain ⟨_, s₆, hdeclare, h⟩ := bind_ok h
      have hstep := declare_step hs hreach hc₂ hdeclare
      exact .step hstep (ih (hs.step hstep) h)

/-- A success of the first phase is a chain of steps, and what it answers with are the functions put off
along it. -/
theorem declareAll_steps {s s' : Declaring} {pending : Pending} (hs : s.Listed)
    (h : declareAll s = .ok pending s') :
    ∃ log, Steps { s with log := log } s' ∧ pending = s'.pending := by
  obtain ⟨_, s₁, hreport, h⟩ := bind_ok h
  cases hreport
  obtain ⟨s₂, s₃, hget, h⟩ := bind_ok h
  cases hget
  obtain ⟨_, s₄, hwithin, h⟩ := bind_ok h
  cases h
  exact ⟨_, declareWithin_steps hs.elsewhere hwithin, rfl⟩

/-- What was put off is found in the tables when the declarations of a unit have been taken. -/
theorem declareAll_listed {p : Project} {unit : SourceUnit} {pending : Pending} {s : Declaring}
    (h : declareAll (p.opening unit) = .ok pending s) : s.Listed := by
  obtain ⟨log, hsteps, _⟩ := declareAll_steps (p.listed_opening unit) h
  exact hsteps.invariant Declaring.Listed.step (fun ha _ => ha.elsewhere) (p.listed_opening unit).elsewhere

end Declare

end Straightline
