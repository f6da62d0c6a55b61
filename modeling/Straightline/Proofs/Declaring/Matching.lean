import Straightline.Proofs.Declaring.Sound

/-!
# Every record has its place in the module

A declaration is entered twice, into a table of the project and into one of the module, and the record
holds a number by which the one refers to the other. `Declarations.Matches` says that the two never
drift apart: structures and globals stand in the order of their tables, and the handles of functions
and methods together number the functions of the module, each once. A function name has no dot and the
key of a method has one, so no two functions share a name.

Bodies are not looked at: of a function the module only tells its header here, which is all that is
left of it while its body is replaced.
-/

set_option autoImplicit false

namespace Straightline

/-- What is known of a function before it has a body. -/
def IR.Function.header (f : IR.Function) : String × List IRType × IRType := (f.name, f.params, f.ret)

/-- The headers of the functions in order. -/
def IR.Module.headers (m : IR.Module) : List (String × List IRType × IRType) :=
  m.functions.map IR.Function.header

/-- The handles of all functions, and then those of all methods. -/
def Declarations.handles (d : Declarations) : List IR.FunctionId :=
  d.functions.entries.map (fun entry => entry.2.function)
    ++ d.methods.entries.map (fun entry => entry.2.function)

/-- The names under which functions and methods are kept, in the order of their handles. -/
def Declarations.keys (d : Declarations) : List String := d.functions.names ++ d.methods.names

theorem SymbolTable.find?_of_mem {α : Type} {t : SymbolTable α} {name : String} {item : α}
    (hnames : t.names.Nodup) (h : (name, item) ∈ t.entries) : t.find? name = some item :=
  congrArg (Option.map Prod.snd) (find?_of_distinct hnames h)

namespace Declarations

variable {d d' : Declarations}

theorem functionNames_of_settled (h : d'.settled = d.settled) : d'.functions.names = d.functions.names := by
  have hnames : ∀ d : Declarations, d.settled.functions.names = d.functions.names := by
    simp [settled, SymbolTable.map, SymbolTable.names, Function.comp_def]
  rw [← hnames d', h, hnames]

theorem methodNames_of_settled (h : d'.settled = d.settled) : d'.methods.names = d.methods.names := by
  have hnames : ∀ d : Declarations, d.settled.methods.names = d.methods.names := by
    simp [settled, SymbolTable.map, SymbolTable.names, Function.comp_def]
  rw [← hnames d', h, hnames]

theorem keys_of_settled (h : d'.settled = d.settled) : d'.keys = d.keys := by
  rw [keys, functionNames_of_settled h, methodNames_of_settled h, keys]

theorem handles_of_settled (h : d'.settled = d.settled) : d'.handles = d.handles := by
  have hhandles : ∀ d : Declarations, d.settled.handles = d.handles := by
    simp [settled, handles, SymbolTable.map, FunctionRecord.settled, MethodRecord.settled, Function.comp_def]
  rw [← hhandles d', h, hhandles]

end Declarations

/-- The tables of a project and those of its module list the same things. -/
structure Declarations.Matches (d : Declarations) (m : IR.Module) : Prop where
  /-- The structures are the types in their order, each with the representations of its fields. -/
  structs : m.structs = d.types.entries.map fun entry => ⟨entry.1, entry.2.fieldTypes.map Ty.irType⟩
  /-- A type bears its name, and each of its fields is of a primitive type or of one declared
  earlier. -/
  types : ∀ (i : Nat) (entry : String × Ty), d.types.entries[i]? = some entry →
    ∃ kind fields, entry.2 = .aggregate entry.1 kind fields ∧
      ∀ field ∈ fields, (∃ p, field.2 = .primitive p) ∨
        ∃ j, j < i ∧ d.types.entries[j]? = some (field.2.name, field.2)
  typeNames : d.types.names.Nodup
  /-- The globals are those of the table in their order. -/
  globals : m.globals.map (fun g => (g.name, g.ty))
    = d.globals.entries.map fun entry => (entry.1, entry.2.ty.layoutType)
  /-- A global's handle is the address of the global at its place. -/
  addresses : ∀ (i : Nat) (entry : String × GlobalRecord), d.globals.entries[i]? = some entry →
    entry.2.storage
      = Declaring.globalStorage entry.2.ty ⟨.global i, .ptr entry.2.ty.layoutType⟩
  /-- A function's handle leads to a function of its name and signature. -/
  functions : ∀ entry ∈ d.functions.entries,
    m.headers[entry.2.function]? = some (entry.1,
      entry.2.signature.argumentTypes.map Ty.irType, entry.2.signature.result.irType)
  /-- So does a method's; its owner is the first parameter. -/
  methods : ∀ entry ∈ d.methods.entries,
    m.headers[entry.2.function]? = some (entry.1,
      (entry.2.owner :: entry.2.signature.argumentTypes).map Ty.irType,
      entry.2.signature.result.irType)
  /-- The handles are the places of the functions of the module, each once. -/
  handles : d.handles.Perm (List.range m.functions.length)
  keys : d.keys.Nodup
  undotted : ∀ name ∈ d.functions.names, Undotted name

/-! ## Names -/

theorem SymbolTable.not_mem_names {α : Type} {t : SymbolTable α} {name : String}
    (h : t.contains name = false) : name ∉ t.names := by
  intro hmem
  obtain ⟨entry, hentry, rfl⟩ := List.mem_map.mp hmem
  have hcontains : t.contains entry.1 = true := List.any_eq_true.mpr ⟨entry, hentry, beq_self_eq_true _⟩
  rw [h] at hcontains
  cases hcontains

theorem SymbolTable.forall_names_concat {α : Type} {t : SymbolTable α} {name' : String} {item : α}
    {P : String → Prop} (h : ∀ name ∈ t.names, P name) (hname : P name') :
    ∀ name ∈ (⟨t.entries ++ [(name', item)]⟩ : SymbolTable α).names, P name := by
  simp only [names, List.map_append, List.map_cons, List.map_nil]
  exact forall_concat h hname

theorem Declarations.dotted_methodKey (owner : Ty) (name : String) :
    ¬Undotted (methodKey owner name) := by
  have hdot : ".".toList = ['.'] := by decide
  simp [Undotted, methodKey, hdot]

namespace Scan

/-- What holds of every word that is not empty holds of the name that is declared. -/
theorem named_declaration {P : String → Prop} (hword : Ensures nonemptyWord fun _ name _ => P name)
    (types : SymbolTable Ty) : Ensures (declaration types) fun _ d _ => P d.name := by
  intro c d c' h
  cases header_declaration types c d c' h with
  | type _ hname | global hname | function hname | method hname => exact hname.holds hword

/-- The header of a function has an undotted name. -/
def NamedPlainly (d : Declaration) : Prop := ∀ name s, d = .function name s → Undotted name

theorem namedPlainly_declaration (types : SymbolTable Ty) :
    Ensures (declaration types) fun _ d _ => NamedPlainly d := by
  intro c d c' h name s hd
  have hname := named_declaration undotted_nonemptyWord types _ _ _ h
  rwa [hd] at hname

end Scan

/-! ## Along the declarations of a unit -/

namespace Declarations.Matches

variable {d : Declarations} {m m' : IR.Module}

/-- Only the structures, the globals and the headers of functions are spoken of. -/
theorem of_headers (h : d.Matches m) (hstructs : m'.structs = m.structs)
    (hglobals : m'.globals = m.globals) (hheaders : m'.headers = m.headers) : d.Matches m' where
  structs := hstructs.trans h.structs
  types := h.types
  typeNames := h.typeNames
  globals := hglobals ▸ h.globals
  addresses := h.addresses
  functions := hheaders ▸ h.functions
  methods := hheaders ▸ h.methods
  handles := by
    have hlength := congrArg List.length hheaders
    simp only [IR.Module.headers, List.length_map] at hlength
    rw [hlength]
    exact h.handles
  keys := h.keys
  undotted := h.undotted

/-- Nothing is said of bodies that are still to be compiled. -/
theorem of_settled {d' : Declarations} (h : d.Matches m) (hsettled : d'.settled = d.settled) : d'.Matches m := by
  have htypes := types_of_settled hsettled
  have hglobals := globals_of_settled hsettled
  have hnames := functionNames_of_settled hsettled
  exact {
    structs := htypes ▸ h.structs
    types := htypes ▸ h.types
    typeNames := htypes ▸ h.typeNames
    globals := hglobals ▸ h.globals
    addresses := hglobals ▸ h.addresses
    functions := fun entry hentry => by
      obtain ⟨resume, hfound⟩ := function_of_settled hsettled hentry
      have hheader := h.functions _ hfound
      exact hheader
    methods := fun entry hentry => by
      obtain ⟨resume, hfound⟩ := method_of_settled hsettled hentry
      have hheader := h.methods _ hfound
      exact hheader
    handles := handles_of_settled hsettled ▸ h.handles
    keys := keys_of_settled hsettled ▸ h.keys
    undotted := hnames ▸ h.undotted }

/-- The names of the globals of the module are those of the table, in order. -/
theorem globals_names (h : d.Matches m) : m.globals.map IR.Global.name = d.globals.names := by
  have hpairs := congrArg (List.map Prod.fst) h.globals
  simpa [SymbolTable.names, Function.comp_def] using hpairs

/-- The names of the functions of the module are those of the tables. -/
theorem names_perm (h : d.Matches m) : (m.functions.map IR.Function.name).Perm d.keys := by
  have hname : m.functions.map IR.Function.name
      = (List.range m.functions.length).map fun id => ((m.headers[id]?).map Prod.fst).getD "" := by
    refine List.ext_getElem? fun i => ?_
    by_cases hi : i < m.functions.length
    · simp [IR.Module.headers, hi, IR.Function.header]
    · simp [hi]
  have hkeys : d.keys = d.handles.map fun id => ((m.headers[id]?).map Prod.fst).getD "" := by
    simp only [Declarations.keys, Declarations.handles, SymbolTable.names, List.map_append,
      List.map_map]
    congr 1
    · refine List.map_congr_left fun entry hentry => ?_
      simp [h.functions entry hentry]
    · refine List.map_congr_left fun entry hentry => ?_
      simp [h.methods entry hentry]
  rw [hname, hkeys]
  exact (h.handles.map _).symm

theorem names_nodup (h : d.Matches m) : (m.functions.map IR.Function.name).Nodup :=
  h.names_perm.nodup_iff.mpr h.keys

/-- A record's handle is smaller than the number of functions. -/
theorem headers_append {header : String × List IRType × IRType} {id : IR.FunctionId}
    {more : List (String × List IRType × IRType)} (h : m.headers[id]? = some header) :
    (m.headers ++ more)[id]? = some header := by
  rw [List.getElem?_append_left (List.getElem?_eq_some_iff.mp h).1]
  exact h

end Declarations.Matches

namespace Declaring

variable {s s' : Declaring}

/-- Tables and module match while the declarations of a unit are taken. -/
abbrev Matching (s : Declaring) : Prop := s.declarations.Matches s.builder.module

namespace Matching

theorem type {name : String} {kind : AggregateKind} {fields : List (String × Ty)}
    {c c' : Cursor} {log : List Event} (h : s.Matching)
    (htypes : Ty.Tabled s.declarations.types)
    (hfree : s.declarations.types.contains name = false)
    (hdefinition : Scan.typeDefinition name kind s.declarations.types c = .ok fields c') :
    (s.withType name kind fields c' log).Matching where
  structs := by
    simp [withType, IR.Build.declareStruct, h.structs, Ty.fieldTypes, Ty.fields,
      Function.comp_def]
  types := by
    intro i entry hentry
    rcases of_getElem?_concat hentry with hold | ⟨rfl, rfl⟩
    · obtain ⟨kind', fields', hty, hfields⟩ := h.types i entry hold
      refine ⟨kind', fields', hty, fun field hfield => (hfields field hfield).imp_right ?_⟩
      rintro ⟨j, hj, hfind⟩
      exact ⟨j, hj, (List.getElem?_append_left (List.getElem?_eq_some_iff.mp hfind).1).trans hfind⟩
    · refine ⟨kind, fields, rfl, fun field hfield => ?_⟩
      have hstorable := Scan.storable_typeDefinition htypes name kind _ _ _ hdefinition field hfield
      cases hty : field.2 with
      | primitive p => exact Or.inl ⟨p, rfl⟩
      | aggregate n k fs =>
        have hmem := SymbolTable.mem_of_find? (hstorable.known (by rw [hty]; rfl))
        rw [hty] at hmem
        obtain ⟨j, hj⟩ := List.getElem?_of_mem hmem
        have hlt := (List.getElem?_eq_some_iff.mp hj).1
        exact Or.inr ⟨j, hlt, (List.getElem?_append_left hlt).trans hj⟩
  typeNames := by
    have hfresh := SymbolTable.not_mem_names hfree
    simp only [withType, SymbolTable.names, List.map_append, List.map_cons, List.map_nil]
    exact nodup_concat hfresh h.typeNames
  globals := h.globals
  addresses := h.addresses
  functions := h.functions
  methods := h.methods
  handles := h.handles
  keys := h.keys
  undotted := h.undotted

theorem global {name : String} {ty : Ty} {contents : IR.Constant} {c : Cursor} {log : List Event}
    (h : s.Matching) : (s.withGlobal name ty contents c log).Matching where
  structs := h.structs
  types := h.types
  typeNames := h.typeNames
  globals := by
    simp [withGlobal, IR.Build.addGlobal, IR.Value.constant?, h.globals]
  addresses := by
    intro i entry hentry
    rcases of_getElem?_concat hentry with hold | ⟨rfl, rfl⟩
    · exact h.addresses i entry hold
    · have hlength := congrArg List.length h.globals
      simp only [List.length_map] at hlength
      simp only [IR.Build.addGlobal, IR.Value.constant?, hlength]
  functions := h.functions
  methods := h.methods
  handles := h.handles
  keys := h.keys
  undotted := h.undotted

/-- Declaring a function in the module adds its header. -/
theorem headers_declared (s : Declaring) (name : String) (parameters : List (String × Ty))
    (result : Ty) :
    (s.declaredFunction name parameters result).module.headers
      = s.builder.module.headers ++
        [(name, parameters.map fun p => p.2.irType, result.irType)] := by
  simp [declaredFunction, IR.Build.declareFunction, IR.Module.headers, IR.Function.header]

theorem length_declared (s : Declaring) (name : String) (parameters : List (String × Ty))
    (result : Ty) :
    (s.declaredFunction name parameters result).module.functions.length = s.nextFunction + 1 := by
  simp [declaredFunction, IR.Build.declareFunction, nextFunction]

/-- The new function is the last one. -/
theorem header_next (s : Declaring) (header : String × List IRType × IRType) :
    (s.builder.module.headers ++ [header])[s.nextFunction]? = some header := by
  have hlength : s.nextFunction = s.builder.module.headers.length := by
    simp [nextFunction, IR.Module.headers]
  rw [hlength, List.getElem?_concat_length]

theorem function {name : String} {signature : Signature} {resume : Nat} {c c' c'' : Cursor}
    {log : List Event} (h : s.Matching) (hs : s.Sound)
    (hfree : s.declarations.functions.contains name = false)
    (hheader : Scan.declaration s.declarations.types c = .ok (.function name signature) c') :
    (s.withFunction name signature resume c'' log).Matching where
  structs := h.structs
  types := h.types
  typeNames := h.typeNames
  globals := h.globals
  addresses := h.addresses
  functions := by
    simp only [withFunction, headers_declared]
    refine forall_concat
      (fun entry hentry => Declarations.Matches.headers_append (h.functions entry hentry)) ?_
    rw [header_next]
    simp [Signature.argumentTypes]
  methods := by
    simp only [withFunction, headers_declared]
    exact fun entry hentry => Declarations.Matches.headers_append (h.methods entry hentry)
  handles := by
    simp only [withFunction, length_declared, List.range_succ, Declarations.handles,
      List.map_append, List.map_cons, List.map_nil, List.append_assoc]
    refine (List.perm_append_comm.append_left _).trans ?_
    rw [← List.append_assoc]
    exact h.handles.append_right _
  keys := by
    have hname := Scan.namedPlainly_declaration _ _ _ _ hheader name signature rfl
    -- The key of a method has a dot and the name of a function has none, so the two never meet.
    have hmethod : name ∉ s.declarations.methods.names := by
      intro hmem
      obtain ⟨entry, hentry, rfl⟩ := List.mem_map.mp hmem
      obtain ⟨member, hkey⟩ := (hs.declarations.methods entry hentry).keyed
      exact Declarations.dotted_methodKey _ _ (hkey ▸ hname)
    have hkeys : name ∉ s.declarations.keys := by
      simp only [Declarations.keys, List.mem_append, not_or]
      exact ⟨SymbolTable.not_mem_names hfree, hmethod⟩
    simp only [withFunction, Declarations.keys, SymbolTable.names, List.map_append, List.map_cons,
      List.map_nil, List.append_assoc]
    exact (List.perm_append_comm.append_left _).nodup_iff.mpr (by
      rw [← List.append_assoc]
      exact nodup_concat hkeys h.keys)
  undotted := by
    simp only [withFunction, SymbolTable.names, List.map_append, List.map_cons, List.map_nil]
    exact forall_concat h.undotted
      (Scan.namedPlainly_declaration _ _ _ _ hheader name signature rfl)

theorem method {name receiver : String} {owner : Ty} {signature : Signature} {resume : Nat}
    {c : Cursor} {log : List Event} (h : s.Matching)
    (hfree : s.declarations.methods.contains (Declarations.methodKey owner name) = false) :
    (s.withMethod name receiver owner signature resume c log).Matching where
  structs := h.structs
  types := h.types
  typeNames := h.typeNames
  globals := h.globals
  addresses := h.addresses
  functions := by
    simp only [withMethod, headers_declared]
    exact fun entry hentry => Declarations.Matches.headers_append (h.functions entry hentry)
  methods := by
    simp only [withMethod, headers_declared]
    refine forall_concat
      (fun entry hentry => Declarations.Matches.headers_append (h.methods entry hentry)) ?_
    rw [header_next]
    simp [Signature.argumentTypes]
  handles := by
    simp only [withMethod, length_declared, List.range_succ, Declarations.handles,
      List.map_append, List.map_cons, List.map_nil]
    rw [← List.append_assoc]
    exact h.handles.append_right _
  keys := by
    have hkeys : Declarations.methodKey owner name ∉ s.declarations.keys := by
      simp only [Declarations.keys, List.mem_append, not_or]
      exact ⟨fun hmem => Declarations.dotted_methodKey owner name (h.undotted _ hmem),
        SymbolTable.not_mem_names hfree⟩
    simp only [withMethod, Declarations.keys, SymbolTable.names, List.map_append, List.map_cons,
      List.map_nil]
    rw [← List.append_assoc]
    exact nodup_concat hkeys h.keys
  undotted := h.undotted

/-- Every declaration keeps tables and module in step. -/
theorem step (h : s.Matching) (hs : s.Sound) (hstep : Declare.Step s s') : s'.Matching := by
  cases hstep with
  | type _ _ hfree _ hdefinition => exact h.type hs.declarations.types hfree hdefinition
  | global => exact h.global
  | function _ hheader hfree => exact h.function hs hfree hheader
  | method _ _ hfree => exact h.method hfree

end Matching

end Declaring

end Straightline
