import Straightline.Proofs.Declaring.Words
import Straightline.Proofs.IR.Symbols
import Straightline.Proofs.Units.Typed

/-!
# Symbols of what was compiled

Names are words, and every table takes a name once (`Declarations.Spelled`). So the lines of the text
introduce one symbol for each global, each function and the allocator, and globals and functions are named
apart among themselves. But the tables are four, and their names go into one space of symbols: the symbols
are distinct exactly if no global shares the name of a function, and nothing that of the allocator while it
is used (`symbols_distinct_iff`). No unit is refused for either (`symbols_distinct_fails`).
-/

set_option autoImplicit false

namespace Straightline

/-! ## Spelling -/

/-- Every declared name is read as it is, and no two globals share one. -/
structure Declarations.Spelled (d : Declarations) : Prop where
  types : ∀ name ∈ d.types.names, Straightline.Spelled name
  globals : ∀ name ∈ d.globals.names, Straightline.Spelled name
  keys : ∀ name ∈ d.keys, Straightline.Spelled name
  distinct : d.globals.names.Nodup

theorem Declarations.Spelled.of_settled {d d' : Declarations} (h : d.Spelled)
    (hsettled : d'.settled = d.settled) : d'.Spelled where
  types := types_of_settled hsettled ▸ h.types
  globals := globals_of_settled hsettled ▸ h.globals
  keys := keys_of_settled hsettled ▸ h.keys
  distinct := globals_of_settled hsettled ▸ h.distinct

namespace Declaring

variable {s s' : Declaring}

theorem spelled_methodKey (owner : Ty) (name : String) (howner : Spelled owner.name)
    (hname : Spelled name) : Spelled (Declarations.methodKey owner name) :=
  (howner.append ⟨by decide, by decide⟩).append hname

theorem spelled_step (hs : s.Sound) (h : s.declarations.Spelled) (hstep : Declare.Step s s') :
    s'.declarations.Spelled := by
  obtain ⟨htypes, hglobals, hkeys⟩ :=
    named_step Scan.spelled_nonemptyWord spelled_methodKey hs ⟨h.types, h.globals, h.keys⟩ hstep
  refine ⟨htypes, hglobals, hkeys, ?_⟩
  cases hstep with
  | global _ _ hfree =>
    simp only [withGlobal, SymbolTable.names, List.map_append, List.map_cons, List.map_nil]
    exact nodup_concat (SymbolTable.not_mem_names hfree) h.distinct
  | type | function | method => exact h.distinct

end Declaring

namespace Project

variable {p q : Project}

/-- Tables and module correspond, and the tables hold words. -/
structure Spelled (p : Project) : Prop where
  corresponds : p.Corresponds
  names : p.declarations.Spelled

theorem spelled_start (name : String) : (start name).Spelled where
  corresponds := corresponds_start name
  names := by constructor <;> simp [start, SymbolTable.empty, SymbolTable.names, Declarations.keys]

theorem Spelled.takeUnit {unit : SourceUnit} (h : p.Spelled)
    (hok : (p.takeUnit unit).result = .ok ()) : (p.takeUnit unit).project.Spelled := by
  refine ⟨h.corresponds.takeUnit hok, ?_⟩
  obtain ⟨s, made, hdeclare, _, hproject⟩ := takeUnit_ok hok
  rw [hproject]
  obtain ⟨log, hsteps, _⟩ := Declare.declareAll_steps (p.listed_opening unit) hdeclare
  refine Declarations.Spelled.of_settled (hsteps.invariant (P := fun s => s.Sound ∧ s.declarations.Spelled) ?_ ?_
    ⟨?_, h.names⟩).2 (Declarations.settled_withoutResumes _ _)
  · exact fun hs hstep => ⟨hs.1.step hstep, Declaring.spelled_step hs.1 hs.2 hstep⟩
  · exact fun hs _ => ⟨⟨hs.1.declarations, hs.1.globals, hs.1.defects, hs.1.functions, hs.1.ready,
      hs.1.distinct⟩, hs.2⟩
  · exact h.corresponds.awaits

theorem Spelled.of_sameTables (h : p.Spelled) (hsame : p.SameTables q) : q.Spelled :=
  ⟨h.corresponds.of_sameTables hsame, hsame.declarations ▸ h.names⟩

theorem Spelled.run (h : p.Spelled) (units : List SourceUnit) : (p.run units).Spelled :=
  run_invariant Spelled.of_sameTables Spelled.takeUnit h units

end Project

/-! ## Modules -/

namespace IR.Module

/-- The names in a module are read as they are, and globals and functions are named apart among
themselves. -/
structure Named (m : Module) : Prop where
  globals : ∀ g ∈ m.globals, ' ' ∉ g.name.toList
  functions : ∀ f ∈ m.functions, f.Legible
  globalNames : (m.globals.map Global.name).Nodup
  functionNames : (m.functions.map Function.name).Nodup

/-- The text of a value's type holds no blank. -/
theorem blank_held {kinds : Kinds} {ty : IRType}
    (hnames : ∀ name k, kinds name = some k → ' ' ∉ name.toList) (h : Held kinds ty) :
    ' ' ∉ ty.text.toList := by
  cases h with
  | int hbits =>
    rcases mem_widths.mp hbits with rfl | rfl | rfl | rfl | rfl <;> decide
  | struct hk => simpa [IRType.text, String.toList_append] using hnames _ _ hk
  | model hk => simpa [IRType.text, String.toList_append] using hnames _ _ hk

theorem named_of_spelled {p : Project} {kinds : Kinds} (h : p.Spelled)
    (htyped : p.builder.module.Typed kinds) : p.builder.module.Named := by
  have hmatching := h.corresponds.matching
  have hglobals := hmatching.globals_names
  have hnames : ∀ name k, kinds name = some k → ' ' ∉ name.toList := by
    intro name k hk
    obtain ⟨d, hd⟩ := htyped.declared name k hk
    obtain ⟨hmem, rfl⟩ := of_structDef? hd
    rw [hmatching.structs] at hmem
    obtain ⟨entry, hentry, rfl⟩ := List.mem_map.mp hmem
    exact (h.names.types _ (List.mem_map_of_mem hentry)).blank
  refine ⟨fun g hg => ?_, fun f hf => ⟨?_, ?_, h.corresponds.entered_of_mem hf⟩,
    hglobals ▸ h.names.distinct, hmatching.names_nodup⟩
  · exact (h.names.globals _ (hglobals ▸ List.mem_map_of_mem hg)).blank
  · exact (h.names.keys _ (hmatching.names_perm.subset (List.mem_map_of_mem hf))).bracket
  · rcases (htyped.functions f hf).ret with hvoid | hheld
    · rw [hvoid]
      decide
    · exact blank_held hnames hheld

end IR.Module

theorem named_of_buildModule {units : List SourceUnit} {options : CompileOptions} {m : IR.Module}
    (h : (buildModule units options).result = .ok m) : m.Named := by
  rw [module_of_buildModule h]
  exact IR.Module.named_of_spelled ((Project.spelled_start options.projectName).run units)
    (Project.typed_module options.projectName units)

theorem emitText_of_build {units : List SourceUnit} {options : CompileOptions} {m : IR.Module}
    (h : (buildModule units options).result = .ok m) : (emitText units options).result = .ok m.text := by
  change ((buildModule units options).result.map IR.Module.text) = .ok m.text
  rw [h]
  rfl

theorem of_emitText {units : List SourceUnit} {options : CompileOptions} {text : String}
    (h : (emitText units options).result = .ok text) :
    ∃ m, (buildModule units options).result = .ok m ∧ text = m.text := by
  change ((buildModule units options).result.map IR.Module.text) = .ok text at h
  cases hbuild : (buildModule units options).result with
  | error e =>
    rw [hbuild] at h
    cases h
  | ok m =>
    rw [hbuild] at h
    cases h
    exact ⟨m, rfl, rfl⟩

/-- Which symbols the text of a program introduces. There is one for each global, one for each function and
one for the allocator if the program uses it, and no other symbol is used. They are distinct, so that
whatever is used stands for one definition, exactly if no global shares the name of a function, and nothing
that of the allocator while it is used. -/
theorem symbols_distinct_iff {units : List SourceUnit} {options : CompileOptions} {text : String}
    (hemit : (emitText units options).result = .ok text) :
    ∃ m, (buildModule units options).result = .ok m ∧ text = m.text ∧
      m.lines.filterMap IR.Module.introduced? = m.symbols ∧
      (m.symbols.Nodup ↔
        (∀ g ∈ m.globals, ∀ f ∈ m.functions, g.name ≠ f.name) ∧
        (m.usesHeap = true →
          (∀ g ∈ m.globals, g.name ≠ "malloc") ∧ ∀ f ∈ m.functions, f.name ≠ "malloc")) ∧
      ∀ name ∈ m.references, name ∈ m.symbols ∧ (m.symbols.Nodup → m.symbols.count name = 1) := by
  obtain ⟨m, hbuild, rfl⟩ := of_emitText hemit
  obtain ⟨kinds, htyped⟩ := typed_of_buildModule hbuild
  have hnamed := named_of_buildModule hbuild
  refine ⟨m, hbuild, rfl, IR.Module.introduced_lines hnamed.globals hnamed.functions,
    IR.Module.symbols_nodup_iff hnamed.globalNames hnamed.functionNames, fun name hname => ?_⟩
  have hmem := IR.Module.references_subset htyped name hname
  exact ⟨hmem, fun hnodup => List.count_eq_one_of_mem hnodup hmem⟩

/-- A global, and a function that makes a model of it. -/
def making : SourceUnit where
  name := "making"
  bytes := ("Box: model = (n: Int8)\nlast: Int8 = 1\n" ++
    "make: () -> Box = \x7b\n  return Box(last)\n\x7d\n").toList.map Char.toUInt8

/-- The three symbols of that program are distinct, and each that is used stands for one definition. -/
theorem symbols_distinct_iff_making :
    ∃ m : IR.Module, (emitText [making] {}).result = .ok m.text ∧
      m.lines.filterMap IR.Module.introduced? = ["@last", "@make", "@malloc"] ∧
      m.references = ["@last", "@malloc"] ∧ ∀ name ∈ m.references, m.symbols.count name = 1 := by
  have hcheck : ∃ m, (buildModule [making] {}).result = .ok m ∧
      m.symbols = ["@last", "@make", "@malloc"] ∧ m.references = ["@last", "@malloc"] := by
    decide +kernel
  obtain ⟨m, hbuild, hsymbols, hreferences⟩ := hcheck
  have hemit := emitText_of_build hbuild
  obtain ⟨m', hbuild', _, hlines, _, hused⟩ := symbols_distinct_iff hemit
  cases hbuild.symm.trans hbuild'
  refine ⟨m, hemit, hlines.trans hsymbols, hreferences, fun name hname => (hused name hname).2 ?_⟩
  rw [hsymbols]
  decide

/-- A global and a function of one name. -/
def sharing : SourceUnit where
  name := "sharing"
  bytes := "x: Int8 = 1\nx: () -> Int8 = \x7b\n  return x\n\x7d\n".toList.map Char.toUInt8

/-- A function that makes a model, and has the name of the allocator. -/
def allocating : SourceUnit where
  name := "allocating"
  bytes := ("N: model = (a: Int8)\nmalloc: () -> N = \x7b\n  return N(1)\n\x7d\n").toList.map
    Char.toUInt8

/-- The text of both programs is emitted, and introduces a symbol twice that it uses. -/
theorem symbols_distinct_fails :
    (∃ m : IR.Module, (emitText [sharing] {}).result = .ok m.text ∧
      m.lines.filterMap IR.Module.introduced? = ["@x", "@x"] ∧ m.references = ["@x"]) ∧
    ∃ m : IR.Module, (emitText [allocating] {}).result = .ok m.text ∧
      m.lines.filterMap IR.Module.introduced? = ["@malloc", "@malloc"] ∧ m.references = ["@malloc"] := by
  have hfails : ∀ (unit : SourceUnit) (name : String),
      (∃ m, (buildModule [unit] {}).result = .ok m ∧ m.symbols = [name, name] ∧
        m.references = [name]) →
      ∃ m : IR.Module, (emitText [unit] {}).result = .ok m.text ∧
        m.lines.filterMap IR.Module.introduced? = [name, name] ∧ m.references = [name] := by
    rintro unit name ⟨m, hbuild, hsymbols, hreferences⟩
    have hnamed := named_of_buildModule hbuild
    exact ⟨m, emitText_of_build hbuild,
      (IR.Module.introduced_lines hnamed.globals hnamed.functions).trans hsymbols, hreferences⟩
  exact ⟨hfails sharing "@x" (by decide +kernel), hfails allocating "@malloc" (by decide +kernel)⟩

end Straightline
