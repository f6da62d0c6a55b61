import Straightline.Proofs.IR.Handles
import Straightline.Proofs.IR.PrintedModules
import Straightline.Proofs.Units.Symbols

/-!
# The text of what was compiled

All names of a program are words, and no word holds what stands behind a name in print. So the module of every
project can be read (`Project.readable_module`), and of two projects that give the same text under the same
name, the modules are the same (`text_tells_module`).
-/

set_option autoImplicit false

namespace Straightline

open IR (IsName)

/-! ## Names -/

namespace Scan

/-- Whatever stands behind a name ends a word. -/
theorem isName_nonemptyWord : Ensures nonemptyWord fun _ name _ => IsName name := by
  refine ensures_nonemptyWord fun c name c' h ch hch hstop => ?_
  have hlacks : ∀ b : UInt8, Byte.isSpecial b = true → 0 < b.toNat → b.toNat < 128 → ch ≠ Byte.toChar b :=
    fun b hspecial hpos hlt he => lacks_word hspecial hpos hlt c name c' h (he ▸ hch)
  simp only [IR.stops, List.mem_cons, List.not_mem_nil, or_false] at hstop
  rcases hstop with hstar | hspace | hcomma | hopen | hclose | hfeed
  · exact hlacks 0x2A (by decide) (by decide) (by decide) hstar
  · exact hlacks Byte.space (by decide) (by decide) (by decide) hspace
  · exact hlacks Byte.comma (by decide) (by decide) (by decide) hcomma
  · exact hlacks Byte.openParen (by decide) (by decide) (by decide) hopen
  · exact hlacks Byte.closeParen (by decide) (by decide) (by decide) hclose
  · exact hlacks Byte.lineFeed (by decide) (by decide) (by decide) hfeed

end Scan

theorem isName_methodKey (owner : Ty) (name : String) (howner : IsName owner.name) (hname : IsName name) :
    IsName (Declarations.methodKey owner name) := by
  have hdot : IsName "." := by decide
  unfold Declarations.methodKey IsName
  rw [String.toList_append, String.toList_append]
  exact List.forall_mem_append.mpr ⟨List.forall_mem_append.mpr ⟨howner, hdot⟩, hname⟩

/-! ## Bodies -/

namespace IR

variable {m : Module}

theorem Module.Written.modify (h : m.Written) (id : FunctionId) {change : Function → Function}
    (hchange : ∀ f ∈ m.functions, ∀ inst ∈ (change f).insts, inst.op.Written IsName) :
    Module.Written { m with functions := m.functions.modify id change } := by
  intro f hf
  obtain ⟨i, hi⟩ := List.getElem?_of_mem hf
  rw [List.getElem?_modify] at hi
  obtain ⟨f', hf', rfl⟩ := Option.map_eq_some_iff.mp hi
  have hmem := List.mem_of_getElem? hf'
  split
  · exact hchange f' hmem
  · exact h f' hmem

namespace Builder

/-- What was written before, if `b` was, is written after. -/
def KeepsWritten (b b' : Builder) : Prop := b.module.Written → b'.module.Written

theorem keepsWritten_emit (b : Builder) (ty : IRType) {op : Op} (hop : op.Written IsName) :
    b.KeepsWritten (Build.emit ty op b).2 := by
  intro h
  unfold Build.emit
  split
  · split
    · exact h
    · refine h.modify _ fun f hf inst hinst => ?_
      by_cases hblocks : f.blocks = []
      · simp [Function.append, Function.insts, hblocks] at hinst
      · rw [f.insts_append _ hblocks] at hinst
        rcases List.mem_append.mp hinst with hinst | hinst
        · exact h f hf inst hinst
        · rw [List.mem_singleton.mp hinst]
          exact hop
  · exact h

theorem keepsWritten_openEntry (b : Builder) (id : FunctionId) :
    b.KeepsWritten (Build.openEntry id b).2 := by
  intro h
  unfold Build.openEntry
  split
  · refine h.modify _ fun f hf => ?_
    rw [f.insts_openBlock]
    exact h f hf
  · exact h

instance : Frame IsName KeepsWritten where
  word := Scan.isName_nonemptyWord
  refl := fun _ h => h
  trans := fun hfirst hnext h => hnext (hfirst h)
  record := fun _ _ h => h
  emit := fun b ty _ hop => keepsWritten_emit b ty hop

end Builder

end IR

namespace BodyContext

variable {d : Declarations} {source : List UInt8}

theorem written_emitPendings {bodies : List PendingBody} {s s' : Emission}
    (hbodies : ∀ body ∈ bodies, ∀ p ∈ body.parameters, IsName p.1) (h : s.builder.module.Written)
    (hs : bodies.forM (emitPending d source) s = .ok () s') : s'.builder.module.Written := by
  induction bodies generalizing s with
  | nil =>
    cases hs
    exact h
  | cons body rest ih =>
    obtain ⟨_, s₁, hbody, hrest⟩ := bind_ok hs
    obtain ⟨hparameters, hothers⟩ := List.forall_mem_cons.mp hbodies
    have hframed := framed_emitOpened (R := IR.Builder.KeepsWritten) d source hparameters (opened body s)
    rw [← emitPending_eq, hbody] at hframed
    exact ih hothers (hframed (IR.Builder.keepsWritten_openEntry _ _ h)) hrest

end BodyContext

/-! ## Declarations -/

namespace Declaring

variable {s s' : Declaring}

/-- A function has no instructions when it is declared. -/
theorem written_step (h : s.builder.module.Written) (hstep : Declare.Step s s') :
    s'.builder.module.Written := by
  have hfunction : ∀ (name : String) (params : List IRType) (ret : IRType),
      ∀ f ∈ s.builder.module.functions ++ [⟨name, params, ret, []⟩], ∀ inst ∈ f.insts,
        inst.op.Written IsName :=
    fun name params ret => forall_concat h fun _ hinst => nomatch hinst
  cases hstep with
  | type | global => exact h
  | function | method => exact hfunction _ _ _

end Declaring

/-! ## Projects -/

namespace Project

variable {p q : Project}

/-- Tables and module correspond, everything has a name, and so have all slots. -/
structure Written (p : Project) : Prop where
  corresponds : p.Corresponds
  names : p.declarations.Named IsName
  written : p.builder.module.Written

theorem written_start (name : String) : (start name).Written where
  corresponds := corresponds_start name
  names := by constructor <;> simp [start, SymbolTable.empty, SymbolTable.names, Declarations.keys]
  written := by simp [start, IR.Builder.start, IR.Module.Written]

theorem Written.of_sameTables (h : p.Written) (hsame : p.SameTables q) : q.Written :=
  ⟨h.corresponds.of_sameTables hsame, hsame.declarations ▸ h.names, hsame.module ▸ h.written⟩

theorem Written.takeUnit {unit : SourceUnit} (h : p.Written)
    (hok : (p.takeUnit unit).result = .ok ()) : (p.takeUnit unit).project.Written := by
  have hcorresponds := h.corresponds.takeUnit hok
  obtain ⟨s, made, hdeclare, hloop, hproject⟩ := takeUnit_ok hok
  rw [hproject] at hcorresponds ⊢
  obtain ⟨log, hsteps, _⟩ := Declare.declareAll_steps (p.listed_opening unit) hdeclare
  obtain ⟨_, hnames, hlabels, hwritten⟩ := hsteps.invariant
    (P := fun s => s.Sound ∧ s.declarations.Named IsName ∧ s.Labelled IsName ∧
      s.builder.module.Written)
    (fun ⟨hsound, hnames, hlabels, hwritten⟩ hstep =>
      ⟨hsound.step hstep, Declaring.named_step Scan.isName_nonemptyWord isName_methodKey hsound hnames hstep,
        Declaring.labelled_step Scan.isName_nonemptyWord hlabels hstep,
        Declaring.written_step hwritten hstep⟩)
    (fun ⟨hsound, hrest⟩ _ => ⟨⟨hsound.declarations, hsound.globals, hsound.defects, hsound.functions,
      hsound.ready, hsound.distinct⟩, hrest⟩)
    ⟨h.corresponds.awaits, h.names, by simp [opening, Declaring.Labelled, Declaring.bodies, Pending.names], h.written⟩
  exact ⟨hcorresponds, hnames.of_settled (Declarations.settled_withoutResumes _ _),
    BodyContext.written_emitPendings hlabels hwritten hloop⟩

theorem Written.run (h : p.Written) (units : List SourceUnit) : (p.run units).Written :=
  run_invariant Written.of_sameTables Written.takeUnit h units

/-- The module of every project can be read. -/
theorem readable_module (name : String) (units : List SourceUnit) :
    ((start name).run units).builder.module.Readable
      (Ty.kinds ((start name).run units).declarations.types) := by
  have hwritten := (written_start name).run units
  have hspelled := (spelled_start name).run units
  have hmatching := hwritten.corresponds.matching
  have hnamed := IR.Module.named_of_spelled hspelled (typed_module name units)
  refine ⟨typed_module name units, fun d hd => ?_, fun g hg => ?_, fun f hf => ?_, hnamed.globalNames,
    hnamed.functionNames, hwritten.written⟩
  · rw [hmatching.structs] at hd
    obtain ⟨entry, hentry, rfl⟩ := List.mem_map.mp hd
    exact hwritten.names.types _ (List.mem_map_of_mem hentry)
  · exact hwritten.names.globals _ (hmatching.globals_names ▸ List.mem_map_of_mem hg)
  · exact hwritten.names.keys _ (hmatching.names_perm.subset (List.mem_map_of_mem hf))

end Project

/-- The text loses nothing. -/
theorem text_tells_module {name name' : String} {units units' : List SourceUnit} {m m' : IR.Module}
    (hm : ((Project.start name).run units).finish = .ok m)
    (hm' : ((Project.start name').run units').finish = .ok m') (hname : m.name = m'.name)
    (htext : m.text = m'.text) : m = m' := by
  rw [(Project.module_passes name units).1] at hm
  rw [(Project.module_passes name' units').1] at hm'
  cases hm
  cases hm'
  exact IR.Module.text_injective (Project.readable_module name units)
    (Project.readable_module name' units') hname htext

/-- The program `making` in two units, with other blanks and another name for the field. -/
def makingApart : List SourceUnit :=
  [{ name := "box", bytes := "Box : model = ( inside : Int8 )\n\nlast: Int8 =  1".toList.map Char.toUInt8 },
    { name := "make", bytes :=
        "make: ()  -> Box = \x7b return Box( last )\n\n\x7d\n".toList.map Char.toUInt8 }]

/-- The text of `making` is the same when it comes apart, and so is the module. -/
theorem text_tells_module_making :
    ∃ m m', ((Project.start "p").run [making]).finish = .ok m ∧
      ((Project.start "p").run makingApart).finish = .ok m' ∧ m.text = m'.text ∧ m = m' := by
  have hsame : ∃ m, ((Project.start "p").run [making]).finish = .ok m ∧
      ∃ m', ((Project.start "p").run makingApart).finish = .ok m' ∧ m.name = m'.name ∧ m.text = m'.text := by
    decide +kernel
  obtain ⟨m, hm, m', hm', hname, htext⟩ := hsame
  exact ⟨m, m', hm, hm', htext, text_tells_module hm hm' hname htext⟩

end Straightline
