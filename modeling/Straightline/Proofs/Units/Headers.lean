import Straightline.Proofs.Declaring.PrintedHeaders
import Straightline.Proofs.Units.Constants

/-!
# Headers are read back

Types are declared under words, so in every table of types that some units can lead to, a type is named
by a word (`Project.worded_declares`). So whatever can be declared there is read back from its header,
however that is printed (`Project.header_printed`).
-/

set_option autoImplicit false

namespace Straightline

/-! ## Types are named by words -/

namespace Declaring

variable {s s' : Declaring}

theorem worded_step (h : s.declarations.types.Worded) (hstep : Declare.Step s s') :
    s'.declarations.types.Worded := by
  cases hstep with
  | type _ hheader =>
    exact SymbolTable.forall_names_concat h
      (Scan.named_declaration Scan.isWord_nonemptyWord _ _ _ _ hheader)
  | global | function | method => exact h

end Declaring

namespace Project

variable {p q : Project} {unit : SourceUnit}

/-- Every type of the project is named by a word. -/
def Worded (p : Project) : Prop := p.declarations.types.Worded

theorem worded_start (name : String) : (start name).Worded := by
  simp [Worded, SymbolTable.Worded, start, SymbolTable.empty, SymbolTable.names]

theorem Worded.declareAll {pending : Pending} {s : Declaring} (h : p.Worded)
    (hs : Declare.declareAll (p.opening unit) = .ok pending s) : s.declarations.types.Worded := by
  obtain ⟨log, hsteps, rfl⟩ := Declare.declareAll_steps (p.listed_opening unit) hs
  exact hsteps.invariant (P := fun s => s.declarations.types.Worded) Declaring.worded_step
    (fun hs _ => hs) h

theorem Worded.takeUnit (h : p.Worded) (hok : (p.takeUnit unit).result = .ok ()) :
    (p.takeUnit unit).project.Worded := by
  obtain ⟨s, made, hdeclare, _, hproject⟩ := takeUnit_ok hok
  rw [hproject, Worded, Declarations.types_of_settled (s.declarations.settled_withoutResumes s.pending.names)]
  exact h.declareAll hdeclare

theorem Worded.of_sameTables (h : p.Worded) (hsame : p.SameTables q) : q.Worded := by
  rw [Worded, hsame.declarations]
  exact h

theorem Worded.run (h : p.Worded) (units : List SourceUnit) : (p.run units).Worded :=
  run_invariant Worded.of_sameTables Worded.takeUnit h units

theorem Worded.declares {s : Declaring} (h : p.Worded) (hs : p.Declares unit s) :
    s.declarations.types.Worded :=
  hs.elim (fun hrounds => hrounds.invariant (P := fun s => s.declarations.types.Worded)
    (p.listed_opening unit) Declaring.worded_step h) fun ⟨_, hdeclare⟩ => h.declareAll hdeclare

/-! ## Headers -/

/-- Wherever the declarations of a unit can be taken, a declaration that is possible there is read from
its header however that is printed, if the header ends with the source or at a byte that ends words.
The cursor stays right behind the last token. -/
theorem header_printed {name : String} {units : List SourceUnit} {s : Declaring}
    (hs : ((start name).run units).Declares unit s) {d : Declaration} {tokens : List (List UInt8)}
    {text rest : List UInt8} (hd : d.Declarable s.declarations.types) (htokens : d.Tokens tokens)
    (hprinted : Printed tokens text) (hrest : Ended rest) (offset : Nat) :
    Scan.declaration s.declarations.types ⟨text ++ rest, offset⟩
      = .ok d ⟨rest, offset + text.length⟩ :=
  Scan.accepts_declaration (((worded_start name).run units).declares hs) hd htokens hprinted hrest offset

/-- A unit that declares a type. -/
def pointing : SourceUnit where
  name := "point.sl"
  bytes := "Point : struct = (x: Int32, y: Int32)\n".toList.map Char.toUInt8

/-- The type that it declares. -/
def pointTy : Ty := .aggregate "Point" .struct [("x", .primitive .int32), ("y", .primitive .int32)]

/-- A method on it that takes a number and gives one. -/
def scaling : Declaration :=
  .method "scale" "self" pointTy ⟨[("by", .primitive .int32)], .primitive .int32⟩

/-- In its long shape the header of the method is read over three lines, with blanks in odd places. -/
theorem header_printed_scaling :
    ∃ s, ((start "point").run [pointing]).Declares pointing s ∧
      Scan.declaration s.declarations.types
          ⟨" Point.scale\r\n: ( self:Point)->(by :Int32 )\r\n-> Int32 = \x7b".toList.map Char.toUInt8, 40⟩
        = .ok scaling ⟨" = \x7b".toList.map Char.toUInt8, 93⟩ := by
  obtain ⟨s, hs, htypes⟩ : ∃ s, ((start "point").run [pointing]).Declares pointing s ∧
      s.declarations.types = ⟨[("Point", pointTy)]⟩ := ⟨_, .inl .none, by decide +kernel⟩
  have hd : scaling.Declarable s.declarations.types := by
    rw [htypes]
    refine ⟨⟨by decide +kernel, by decide +kernel⟩, ⟨by decide +kernel, by decide +kernel⟩,
      by decide +kernel, rfl, ?_, ?_, ?_, ?_⟩
    · simpa using ⟨by decide +kernel, by decide +kernel⟩
    · simp [Ty.isVoid]
    · simp only [List.mem_singleton, forall_eq]
      decide +kernel
    · decide +kernel
  have hread := header_printed hs hd
    (.long "scale" "self" pointTy (.mk (.some (.labelled "by" (.primitive .int32)) .close)))
    (.cons .space _ (.cons .line _ (.cons .space _ (.cons .space _ (.cons .none _ (.cons .none _
      (.cons .none _ (.cons .none _ (.cons .none _ (.cons .none _ (.cons .space _ (.cons .none _
        (.cons .space _ (.cons .line _ (.cons .space _ .nil)))))))))))))))
    (show Ended (" = \x7b".toList.map Char.toUInt8) from .cons rfl) 40
  refine ⟨s, hs, (congrArg (Scan.declaration _) ?_).trans
    (hread.trans (congrArg (EStateM.Result.ok scaling) ?_))⟩
  · decide +kernel
  · decide +kernel

end Project

end Straightline
