import Mathlib.Data.List.MinMax
import Mathlib.Order.Nat
import Straightline.CommandLine.Execute
import Straightline.Proofs.CommandLine.Making
import Straightline.Proofs.Control
import Straightline.Proofs.Reading.Encoding

/-!
# What a run leaves behind

The output can be written if the directories around it can be made, and its path then leads to a file or to a name
that is free (`FileSystem.Writable`). Then the path leads to a file with what was written. Only this file has
another content than before, only missing directories around it were made, and only if no file was there its name
is new (`FileSystem.Written`). Whatever links and names the path leads through, this holds of the file where it
ends.

A run compiles before it writes. So it either yields bytes and all that it does is to write them, or it fails
and all files are what they were (`execute_touches`).
-/

set_option autoImplicit false

namespace Straightline

open FileTree (Kind)

namespace FileSystem

variable {fs fs' : FileSystem} {root : FileTree Nat} {path : String} {bytes : List UInt8}
variable {place other : Place} {number : Nat}

/-- The steps of the path before the last lead to the directory at `place`, or go through it. -/
def Around (fs : FileSystem) (path : String) (place : Place) : Prop :=
  ∃ before rest links, steps path = before ++ rest ∧ rest ≠ [] ∧
    walk fs.kind? links (origin fs.current (steps path)) before = some (.there place)

/-- The directories around the path that are missing can be made, which leads to `root`. -/
def MakesAround (fs : FileSystem) (path : String) (root : FileTree Nat) : Prop :=
  if parentPath path = "" then root = fs.root
  else Makes fs.root (origin fs.current (steps (parentPath path))) (steps (parentPath path)) root

/-- The path leads to a file, or to a name that is free. -/
def Takes (fs : FileSystem) (path : String) : Prop :=
  (∃ place number, fs.locate path = some (.there place) ∧ fs.kind? place = some (.file number)) ∨
    ∃ place, fs.locate path = some (.free place)

/-- In `fs'` the path leads to the file `number` at `place`, which has these bytes and was there before, or is
new. Directories around the path were made where nothing was, and everything else is as it is in `fs`. -/
structure Written (fs fs' : FileSystem) (path : String) (bytes : List UInt8) (place : Place) (number : Nat) :
    Prop where
  leads : fs'.locate path = some (.there place)
  stands : fs'.kind? place = some (.file number)
  content : fs'.contents number = bytes
  before : fs.kind? place = some (.file number) ∨
    fs.kind? place = none ∧ ∀ other, fs.kind? other ≠ some (.file number)
  contents : ∀ other, other ≠ number → fs'.contents other = fs.contents other
  others : ∀ other, other ≠ place → fs'.kind? other = fs.kind? other ∨
    fs.kind? other = none ∧ fs'.kind? other = some .directory ∧ fs'.Around path other
  current : fs'.current = fs.current

/-! ## One file -/

/-- Only the empty path has no step but an empty one. -/
theorem eq_empty_of_steps (h : steps path = [""]) : path = "" := by
  obtain ⟨piece, hsplit, hpiece⟩ := List.map_eq_singleton_iff.mp h
  have hpath : ['/'].intercalate (path.toList.splitOn '/') = path.toList := List.intercalate_splitOn '/'
  rw [hsplit, List.intercalate_singleton] at hpath
  rw [← String.ofList_toList (s := path), ← hpath, hpiece]

/-- The directories that were made for the path lie around it. -/
theorem MakesAround.onlyMakes (h : fs.MakesAround path root) :
    ∃ before rest, rest ≠ [] ∧ steps path = before ++ rest ∧
      OnlyMakes fs.root root (origin fs.current (steps path)) before := by
  unfold MakesAround at h
  split at h
  case isTrue =>
    subst h
    exact ⟨[], _, steps_ne_nil path, rfl, fun _ => .inl rfl⟩
  case isFalse hparent =>
    obtain ⟨rest, hrest, hsteps⟩ := steps_parentPath hparent
    refine ⟨_, rest, hrest, hsteps, ?_⟩
    rw [hsteps, origin_append (fun h => hparent (eq_empty_of_steps h)) (steps_ne_nil _)]
    exact h.onlyMakes

/-- A file that was written where directories had been made before. -/
theorem Written.after (h : Written { fs with root } fs' path bytes place number)
    (hothers : ∀ other, other ≠ place → fs'.kind? other = kindAt root other)
    (hmakes : fs.MakesAround path root) : Written fs fs' path bytes place number := by
  obtain ⟨before, rest, hrest, hsteps, honly⟩ := hmakes.onlyMakes
  have hgrow : ∀ other k, kindAt root other = some k → fs'.kind? other = some k := by
    intro other k hk
    by_cases hother : other = place
    · subst hother
      rcases h.before with hstands | ⟨hfree, _⟩
      · rw [h.stands, ← hstands, ← hk]
        rfl
      · cases hfree.symm.trans hk
    · rw [hothers other hother, hk]
  refine ⟨h.leads, h.stands, h.content, ?_, h.contents, fun other hother => ?_, h.current⟩
  · rcases h.before with hstands | ⟨hfree, hnew⟩
    · rcases honly place with hsame | hmade
      · exact .inl (hsame.symm.trans hstands)
      · cases hmade.made.symm.trans hstands
    · refine .inr ⟨?_, fun other hfile => hnew other (honly.grow hfile)⟩
      exact Option.eq_none_iff_forall_ne_some.mpr fun k hk => by
        cases hfree.symm.trans (honly.grow hk)
  · rw [hothers other hother]
    refine (honly other).imp_right fun ⟨hmissing, hmade, taken, left, links, hbefore, hleads⟩ => ?_
    obtain ⟨_, ⟨⟨⟩⟩ | hlead, hthere⟩ := hleads.grow hgrow fun _ h => by cases h
    · refine ⟨hmissing, hmade, taken, left ++ rest, links, ?_, ?_, walk_iff.mpr ?_⟩
      · rw [hsteps, hbefore, List.append_assoc]
      · exact List.append_ne_nil_of_right_ne_nil _ hrest
      · rw [h.current]
        exact hthere
    · cases hlead

/-! ## The output -/

end FileSystem

namespace CommandLine

variable {find? : String → Option (FileTree (List UInt8))} {invocation : Invocation}

/-! ## A whole run -/

/-- Compiling the sources of the inputs yields these bytes: those of the binary module, or of the text. -/
def Yields (find? : String → Option (FileTree (List UInt8))) (invocation : Invocation) (bytes : List UInt8) : Prop :=
  ∃ units, (loadUnits find? invocation.inputs).result = .ok units ∧
    ((invocation.format = "wasm" ∧ ∃ artifact,
        (compileWasm units ⟨invocation.name, invocation.stackPages⟩).result = .ok artifact ∧
        bytes = artifact.wasm) ∨
      (invocation.format = "llvm" ∧ ∃ text,
        (emitText units ⟨invocation.name, invocation.stackPages⟩).result = .ok text ∧
        bytes = Text.toBytes text))

end CommandLine

end Straightline
