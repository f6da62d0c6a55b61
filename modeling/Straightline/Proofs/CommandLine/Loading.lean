import Mathlib.Data.List.Sort
import Straightline.CommandLine.Execute
import Straightline.Proofs.CommandLine.Names
import Straightline.Proofs.CommandLine.Snapshots

/-!
# Which sources are loaded, and in which order

Walking down a directory, with the entries of each directory in the order of their names, gives the files below
it in the order of their paths, compared name by name. So the walk can be said without one (`Listing`): it gives
the files below a directory whose names say that they are sources, and gives them in that order, each once. No
directory has two listings, and trees that contain the same have the same sources (`sourcesBelow_same`).

The sources of a run are those of its inputs one after the other (`sources_complete`).
-/

set_option autoImplicit false

namespace Straightline

open FileTree
open FileSystem (joinPath Place)

namespace CommandLine

/-- A file below a directory: the names that lead to it and its bytes. -/
abbrev FoundFile := List String × List UInt8

/-- The source that a file is whose names begin in the directory at `path`. -/
def FoundFile.unit (path : String) (file : FoundFile) : SourceUnit :=
  ⟨file.1.foldl joinPath path, file.2⟩

/-- The file as it is found from the directory around. -/
def FoundFile.within (name : String) (file : FoundFile) : FoundFile := (name :: file.1, file.2)

/-- `files` are the sources at any depth below the directory at a place, each once, in the order of the bytes of
their names: the first names that differ decide. -/
structure Listing (fs : FileSystem) (place : Place) (files : List FoundFile) : Prop where
  mem : ∀ names bytes, (names, bytes) ∈ files ↔
    fs.bytes? (names.reverse ++ place) = some bytes ∧ ∃ name ∈ names.getLast?, HasExtension sourceExtension name
  sorted : files.Pairwise fun file other => file.1.map Text.toBytes < other.1.map Text.toBytes

/-! ## Walking down -/

/-- What a walk finds at an entry called `name`. The entry may be a file, and then `name` is its last name. -/
structure Walked (name : String) (t : FileTree (List UInt8)) (files : List FoundFile) : Prop where
  mem : ∀ names bytes, (names, bytes) ∈ files ↔
    t.at? names = some (.file bytes) ∧ isSourceName (names.getLastD name) = true
  sorted : files.Pairwise fun file other => file.1 < other.1

theorem FoundFile.mem_map_within {name : String} {files : List FoundFile} {names : List String}
    {bytes : List UInt8} :
    (names, bytes) ∈ files.map (within name) ↔ ∃ rest, names = name :: rest ∧ (rest, bytes) ∈ files := by
  constructor
  · intro h
    obtain ⟨file, hfile, h⟩ := List.mem_map.mp h
    cases h
    exact ⟨file.1, rfl, hfile⟩
  · rintro ⟨rest, rfl, hfile⟩
    exact List.mem_map_of_mem hfile

theorem entrySources_eq (path : String) (entries : List (String × FileTree (List UInt8))) :
    entrySources path entries
      = entries.map fun entry => (entry.1, sourcesBelow (joinPath path entry.1) entry.1 entry.2) := by
  induction entries with
  | nil => rfl
  | cons entry rest ih =>
    obtain ⟨name, node⟩ := entry
    rw [entrySources, ih]
    rfl

/-- The entries of a directory in the order of their names. -/
def sortedEntries (entries : List (String × FileTree (List UInt8))) : List (String × FileTree (List UInt8)) :=
  entries.mergeSort fun a b => a.1 ≤ b.1

/-- A directory contributes what its entries do, in the order of their names. -/
theorem sourcesBelow_directory (path name : String) (entries : List (String × FileTree (List UInt8))) :
    sourcesBelow path name (.directory entries)
      = (sortedEntries entries).flatMap fun entry =>
          sourcesBelow (joinPath path entry.1) entry.1 entry.2 := by
  rw [sourcesBelow, entrySources_eq, ← List.map_mergeSort, List.flatMap_map]
  · rfl
  · exact fun _ _ _ _ => rfl

theorem pairwise_sortedEntries {entries : List (String × FileTree (List UInt8))}
    (hdistinct : (entries.map Prod.fst).Nodup) :
    (sortedEntries entries).Pairwise fun a b => a.1 < b.1 := by
  have hsorted : (sortedEntries entries).Pairwise fun a b => decide (a.1 ≤ b.1) = true :=
    List.pairwise_mergeSort (fun a b c hab hbc => by simp at *; exact hab.trans hbc)
      (fun a b => by simpa using le_total a.1 b.1) entries
  have hnames : ((sortedEntries entries).map Prod.fst).Nodup :=
    ((List.mergeSort_perm entries _).map Prod.fst).nodup_iff.mpr hdistinct
  rw [List.Nodup, List.pairwise_map] at hnames
  exact (hsorted.and hnames).imp fun ⟨hle, hne⟩ => lt_of_le_of_ne (by simpa using hle) hne

/-- Entries in the order of their names are walked one after the other. -/
theorem walked_entries {entries : List (String × FileTree (List UInt8))}
    (hsorted : entries.Pairwise fun a b => a.1 < b.1)
    (hentries : ∀ entry ∈ entries, ∃ files, Walked entry.1 entry.2 files ∧
      ∀ path, sourcesBelow path entry.1 entry.2 = files.map (FoundFile.unit path)) :
    ∃ files : List FoundFile,
      (∀ names bytes, (names, bytes) ∈ files ↔ ∃ entry ∈ entries, ∃ rest, names = entry.1 :: rest ∧
        entry.2.at? rest = some (.file bytes) ∧ isSourceName (rest.getLastD entry.1) = true) ∧
      (files.Pairwise fun file other => file.1 < other.1) ∧
      ∀ path, (entries.flatMap fun entry => sourcesBelow (joinPath path entry.1) entry.1 entry.2)
        = files.map (FoundFile.unit path) := by
  induction entries with
  | nil => exact ⟨[], by simp, .nil, fun _ => rfl⟩
  | cons entry rest ih =>
    obtain ⟨hfirst, hrest⟩ := List.pairwise_cons.mp hsorted
    obtain ⟨files, hwalked, hpaths⟩ := hentries entry List.mem_cons_self
    obtain ⟨others, hmem, hothers, hpaths'⟩ :=
      ih hrest fun other hother => hentries other (List.mem_cons_of_mem _ hother)
    refine ⟨files.map (FoundFile.within entry.1) ++ others, ?_, ?_, ?_⟩
    · intro names bytes
      rw [List.mem_append, hmem, FoundFile.mem_map_within]
      simp only [hwalked.mem, List.exists_mem_cons_iff]
    · refine List.pairwise_append.mpr ⟨?_, hothers, ?_⟩
      · rw [List.pairwise_map]
        exact hwalked.sorted.imp fun hlt => List.cons_lt_cons_iff.mpr (.inr ⟨rfl, hlt⟩)
      · rintro _ hfile ⟨names, bytes⟩ hother
        obtain ⟨file, _, rfl⟩ := List.mem_map.mp hfile
        obtain ⟨other, hrest, _, rfl, _⟩ := (hmem _ _).mp hother
        exact List.cons_lt_cons_iff.mpr (.inl (hfirst other hrest))
    · intro path
      rw [List.flatMap_cons, hpaths, hpaths', List.map_append, List.map_map]
      rfl

/-- What a walk finds, and where the paths of what it finds begin. -/
theorem walked_sourcesBelow {t : FileTree (List UInt8)} (h : t.Proper) (name : String) :
    ∃ files, Walked name t files ∧ ∀ path, sourcesBelow path name t = files.map (FoundFile.unit path) := by
  induction h generalizing name with
  | file bytes =>
    refine ⟨if isSourceName name then [([], bytes)] else [], ⟨fun names found => ?_, ?_⟩, fun path => ?_⟩
    · cases names with
      | cons first rest => split <;> simp
      | nil =>
        have hbytes : found = bytes ↔ bytes = found := eq_comm
        by_cases hname : isSourceName name = true <;> simp [hname, hbytes]
    · split <;> simp
    · rw [sourcesBelow]
      split <;> rfl
  | link target =>
    refine ⟨[], ⟨fun names found => ?_, .nil⟩, fun path => by rw [sourcesBelow, List.map_nil]⟩
    cases names <;> simp
  | @directory entries distinct inner ih =>
    have hperm : (sortedEntries entries).Perm entries := List.mergeSort_perm entries _
    obtain ⟨files, hmem, hsorted, hpaths⟩ := walked_entries (pairwise_sortedEntries distinct)
      fun entry hentry => ih entry (hperm.mem_iff.mp hentry) entry.1
    refine ⟨files, ⟨fun names bytes => ?_, hsorted⟩, fun path => ?_⟩
    · rw [hmem]
      cases names with
      | nil => simp
      | cons first rest =>
        simp only [at?_directory_cons, List.getLastD_cons, Option.bind_eq_some_iff,
          lookup_eq_some_iff distinct, hperm.mem_iff]
        constructor
        · rintro ⟨⟨_, node⟩, hentry, _, ⟨⟩, hfile, hname⟩
          exact ⟨⟨node, hentry, hfile⟩, hname⟩
        · rintro ⟨⟨node, hentry, hfile⟩, hname⟩
          exact ⟨(first, node), hentry, rest, rfl, hfile, hname⟩
    · rw [sourcesBelow_directory, hpaths]

/-- A tree determines what a walk finds in it. -/
theorem Walked.unique {t t' : FileTree (List UInt8)} {name : String} {files files' : List FoundFile}
    (h : Walked name t files) (h' : Walked name t' files') (hsame : Same t t') : files' = files := by
  let before : FoundFile → FoundFile → Prop := fun file other => file.1 < other.1
  have : Std.Irrefl before := ⟨fun file => lt_irrefl file.1⟩
  have : Std.Antisymm before := ⟨fun _ _ hlt hgt => absurd hgt (lt_asymm hlt)⟩
  refine List.Pairwise.eq_of_mem_iff (r := before) h'.sorted h.sorted fun ⟨names, bytes⟩ => ?_
  rw [h'.mem, h.mem, hsame.file_iff]

/-- Trees that contain the same have the same sources in the same order. -/
theorem sourcesBelow_same {t t' : FileTree (List UInt8)} (hsame : Same t t') (h : t.Proper) (h' : t'.Proper)
    (path name : String) : sourcesBelow path name t' = sourcesBelow path name t := by
  obtain ⟨files, hwalked, hpaths⟩ := walked_sourcesBelow h name
  obtain ⟨files', hwalked', hpaths'⟩ := walked_sourcesBelow h' name
  rw [hpaths, hpaths', hwalked.unique hwalked' hsame]

/-! ## Inputs -/

variable {fs fs' : FileSystem} {place : Place} {input : String}

/-- A walk down what is read in a directory lists its sources. -/
theorem Walked.listing {t : FileTree Nat} {files : List FoundFile} (h : Walked "" (fs.snapshot input t) files)
    (hlinks : fs.Unlinked place) (ht : fs.root.at? place.reverse = some t)
    (hdirectory : fs.kind? place = some .directory) : Listing fs place files where
  mem names bytes := by
    rw [h.mem, fs.at?_snapshot hlinks ht]
    refine and_congr_right fun hfile => ?_
    cases names with
    | nil =>
      rw [List.reverse_nil, List.nil_append, FileSystem.bytes?, hdirectory] at hfile
      cases hfile
    | cons first rest =>
      rw [List.getLastD_eq_getLast?, List.getLast?_cons]
      simp [isSourceName_iff]
  sorted := h.sorted.imp Text.map_toBytes_lt

/-- What an input contributes: itself if it leads to a file, and otherwise the sources below it. -/
inductive Contributes (fs : FileSystem) (input : String) : List SourceUnit → Prop where
  | file {place : Place} {bytes : List UInt8} (leads : fs.locate input = some (.there place))
      (found : fs.bytes? place = some bytes) : Contributes fs input [⟨input, bytes⟩]
  | directory {place : Place} {files : List FoundFile} (leads : fs.locate input = some (.there place))
      (found : fs.kind? place = some .directory) (listing : Listing fs place files) :
      Contributes fs input (files.map (FoundFile.unit input))

theorem sourcesOf_contributes (hproper : fs.root.Proper) (hleads : fs.locate input = some (.there place))
    (hlinks : fs.Unlinked place) :
    ∃ units, sourcesOf fs.find? input = some units ∧ Contributes fs input units := by
  obtain ⟨t, ht⟩ := FileSystem.tree_of_locate hleads
  have hkind : fs.kind? place = some t.kind := FileSystem.kind?_below ht []
  obtain ⟨files, hwalked, hpaths⟩ := walked_sourcesBelow (fs.proper_snapshot (hproper.at? ht) input) ""
  unfold sourcesOf
  rw [FileSystem.find?_of_locate hleads ht]
  cases t with
  | link target => exact absurd hkind (hlinks [] target)
  | file number =>
    refine ⟨_, rfl, .file hleads ?_⟩
    rw [FileSystem.bytes?, hkind]
    rfl
  | directory entries =>
    refine ⟨_, rfl, ?_⟩
    exact hpaths input ▸ .directory hleads hkind (hwalked.listing hlinks ht hkind)

theorem sourcesOf_same (hsame : fs.Same fs') (hproper : fs.root.Proper) (hproper' : fs'.root.Proper)
    (hleads : fs.locate input = some (.there place)) (hlinks : fs.Unlinked place) :
    sourcesOf fs'.find? input = sourcesOf fs.find? input := by
  have hleads' : fs'.locate input = some (.there place) := by rw [hsame.locate, hleads]
  obtain ⟨t, ht⟩ := FileSystem.tree_of_locate hleads
  obtain ⟨t', ht'⟩ := FileSystem.tree_of_locate hleads'
  have hread := hsame.snapshot hlinks ht ht' input
  have hbelow := sourcesBelow_same hread (fs.proper_snapshot (hproper.at? ht) input)
    (fs'.proper_snapshot (hproper'.at? ht') input) input ""
  have hkind := hread []
  unfold sourcesOf
  rw [FileSystem.find?_of_locate hleads ht, FileSystem.find?_of_locate hleads' ht']
  generalize fs.snapshot input t = found at hkind hbelow
  generalize fs'.snapshot input t' = found' at hkind hbelow
  cases found <;> cases found' <;> cases hkind
  · rfl
  · exact congrArg some hbelow
  · rfl

/-- What is loaded depends on what each input stands for. -/
theorem loadInputs_congr {find? find?' : String → Option (FileTree (List UInt8))} {inputs : List String}
    (h : ∀ input ∈ inputs, sourcesOf find?' input = sourcesOf find? input) :
    loadInputs find?' inputs = loadInputs find? inputs := by
  induction inputs with
  | nil => rfl
  | cons input rest ih =>
    rw [loadInputs, loadInputs, h input List.mem_cons_self,
      ih fun other hother => h other (List.mem_cons_of_mem _ hother)]

/-- Inputs that are there are loaded one after the other. -/
theorem loadInputs_ok (hproper : fs.root.Proper) {inputs : List String}
    (hexist : ∀ input ∈ inputs, ∃ place, fs.locate input = some (.there place) ∧ fs.Unlinked place) :
    ∃ parts, List.Forall₂ (Contributes fs) inputs parts ∧
      (loadInputs fs.find? inputs).result = .ok parts.flatten := by
  induction inputs with
  | nil => exact ⟨[], .nil, rfl⟩
  | cons input rest ih =>
    obtain ⟨place, hleads, hlinks⟩ := hexist input List.mem_cons_self
    obtain ⟨units, hunits, hcontributes⟩ := sourcesOf_contributes hproper hleads hlinks
    obtain ⟨parts, hparts, hrest⟩ := ih fun other hother => hexist other (List.mem_cons_of_mem _ hother)
    refine ⟨units :: parts, .cons hcontributes hparts, ?_⟩
    rw [loadInputs, hunits]
    dsimp only
    rw [hrest]
    rfl

/-- Inputs that exist, with no links below them, yield their sources in the order of the inputs, and fail only if
there are none. File systems that contain the same yield the same. -/
theorem sources_complete (hproper : fs.root.Proper) {inputs : List String}
    (hexist : ∀ input ∈ inputs, ∃ place, fs.locate input = some (.there place) ∧ fs.Unlinked place) :
    (∃ parts, List.Forall₂ (Contributes fs) inputs parts ∧
      (loadUnits fs.find? inputs).result
        = if parts.flatten = [] then .error .noSources else .ok parts.flatten) ∧
    ∀ fs' : FileSystem, fs'.root.Proper → fs.Same fs' →
      loadUnits fs'.find? inputs = loadUnits fs.find? inputs := by
  constructor
  · obtain ⟨parts, hparts, hloaded⟩ := loadInputs_ok hproper hexist
    refine ⟨parts, hparts, ?_⟩
    rw [loadUnits]
    dsimp only
    rw [hloaded]
    cases parts.flatten <;> rfl
  · intro fs' hproper' hsame
    rw [loadUnits, loadUnits, loadInputs_congr]
    intro input hinput
    obtain ⟨place, hleads, hlinks⟩ := hexist input hinput
    exact sourcesOf_same hsame hproper hproper' hleads hlinks

/-- Entries in no order, among them a directory that is called like a source and a file that is called by the
extension alone. -/
def scattered : List (String × FileTree Nat) :=
  [("b.sl", .file 1), ("a.sl", .directory [("z.sl", .file 2), (".sl", .file 3)]), ("notes", .file 4)]

/-- The program is in the inner directory. -/
def scatteredFiles : FileSystem := ⟨.directory scattered, fun number => [number.toUInt8], ["a.sl"]⟩

/-- Everything, the working directory once more, and a file around it. -/
theorem sources_complete_scattered :
    (∃ parts, List.Forall₂ (Contributes scatteredFiles) ["/", ".", "../b.sl"] parts ∧
      (loadUnits scatteredFiles.find? ["/", ".", "../b.sl"]).result
        = if parts.flatten = [] then .error .noSources else .ok parts.flatten) ∧
    loadUnits { scatteredFiles with root := .directory scattered.reverse }.find? ["/", ".", "../b.sl"]
      = loadUnits scatteredFiles.find? ["/", ".", "../b.sl"] := by
  have hinner : (FileTree.directory [("z.sl", .file 2), (".sl", .file 3)]).Proper :=
    .directory (by decide) (by simp [Proper.file])
  have hproper : scatteredFiles.root.Proper :=
    .directory (by decide) (by simp [scattered, hinner, Proper.file])
  have hproper' : (FileTree.directory scattered.reverse).Proper :=
    .directory (by decide) (by simp [scattered, hinner, Proper.file])
  have hsame : scatteredFiles.Same { scatteredFiles with root := .directory scattered.reverse } :=
    .of_root (.of_perm (List.reverse_perm _).symm (by decide))
  have hlinks : ∀ place, scatteredFiles.Unlinked place := by
    refine FileSystem.unlinked_of_root (kind?_ne_link_of_entries ?_)
    simp only [scattered, List.forall_mem_cons]
    exact ⟨kind?_file_ne_link 1, kind?_ne_link_of_entries (by simp [kind?_file_ne_link]), kind?_file_ne_link 4,
      by simp⟩
  have hplaces : ∀ input ∈ ["/", ".", "../b.sl"], ∃ place, scatteredFiles.locate input = some (.there place) := by
    simp only [List.forall_mem_cons]
    exact ⟨⟨[], by decide +kernel⟩, ⟨["a.sl"], by decide +kernel⟩, ⟨["b.sl"], by decide +kernel⟩, by simp⟩
  obtain ⟨hloaded, hother⟩ := sources_complete hproper fun input hinput =>
    (hplaces input hinput).imp fun place hplace => ⟨hplace, hlinks place⟩
  exact ⟨hloaded, hother _ hproper' hsame⟩

end CommandLine

end Straightline
