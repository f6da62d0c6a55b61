import Straightline.Proofs.CommandLine.Paths
import Straightline.Proofs.CommandLine.Trees

/-!
# What is read at a path

A path that leads somewhere leads to something (`FileSystem.Leads.found`). If there is no link in it, what is read
there are the same entries with the contents of their files (`FileSystem.kind?_snapshot`). So file systems that have
the same contents at the same places (`FileSystem.Same`) are read alike, in whatever order their directories list
the entries and whatever the numbers of their files.
-/

set_option autoImplicit false

namespace Straightline.FileSystem

open FileTree (Kind)

variable {fs fs' : FileSystem} {place : Place} {path : String} {names : List String} {bytes : List UInt8}
variable {t t' : FileTree Nat}

/-- There is no link at the place or below it. -/
def Unlinked (fs : FileSystem) (place : Place) : Prop :=
  ∀ inner target, fs.kind? (inner ++ place) ≠ some (.link target)

/-- What stands at a place, with what is in it if it is a file. -/
def entry? (fs : FileSystem) (place : Place) : Option (Kind (List UInt8)) :=
  (fs.kind? place).map (Kind.map fs.contents)

/-- The same contents are at the same places. -/
structure Same (fs fs' : FileSystem) : Prop where
  current : fs'.current = fs.current
  entries : ∀ place, fs'.entry? place = fs.entry? place

/-! ## Places -/

/-- Around what is there, there is something. -/
theorem kind?_tail {k : Kind Nat} (h : fs.kind? place = some k) : ∃ k, fs.kind? place.tail = some k := by
  cases place with
  | nil => exact ⟨k, h⟩
  | cons name outer =>
    rw [kind?, kindAt, List.reverse_cons] at h
    exact ⟨_, FileTree.kind?_around h (List.cons_ne_nil _ _)⟩

/-- Where steps lead from something that is there, something is. -/
theorem Leads.found {links : Nat} {start : Place} {steps : List String} {lead : Lead}
    (h : Leads fs.kind? links start steps lead) (hlead : lead = .there place)
    (hstart : steps = [] → ∃ k, fs.kind? start = some k) : ∃ k, fs.kind? place = some k := by
  induction h with
  | here =>
    cases hlead
    exact hstart rfl
  | idle around _ _ ih => exact ih hlead fun _ => ⟨_, around⟩
  | back around _ ih => exact ih hlead fun _ => kind?_tail around
  | entry _ _ entry _ _ ih => exact ih hlead fun _ => ⟨_, entry⟩
  | link _ _ _ _ _ ih =>
    exact ih hlead fun hnil => absurd (List.append_eq_nil_iff.mp hnil).1 (steps_ne_nil _)
  | free => cases hlead

/-- Below a place is what is in the tree there. -/
theorem kind?_below (ht : fs.root.at? place.reverse = some t) (names : List String) :
    fs.kind? (names.reverse ++ place) = t.kind? names := by
  rw [kind?, kindAt, List.reverse_append, List.reverse_reverse, FileTree.kind?_append, ht]
  rfl

/-- A path that leads somewhere leads to a part of the tree. -/
theorem tree_of_locate (h : fs.locate path = some (.there place)) :
    ∃ t, fs.root.at? place.reverse = some t := by
  obtain ⟨_, hleads⟩ := locate_eq_some.mp h
  obtain ⟨k, hk⟩ := hleads.found rfl fun hnil => absurd hnil (steps_ne_nil _)
  obtain ⟨t, ht, _⟩ := Option.map_eq_some_iff.mp hk
  exact ⟨t, ht⟩

theorem find?_of_locate (h : fs.locate path = some (.there place)) (ht : fs.root.at? place.reverse = some t) :
    fs.find? path = some (fs.snapshot path t) := by
  rw [find?, h]
  dsimp only
  rw [ht]
  rfl

theorem bytes?_eq_some : fs.bytes? place = some bytes ↔ fs.entry? place = some (.file bytes) := by
  unfold bytes? entry?
  cases fs.kind? place with
  | none => simp
  | some k => cases k <;> simp [Kind.map]

/-- A tree without links. -/
theorem unlinked_of_root (h : ∀ names target, fs.root.kind? names ≠ some (.link target)) (place : Place) :
    fs.Unlinked place :=
  fun _ target => h _ target

/-! ## Snapshots -/

theorem lookup_snapshots (path name : String) (entries : List (String × FileTree Nat)) :
    (fs.snapshots path entries).lookup name
      = (entries.lookup name).map (fs.snapshot (joinPath path name)) := by
  induction entries with
  | nil => rfl
  | cons entry rest ih =>
    rw [snapshots, FileTree.lookup_cons_eq, FileTree.lookup_cons_eq, ih]
    split
    · rename_i hname
      rw [hname]
      rfl
    · rfl

theorem map_fst_snapshots (path : String) (entries : List (String × FileTree Nat)) :
    (fs.snapshots path entries).map Prod.fst = entries.map Prod.fst := by
  induction entries with
  | nil => rfl
  | cons entry rest ih => rw [snapshots, List.map_cons, List.map_cons, ih]

theorem mem_snapshots {entries : List (String × FileTree Nat)} {entry : String × FileTree (List UInt8)}
    (h : entry ∈ fs.snapshots path entries) :
    ∃ name node, (name, node) ∈ entries ∧ entry = (name, fs.snapshot (joinPath path name) node) := by
  induction entries with
  | nil => cases h
  | cons first rest ih =>
    rw [snapshots, List.mem_cons] at h
    rcases h with rfl | h
    · exact ⟨_, _, List.mem_cons_self, rfl⟩
    · obtain ⟨name, node, hmem, heq⟩ := ih h
      exact ⟨name, node, List.mem_cons_of_mem _ hmem, heq⟩

theorem proper_snapshot (h : t.Proper) (path : String) : (fs.snapshot path t).Proper := by
  induction h generalizing path with
  | file number =>
    rw [snapshot]
    exact .file _
  | directory distinct inner ih =>
    rw [snapshot]
    refine .directory (by rwa [map_fst_snapshots]) fun entry hentry => ?_
    obtain ⟨name, node, hmem, rfl⟩ := mem_snapshots hentry
    exact ih _ hmem _
  | link target =>
    rw [snapshot]
    split
    · exact .file _
    · exact .link _

/-- Where there are no links, the entries are the same. -/
theorem kind?_snapshot (hlinks : ∀ names target, t.kind? names ≠ some (.link target)) (path : String)
    (names : List String) :
    (fs.snapshot path t).kind? names = (t.kind? names).map (Kind.map fs.contents) := by
  induction names generalizing t path with
  | nil =>
    cases t with
    | file | directory => simp [snapshot, FileTree.kind, Kind.map]
    | link target => exact absurd rfl (hlinks [] target)
  | cons name rest ih =>
    cases t with
    | file number =>
      rw [snapshot]
      rfl
    | link target => exact absurd rfl (hlinks [] target)
    | directory entries =>
      rw [snapshot, FileTree.kind?_directory_cons, FileTree.kind?_directory_cons, lookup_snapshots]
      cases hinner : entries.lookup name with
      | none => rfl
      | some inner =>
        refine ih (fun names target hlink => hlinks (name :: names) target ?_) _
        rw [FileTree.kind?_directory_cons, hinner]
        exact hlink

theorem Unlinked.tree (h : fs.Unlinked place) (ht : fs.root.at? place.reverse = some t) (names : List String)
    (target : String) : t.kind? names ≠ some (.link target) := by
  rw [← kind?_below ht]
  exact h _ _

/-- What is read below a place is what stands there. -/
theorem kind?_snapshot_eq (hlinks : fs.Unlinked place) (ht : fs.root.at? place.reverse = some t) (path : String)
    (names : List String) : (fs.snapshot path t).kind? names = fs.entry? (names.reverse ++ place) := by
  rw [kind?_snapshot (hlinks.tree ht), entry?, kind?_below ht]

/-- So a file is read where there is one. -/
theorem at?_snapshot (hlinks : fs.Unlinked place) (ht : fs.root.at? place.reverse = some t) :
    (fs.snapshot path t).at? names = some (.file bytes) ↔ fs.bytes? (names.reverse ++ place) = some bytes := by
  rw [← FileTree.kind?_eq_file, kind?_snapshot_eq hlinks ht, bytes?_eq_some]

/-! ## The same contents -/

/-- The order in which directories list their entries makes no difference. -/
theorem Same.of_root {root : FileTree Nat} (h : FileTree.Same fs.root root) : Same fs { fs with root } :=
  ⟨rfl, fun place => congrArg (Option.map _) (h place.reverse)⟩

namespace Same

theorem locate (h : Same fs fs') (path : String) : fs'.locate path = fs.locate path := by
  have hwalk : walk fs'.kind? maxLinks = walk fs.kind? maxLinks := by
    rw [← walk_map fs'.contents, ← walk_map fs.contents]
    exact congrArg (walk · maxLinks) (funext h.entries)
  rw [FileSystem.locate, FileSystem.locate, h.current, hwalk]

theorem unlinked (h : Same fs fs') (hlinks : fs.Unlinked place) : fs'.Unlinked place := by
  intro inner target hlink
  have hentry : fs.entry? (inner ++ place) = some (.link target) := by
    rw [← h.entries, entry?, hlink]
    rfl
  obtain ⟨k, hk, hkind⟩ := Option.map_eq_some_iff.mp hentry
  cases k with
  | file | directory => cases hkind
  | link found => exact hlinks inner found hk

/-- The same is read at the same place. -/
theorem snapshot (h : Same fs fs') (hlinks : fs.Unlinked place) (ht : fs.root.at? place.reverse = some t)
    (ht' : fs'.root.at? place.reverse = some t') (path : String) :
    FileTree.Same (fs.snapshot path t) (fs'.snapshot path t') := by
  intro names
  rw [kind?_snapshot_eq hlinks ht, kind?_snapshot_eq (h.unlinked hlinks) ht', h.entries]

end Same

end Straightline.FileSystem
