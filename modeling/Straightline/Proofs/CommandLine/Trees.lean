import Straightline.CommandLine.FileTree
import Straightline.Proofs.Lists

/-!
# What is found in a tree of files

A directory lists its entries in some order, and that order is no part of what the tree contains: two trees are
the same (`FileTree.Same`) if the same names lead to the same files, links and directories in both.

In a proper tree (`FileTree.Proper`) the entries of a directory have distinct names. Then an entry is found by
its name.

Putting something without entries where there is no directory changes what stands at that place, and nothing
else (`FileTree.put_leaf`).
-/

set_option autoImplicit false

namespace Straightline.FileTree

variable {φ : Type}

/-- No directory has two entries of one name. -/
inductive Proper : FileTree φ → Prop where
  | file (content : φ) : Proper (file content)
  | directory {entries : List (String × FileTree φ)} (distinct : (entries.map Prod.fst).Nodup)
      (inner : ∀ entry ∈ entries, Proper entry.2) : Proper (directory entries)
  | link (target : String) : Proper (link target)

/-- The trees contain the same, in whatever order their directories list it. -/
def Same (t t' : FileTree φ) : Prop := ∀ names, t'.kind? names = t.kind? names

variable {t t' u node : FileTree φ} {names outer : List String} {name : String} {content : φ}

/-! ## Entries -/

@[simp] theorem at?_nil (t : FileTree φ) : t.at? [] = some t := rfl

@[simp] theorem at?_file_cons (content : φ) (name : String) (names : List String) :
    (file content).at? (name :: names) = none := rfl

@[simp] theorem at?_link_cons (target name : String) (names : List String) :
    (link target : FileTree φ).at? (name :: names) = none := rfl

theorem at?_directory_cons (entries : List (String × FileTree φ)) (name : String) (names : List String) :
    (directory entries).at? (name :: names) = (entries.lookup name).bind (·.at? names) := rfl

theorem at?_append (t : FileTree φ) (names more : List String) :
    t.at? (names ++ more) = (t.at? names).bind (·.at? more) :=
  List.foldlM_append

theorem mem_of_lookup {entries : List (String × FileTree φ)} (h : entries.lookup name = some u) :
    (name, u) ∈ entries := by
  obtain ⟨before, after, rfl, _⟩ := List.lookup_eq_some_iff.mp h
  exact List.mem_append_right _ List.mem_cons_self

/-- An entry is found by its name. -/
theorem lookup_eq_some_iff {entries : List (String × FileTree φ)}
    (hdistinct : (entries.map Prod.fst).Nodup) :
    entries.lookup name = some u ↔ (name, u) ∈ entries :=
  ⟨mem_of_lookup, lookup_of_mem hdistinct⟩

theorem Proper.lookup {entries : List (String × FileTree φ)}
    (h : (FileTree.directory entries).Proper) (hu : entries.lookup name = some u) : u.Proper := by
  cases h with
  | directory distinct inner => exact inner _ (mem_of_lookup hu)

theorem Proper.at? (h : t.Proper) (hu : t.at? names = some u) : u.Proper := by
  induction names generalizing t with
  | nil =>
    cases hu
    exact h
  | cons name names ih =>
    cases t with
    | file | link => cases hu
    | directory entries =>
      rw [at?_directory_cons, Option.bind_eq_some_iff] at hu
      obtain ⟨inner, hinner, hu⟩ := hu
      exact ih (h.lookup hinner) hu

@[simp] theorem kind?_nil (t : FileTree φ) : t.kind? [] = some t.kind := rfl

theorem kind?_append (t : FileTree φ) (names more : List String) :
    t.kind? (names ++ more) = (t.at? names).bind (·.kind? more) := by
  rw [kind?, at?_append, Option.map_bind]
  rfl

theorem kind?_directory_cons (entries : List (String × FileTree φ)) (name : String) (names : List String) :
    (directory entries).kind? (name :: names) = (entries.lookup name).bind (·.kind? names) := by
  rw [kind?, at?_directory_cons, Option.map_bind]
  rfl

/-- There is something in directories only. -/
theorem kind?_cons_eq_some {k : Kind φ} (h : t.kind? (name :: names) = some k) :
    ∃ entries inner, t = directory entries ∧ entries.lookup name = some inner ∧
      inner.kind? names = some k := by
  cases t with
  | file | link => cases h
  | directory entries =>
    rw [kind?_directory_cons, Option.bind_eq_some_iff] at h
    obtain ⟨inner, hinner, h⟩ := h
    exact ⟨entries, inner, rfl, hinner, h⟩

/-- Where something is found, there are directories around. -/
theorem kind?_around {inner : List String} {k : Kind φ} (h : t.kind? (outer ++ inner) = some k)
    (hinner : inner ≠ []) : t.kind? outer = some .directory := by
  obtain ⟨name, rest, rfl⟩ := List.exists_cons_of_ne_nil hinner
  rw [kind?_append, Option.bind_eq_some_iff] at h
  obtain ⟨around, haround, h⟩ := h
  obtain ⟨entries, _, rfl, _⟩ := kind?_cons_eq_some h
  rw [kind?, haround]
  rfl

theorem kind?_eq_file : t.kind? names = some (.file content) ↔ t.at? names = some (file content) := by
  rw [kind?, Option.map_eq_some_iff]
  constructor
  · rintro ⟨u, hu, hkind⟩
    cases u with
    | file found =>
      cases hkind
      exact hu
    | directory | link => cases hkind
  · exact fun hu => ⟨_, hu, rfl⟩

/-- In a file there are no links. -/
theorem kind?_file_ne_link (content : φ) (names : List String) (target : String) :
    (file content).kind? names ≠ some (.link target) := by
  cases names <;> exact fun h => by cases h

/-- Where no entry has links below it, there are none. -/
theorem kind?_ne_link_of_entries {entries : List (String × FileTree φ)}
    (h : ∀ entry ∈ entries, ∀ names target, entry.2.kind? names ≠ some (.link target)) (names : List String)
    (target : String) : (directory entries).kind? names ≠ some (.link target) := by
  cases names with
  | nil => exact fun hk => by cases hk
  | cons name rest =>
    rw [kind?_directory_cons]
    intro hk
    obtain ⟨inner, hinner, hk⟩ := Option.bind_eq_some_iff.mp hk
    exact h _ (mem_of_lookup hinner) rest target hk

/-! ## Trees that contain the same -/

namespace Same

/-- The order in which a directory lists its entries makes no difference. -/
theorem of_perm {entries entries' : List (String × FileTree φ)} (hperm : entries.Perm entries')
    (hdistinct : (entries.map Prod.fst).Nodup) : Same (directory entries) (directory entries') := by
  intro names
  cases names with
  | nil => rfl
  | cons name rest =>
    have hlookup : entries'.lookup name = entries.lookup name := by
      refine Option.ext fun u => ?_
      rw [lookup_eq_some_iff hdistinct, lookup_eq_some_iff ((hperm.map _).nodup_iff.mp hdistinct),
        hperm.mem_iff]
    rw [kind?_directory_cons, kind?_directory_cons, hlookup]

theorem file_iff (h : Same t t') :
    t'.at? names = some (.file content) ↔ t.at? names = some (.file content) := by
  rw [← kind?_eq_file, ← kind?_eq_file, h]

end Same

/-! ## Putting something into a tree -/

theorem lookup_cons_eq (entry : String × FileTree φ) (rest : List (String × FileTree φ)) (other : String) :
    (entry :: rest).lookup other = if other = entry.1 then some entry.2 else rest.lookup other := by
  by_cases h : other = entry.1
  · rw [if_pos h, List.lookup_cons, beq_iff_eq.mpr h]
  · rw [if_neg h, List.lookup_cons, beq_eq_false_iff_ne.mpr h]

theorem lookup_setEntry (node : FileTree φ) (name other : String) (entries : List (String × FileTree φ)) :
    (setEntry node name entries).lookup other
      = if other = name then some node else entries.lookup other := by
  induction entries with
  | nil => rw [setEntry, lookup_cons_eq]
  | cons entry rest ih =>
    rw [setEntry]
    split
    · rename_i hname
      rw [lookup_cons_eq, lookup_cons_eq, hname]
      split <;> rfl
    · rename_i hname
      rw [lookup_cons_eq, lookup_cons_eq, ih]
      split
      · rename_i hother
        rw [if_neg (hother ▸ hname)]
      · rfl

/-- An entry without entries of its own takes the place of one that is no directory. -/
theorem kind?_setEntry {entries : List (String × FileTree φ)}
    (hnode : ∀ name rest, node.kind? (name :: rest) = none)
    (hfree : (directory entries).kind? [name] ≠ some .directory) (names : List String) :
    (directory (setEntry node name entries)).kind? names
      = if names = [name] then some node.kind else (directory entries).kind? names := by
  cases names with
  | nil => rfl
  | cons first rest =>
    simp only [kind?_directory_cons, lookup_setEntry, List.cons.injEq]
    by_cases hfirst : first = name
    · subst hfirst
      cases rest with
      | nil => simp
      | cons second rest =>
        -- What was under the old entry would have been there in a directory.
        have hnone : (directory entries).kind? ([first] ++ second :: rest) = none :=
          Option.eq_none_iff_forall_ne_some.mpr fun k hk =>
            hfree (kind?_around hk (List.cons_ne_nil _ _))
        rw [if_pos rfl, Option.bind_some, hnode, if_neg (fun h => by cases h.2)]
        rw [← kind?_directory_cons]
        exact hnone.symm
    · rw [if_neg hfirst, if_neg fun h => hfirst h.1]

/-- Something without entries is put where there is no directory. -/
theorem put_leaf (hnode : ∀ name rest, node.kind? (name :: rest) = none)
    (houter : t.kind? outer = some .directory) (hfree : t.kind? (outer ++ [name]) ≠ some .directory) :
    ∃ t', put node (outer ++ [name]) t = some t' ∧
      ∀ names, t'.kind? names = if names = outer ++ [name] then some node.kind else t.kind? names := by
  induction outer generalizing t with
  | nil =>
    cases t with
    | file | link => cases houter
    | directory entries =>
      refine ⟨directory (setEntry node name entries), ?_, kind?_setEntry hnode hfree⟩
      rw [List.nil_append, put]
      cases entries.lookup name <;> rfl
  | cons first rest ih =>
    obtain ⟨entries, inner, rfl, hinner, houter⟩ := kind?_cons_eq_some houter
    rw [List.cons_append, kind?_directory_cons, hinner] at hfree
    obtain ⟨inner', hput, hkind⟩ := ih houter hfree
    refine ⟨directory (setEntry inner' first entries), ?_, fun names => ?_⟩
    · rw [List.cons_append, put, hinner]
      dsimp only [Option.bind_eq_bind, Option.bind_some]
      rw [hput]
      rfl
    · cases names with
      | nil => rfl
      | cons other names =>
        simp only [kind?_directory_cons, lookup_setEntry, List.cons_append, List.cons.injEq]
        by_cases hother : other = first
        · subst hother
          rw [if_pos rfl, Option.bind_some, hkind, hinner]
          simp only [true_and, Option.bind_some]
        · rw [if_neg hother, if_neg fun h => hother h.1]

end Straightline.FileTree
