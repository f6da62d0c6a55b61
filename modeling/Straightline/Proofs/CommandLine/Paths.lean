import Mathlib.Data.List.TakeWhile
import Straightline.CommandLine.FileSystem

/-!
# Where paths lead

Following a path is a matter of a few rules, one for each kind of step (`FileSystem.Leads`, `FileSystem.walk_iff`).
By them a path leads to the same place when more is there than before, and where a file has been put under the
name that it led to, it leads to that file (`FileSystem.Leads.grow`). What the files contain makes no difference
(`FileSystem.walk_map`).

The path of the directory around consists of the first steps of the path (`FileSystem.steps_parentPath`).
-/

set_option autoImplicit false

namespace Straightline

open FileTree (Kind)

namespace FileTree

/-- The same, with something else known of files. -/
def Kind.map {φ ψ : Type} (f : φ → ψ) : Kind φ → Kind ψ
  | file content => .file (f content)
  | directory => .directory
  | link target => .link target

end FileTree

namespace FileSystem

variable {φ ψ : Type} {kind? kind?' : Place → Option (Kind φ)} {enter : Place → List String → Option Lead}
variable {links more : Nat} {place last : Place} {step path : String} {steps rest : List String} {lead : Lead}

/-! ## Rules -/

/-- The step is the name of an entry. -/
def IsName (step : String) : Prop := isIdle step = false ∧ step ≠ ".."

/-- The steps lead from one place to another, or to a name that is free, through no more than so many links. -/
inductive Leads (kind? : Place → Option (Kind φ)) : Nat → Place → List String → Lead → Prop where
  | here {links : Nat} (place : Place) : Leads kind? links place [] (.there place)
  | idle {links : Nat} {place : Place} {step : String} {rest : List String} {lead : Lead}
      (around : kind? place = some .directory) (idles : isIdle step = true) :
      Leads kind? links place rest lead → Leads kind? links place (step :: rest) lead
  | back {links : Nat} {place : Place} {rest : List String} {lead : Lead}
      (around : kind? place = some .directory) :
      Leads kind? links place.tail rest lead → Leads kind? links place (".." :: rest) lead
  | entry {links : Nat} {place : Place} {step : String} {rest : List String} {lead : Lead} {k : Kind φ}
      (around : kind? place = some .directory) (named : IsName step) (entry : kind? (step :: place) = some k)
      (plain : ∀ target, k ≠ .link target) :
      Leads kind? links (step :: place) rest lead → Leads kind? links place (step :: rest) lead
  | link {links : Nat} {place : Place} {step : String} {rest : List String} {lead : Lead} {target : String}
      (around : kind? place = some .directory) (named : IsName step)
      (entry : kind? (step :: place) = some (.link target)) (nonempty : target ≠ "") :
      Leads kind? links (origin place (FileSystem.steps target)) (FileSystem.steps target ++ rest) lead →
      Leads kind? (links + 1) place (step :: rest) lead
  | free {links : Nat} {place : Place} {step : String} (around : kind? place = some .directory)
      (named : IsName step) (free : kind? (step :: place) = none) :
      Leads kind? links place [step] (.free (step :: place))

/-- Where it goes on from a link, if so many may be followed. -/
def entering (kind? : Place → Option (Kind φ)) : Nat → Place → List String → Option Lead
  | 0 => fun _ _ => none
  | links + 1 => walk kind? links

theorem walk_eq (kind? : Place → Option (Kind φ)) (links : Nat) :
    walk kind? links = follow kind? (entering kind? links) := by
  cases links <;> rfl

theorem leads_of_follow
    (henter : ∀ place steps lead, enter place steps = some lead →
      ∃ fewer, links = fewer + 1 ∧ Leads kind? fewer place steps lead)
    (h : follow kind? enter place steps = some lead) : Leads kind? links place steps lead := by
  induction steps generalizing place with
  | nil =>
    cases h
    exact .here place
  | cons step rest ih =>
    unfold follow at h
    split at h
    case h_2 => cases h
    case h_1 haround =>
    split at h
    case isTrue hidle => exact .idle haround hidle (ih h)
    case isFalse hidle =>
    split at h
    case isTrue hback =>
      subst hback
      exact .back haround (ih h)
    case isFalse hback =>
    have hname : IsName step := ⟨Bool.eq_false_iff.mpr hidle, hback⟩
    split at h
    case h_1 target hentry =>
      split at h
      · cases h
      · obtain ⟨_, rfl, hleads⟩ := henter _ _ _ h
        exact .link haround hname hentry ‹_› hleads
    case h_2 k hlink hentry =>
      refine .entry haround hname hentry ?_ (ih h)
      exact fun target hk => hlink target hk
    case h_3 hentry =>
      split at h
      case isTrue hrest =>
        rw [List.isEmpty_iff.mp hrest]
        cases h
        exact .free haround hname hentry
      case isFalse => cases h

theorem follow_of_leads (h : Leads kind? links place steps lead) :
    follow kind? (entering kind? links) place steps = some lead := by
  induction h with
  | here => rfl
  | idle around idles _ ih =>
    unfold follow
    simp only [around, idles, if_true]
    exact ih
  | back around _ ih =>
    have hidle : isIdle ".." = false := by decide
    unfold follow
    simp only [around, hidle, Bool.false_eq_true, if_false, if_true]
    exact ih
  | @entry _ _ _ _ _ k around named entry plain _ ih =>
    unfold follow
    simp only [around, named.1, named.2, entry, Bool.false_eq_true, if_false]
    cases k with
    | link target => exact absurd rfl (plain target)
    | file | directory => exact ih
  | link around named entry nonempty _ ih =>
    unfold follow
    simp only [around, named.1, named.2, entry, nonempty, Bool.false_eq_true, if_false]
    rw [entering, walk_eq]
    exact ih
  | free around named free =>
    unfold follow
    simp only [around, named.1, named.2, free, Bool.false_eq_true, if_false]
    rfl

/-- Paths are followed by the rules. -/
theorem walk_iff : walk kind? links place steps = some lead ↔ Leads kind? links place steps lead := by
  rw [walk_eq]
  refine ⟨fun h => ?_, follow_of_leads⟩
  induction links generalizing place steps lead with
  | zero => exact leads_of_follow (fun _ _ _ h => by cases h) h
  | succ links ih =>
    refine leads_of_follow (fun place steps lead h => ⟨links, rfl, ih ?_⟩) h
    rwa [entering, walk_eq] at h

/-- A path leads where its steps do from where it begins. -/
theorem locate_eq_some {fs : FileSystem} :
    fs.locate path = some lead ↔
      path ≠ "" ∧
        Leads fs.kind? maxLinks (origin fs.current (FileSystem.steps path)) (FileSystem.steps path) lead := by
  unfold locate
  split
  · simp_all
  · simp_all [walk_iff]

namespace Leads

theorem mono (h : Leads kind? links place steps lead) (hmore : links ≤ more) :
    Leads kind? more place steps lead := by
  induction h generalizing more with
  | here => exact .here _
  | idle around idles _ ih => exact .idle around idles (ih hmore)
  | back around _ ih => exact .back around (ih hmore)
  | entry around named entry plain _ ih => exact .entry around named entry plain (ih hmore)
  | link around named entry nonempty _ ih =>
    obtain ⟨more, rfl⟩ := Nat.exists_eq_add_of_le' (Nat.le_of_add_left_le hmore)
    exact .link around named entry nonempty (ih (Nat.le_of_add_le_add_right hmore))
  | free around named free => exact .free around named free

/-- Steps may be followed after others. -/
theorem append (h : Leads kind? links place steps (.there last)) (hrest : Leads kind? more last rest lead) :
    Leads kind? (links + more) place (steps ++ rest) lead := by
  generalize hthere : Lead.there last = there at h
  induction h with
  | here =>
    cases hthere
    exact hrest.mono (Nat.le_add_left _ _)
  | idle around idles _ ih => exact .idle around idles (ih hthere)
  | back around _ ih => exact .back around (ih hthere)
  | entry around named entry plain _ ih => exact .entry around named entry plain (ih hthere)
  | link around named entry nonempty _ ih =>
    rw [Nat.add_right_comm]
    refine .link around named entry nonempty ?_
    exact List.append_assoc .. ▸ ih hthere
  | free => cases hthere

/-- What is there already is not in the way. -/
theorem grow (h : Leads kind? links place steps lead)
    (hgrow : ∀ place k, kind? place = some k → kind?' place = some k)
    (hfile : ∀ place, lead = .free place → ∃ content, kind?' place = some (.file content)) :
    ∃ place', (lead = .there place' ∨ lead = .free place') ∧ Leads kind?' links place steps (.there place') := by
  induction h with
  | here place => exact ⟨place, .inl rfl, .here place⟩
  | idle around idles _ ih =>
    obtain ⟨place', hlead, h⟩ := ih hfile
    exact ⟨place', hlead, .idle (hgrow _ _ around) idles h⟩
  | back around _ ih =>
    obtain ⟨place', hlead, h⟩ := ih hfile
    exact ⟨place', hlead, .back (hgrow _ _ around) h⟩
  | entry around named entry plain _ ih =>
    obtain ⟨place', hlead, h⟩ := ih hfile
    exact ⟨place', hlead, .entry (hgrow _ _ around) named (hgrow _ _ entry) plain h⟩
  | link around named entry nonempty _ ih =>
    obtain ⟨place', hlead, h⟩ := ih hfile
    exact ⟨place', hlead, .link (hgrow _ _ around) named (hgrow _ _ entry) nonempty h⟩
  | free around named free =>
    obtain ⟨content, hcontent⟩ := hfile _ rfl
    exact ⟨_, .inr rfl, .entry (hgrow _ _ around) named hcontent (fun _ h => by cases h) (.here _)⟩

end Leads

/-- What the files contain makes no difference. -/
theorem follow_map (f : φ → ψ) : follow (fun place => (kind? place).map (Kind.map f)) enter place steps
    = follow kind? enter place steps := by
  induction steps generalizing place with
  | nil => rfl
  | cons step rest ih =>
    unfold follow
    simp only [ih]
    cases kind? place with
    | none => rfl
    | some k =>
      cases k with
      | file | link => rfl
      | directory =>
        simp only [Option.map_some, Kind.map]
        cases kind? (step :: place) with
        | none => rfl
        | some k => cases k <;> rfl

theorem walk_map (f : φ → ψ) :
    walk (fun place => (kind? place).map (Kind.map f)) links = walk kind? links := by
  induction links with
  | zero =>
    funext place steps
    exact follow_map f
  | succ links ih =>
    funext place steps
    rw [walk, walk, ih]
    exact follow_map f

/-! ## The directory around -/

theorem steps_ne_nil (path : String) : FileSystem.steps path ≠ [] :=
  fun h => List.splitOn_ne_nil _ _ (List.map_eq_nil_iff.mp h)

theorem notMem_of_mem_splitOn {separator : Char} {text piece : List Char}
    (h : piece ∈ text.splitOn separator) : separator ∉ piece := by
  rw [List.splitOn_eq_splitOnP] at h
  induction text generalizing piece with
  | nil =>
    rw [List.splitOnP_nil, List.mem_singleton] at h
    simp [h]
  | cons c text ih =>
    rw [List.splitOnP_cons_eq_if_modifyHead] at h
    split at h
    · rcases List.mem_cons.mp h with rfl | h
      · exact List.not_mem_nil
      · exact ih h
    · rename_i hc
      obtain ⟨first, others, hsplit⟩ := List.exists_cons_of_ne_nil (List.splitOnP_ne_nil (· == separator) text)
      rw [hsplit, List.modifyHead_cons] at h
      rcases List.mem_cons.mp h with rfl | h
      · intro hmem
        rcases List.mem_cons.mp hmem with rfl | hmem
        · exact hc (beq_self_eq_true _)
        · exact ih (hsplit ▸ List.mem_cons_self) hmem
      · exact ih (hsplit ▸ List.mem_cons_of_mem _ h)

theorem slash_notMem_steps {step : String} (h : step ∈ FileSystem.steps path) : '/' ∉ step.toList := by
  obtain ⟨piece, hpiece, rfl⟩ := List.mem_map.mp h
  rw [String.toList_ofList]
  exact notMem_of_mem_splitOn hpiece

/-- Steps that are joined with slashes are the steps of the path. -/
theorem steps_intercalate {first : String} {others : List String}
    (h : ∀ step ∈ first :: others, '/' ∉ step.toList) :
    FileSystem.steps ("/".intercalate (first :: others)) = first :: others := by
  have hslash : "/".toList = ['/'] := rfl
  rw [FileSystem.steps, String.toList_intercalate, hslash, List.splitOn_intercalate, List.map_map]
  · exact (List.map_congr_left fun step _ => String.ofList_toList).trans (List.map_id _)
  · intro piece hpiece
    obtain ⟨step, hstep, rfl⟩ := List.mem_map.mp hpiece
    exact h step hstep
  · exact List.cons_ne_nil _ _

/-- What is dropped from the end of a list stood there. -/
theorem dropped_append (p : String → Bool) (l : List String) :
    (l.reverse.dropWhile p).reverse ++ (l.reverse.takeWhile p).reverse = l := by
  rw [← List.reverse_append, List.takeWhile_append_dropWhile, List.reverse_reverse]

/-- The path of the directory around consists of the first steps of the path. -/
theorem steps_parentPath (h : parentPath path ≠ "") :
    ∃ rest, rest ≠ [] ∧ FileSystem.steps path = FileSystem.steps (parentPath path) ++ rest := by
  have hpath := dropped_append isIdle (FileSystem.steps path)
  unfold parentPath at h ⊢
  -- What was dropped at the end is the last step that is a name, and the steps around it that are none.
  cases hdrop : (FileSystem.steps path).reverse.dropWhile isIdle with
  | nil => simp [hdrop] at h
  | cons name outer =>
    simp only [hdrop, List.drop_succ_cons, List.drop_zero] at h ⊢
    rw [hdrop, List.reverse_cons] at hpath
    cases houter : outer.reverse with
    | nil => simp [houter] at h
    | cons first inner =>
      rw [houter, ← dropped_append isIdle inner] at hpath
      dsimp only
      rw [steps_intercalate]
      · refine ⟨(inner.reverse.takeWhile isIdle).reverse ++ name ::
          ((FileSystem.steps path).reverse.takeWhile isIdle).reverse, by simp, ?_⟩
        refine hpath.symm.trans ?_
        simp only [List.cons_append, List.append_assoc, List.nil_append]
      · intro step hstep
        have hmem : step ∈ FileSystem.steps path := by
          rw [← hpath]
          exact List.mem_append_left _ (List.mem_append_left _ (List.mem_append_left _ hstep))
        exact slash_notMem_steps hmem

/-- The first steps of a path begin where the path does. -/
theorem origin_append (hfirst : steps ≠ [""]) (hnil : steps ≠ []) :
    origin place (steps ++ rest) = origin place steps := by
  match steps with
  | [] => exact absurd rfl hnil
  | [step] =>
    have hstep : step ≠ "" := fun h => hfirst (by rw [h])
    unfold origin
    split <;> simp_all
  | step :: next :: others =>
    unfold origin
    split <;> split <;> simp_all

end FileSystem

end Straightline
