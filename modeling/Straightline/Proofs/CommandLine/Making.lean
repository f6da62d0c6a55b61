import Straightline.Proofs.CommandLine.Paths
import Straightline.Proofs.CommandLine.Trees

/-!
# What making directories changes

Making directories along steps is a matter of rules as well (`FileSystem.Makes`, `FileSystem.makeSteps_iff`).
Wherever a directory is made, there was nothing, and the steps lead there in what has been made; and nothing else
changes (`FileSystem.Makes.onlyMakes`).
-/

set_option autoImplicit false

namespace Straightline.FileSystem

open FileTree (Kind)

variable {t t' : FileTree Nat} {place inner other : Place} {step : String} {steps rest : List String}

/-- Something without entries that is put under a free name is all that is new. -/
theorem put_free (node : FileTree Nat) (hnode : ∀ name rest, node.kind? (name :: rest) = none)
    (haround : kindAt t place = some .directory) (hfree : kindAt t (step :: place) = none) :
    ∃ t', FileTree.put node (step :: place).reverse t = some t' ∧
      ∀ other, kindAt t' other = if other = step :: place then some node.kind else kindAt t other := by
  have hplace : (step :: place).reverse = place.reverse ++ [step] := List.reverse_cons
  rw [kindAt, hplace] at hfree
  obtain ⟨t', hput, hkind⟩ := FileTree.put_leaf hnode haround (by rw [hfree]; exact fun h => by cases h)
  rw [← hplace] at hput hkind
  refine ⟨t', hput, fun other => ?_⟩
  rw [kindAt, hkind]
  simp only [List.reverse_inj]
  rfl

/-- Making the directories along the steps turns `t` into `t'`. -/
inductive Makes : FileTree Nat → Place → List String → FileTree Nat → Prop where
  | here {t : FileTree Nat} {place : Place} (around : kindAt t place = some .directory) : Makes t place [] t
  | idle {t t' : FileTree Nat} {place : Place} {step : String} {rest : List String}
      (around : kindAt t place = some .directory) (idles : isIdle step = true) :
      Makes t place rest t' → Makes t place (step :: rest) t'
  | back {t t' : FileTree Nat} {place : Place} {rest : List String}
      (around : kindAt t place = some .directory) :
      Makes t place.tail rest t' → Makes t place (".." :: rest) t'
  | there {t t' : FileTree Nat} {place inner : Place} {step : String} {rest : List String}
      (around : kindAt t place = some .directory) (named : IsName step)
      (leads : walk (kindAt t) maxLinks place [step] = some (.there inner)) :
      Makes t inner rest t' → Makes t place (step :: rest) t'
  | made {t made t' : FileTree Nat} {place : Place} {step : String} {rest : List String}
      (around : kindAt t place = some .directory) (named : IsName step)
      (missing : kindAt t (step :: place) = none)
      (put : FileTree.put .empty (step :: place).reverse t = some made) :
      Makes made (step :: place) rest t' → Makes t place (step :: rest) t'

/-- There was nothing, and now there is a directory to which the first of the steps lead. -/
structure MadeAt (t t' : FileTree Nat) (place : Place) (steps : List String) (other : Place) : Prop where
  missing : kindAt t other = none
  made : kindAt t' other = some .directory
  leads : ∃ taken left links, steps = taken ++ left ∧ Leads (kindAt t') links place taken (.there other)

/-- Directories are made where nothing was, and nothing else changes. -/
def OnlyMakes (t t' : FileTree Nat) (place : Place) (steps : List String) : Prop :=
  ∀ other, kindAt t' other = kindAt t other ∨ MadeAt t t' place steps other

/-- What is there stays. -/
theorem OnlyMakes.grow (h : OnlyMakes t t' place steps) {k : Kind Nat} (hk : kindAt t other = some k) :
    kindAt t' other = some k := by
  rcases h other with hsame | hmade
  · rw [hsame, hk]
  · cases hk.symm.trans hmade.missing

/-- What is made at later steps is made. -/
theorem OnlyMakes.after {links : Nat} (h : OnlyMakes t t' inner rest)
    (hleads : Leads (kindAt t') links place [step] (.there inner)) :
    OnlyMakes t t' place (step :: rest) := by
  refine fun other => (h other).imp_right fun ⟨hmissing, hmade, taken, left, more, hsteps, htaken⟩ => ?_
  exact ⟨hmissing, hmade, step :: taken, left, links + more, by rw [hsteps]; rfl, hleads.append htaken⟩

theorem Makes.onlyMakes (h : Makes t place steps t') : OnlyMakes t t' place steps := by
  -- Along the steps: what is there stays, so the steps that were taken lead where they did in what is made.
  induction h with
  | here => exact fun _ => .inl rfl
  | idle around idles _ ih => exact ih.after (.idle (ih.grow around) idles (.here _) : Leads _ 0 _ _ _)
  | back around _ ih => exact ih.after (.back (ih.grow around) (.here _) : Leads _ 0 _ _ _)
  | there around named leads _ ih =>
    obtain ⟨_, ⟨⟨⟩⟩ | hfree, hleads⟩ :=
      (walk_iff.mp leads).grow (fun _ _ => ih.grow) fun _ h => by cases h
    · exact ih.after hleads
    · cases hfree
  | @made t made t' place step rest around named missing put _ ih =>
    obtain ⟨made', hput, hkind⟩ := put_free .empty (fun _ _ => rfl) around missing
    cases put.symm.trans hput
    have hhere : kindAt made (step :: place) = some .directory := by rw [hkind, if_pos rfl]; rfl
    have haround : kindAt made place = some .directory := by
      rw [hkind, if_neg fun h => List.cons_ne_self _ _ h.symm, around]
    have hleads : Leads (kindAt t') 0 place [step] (.there (step :: place)) :=
      .entry (ih.grow haround) named (ih.grow hhere) (fun _ h => by cases h) (.here _)
    intro other
    by_cases hother : other = step :: place
    · subst hother
      exact .inr ⟨missing, ih.grow hhere, [step], rest, 0, rfl, hleads⟩
    · have hsame : kindAt made other = kindAt t other := by rw [hkind, if_neg hother]
      exact (ih.after hleads other).imp (fun h => h.trans hsame) fun h =>
        ⟨hsame ▸ h.missing, h.made, h.leads⟩

end Straightline.FileSystem
