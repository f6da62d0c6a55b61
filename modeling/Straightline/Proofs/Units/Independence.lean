import Straightline.Proofs.Declaring.Locality
import Straightline.Proofs.Emission.Renumbering
import Straightline.Proofs.Units.Correspondence

/-!
# Bodies are compiled independently of each other

The second phase compiles one body after the other, and what has become of the others makes no difference:
a body asks the module for structures and headers, which no body changes. So it may be said of every single
body what it is compiled to from where the first phase has ended (`BodyContext.compiled`). The second phase
succeeds if every body is compiled alone, and then each function is what its body alone is compiled to
(`BodyContext.forM_compiled`).

A body that stands elsewhere, in a unit whose functions have other numbers, is compiled to the same function
with its calls renumbered (`BodyContext.compiled_twin`).
-/

set_option autoImplicit false

namespace Straightline

open IR (Site FunctionId)

namespace IR

/-- A body changes nothing that another asks for. -/
theorem Builder.similar_site {w : Site} {insts : List Inst} (h : w.Open) :
    w.base.Similar id (w.builder insts) where
  structs := rfl
  headers other := by
    have hheaders : (w.builder insts).module.headers[other]? = w.base.module.headers[other]? := by
      rw [Site.headers h]
    simp only [Module.headers, List.getElem?_map] at hheaders
    exact hheaders

end IR

/-! ## The same body in two units -/

/-- In `source` and in `source'` the same body is awaited, for the same function under another number. -/
structure PendingBody.Twin (σ : FunctionId → FunctionId) (source source' : List UInt8)
    (body body' : PendingBody) : Prop where
  name : body'.name = body.name
  function : body'.function = σ body.function
  parameters : body'.parameters = body.parameters
  result : body'.result = body.result
  block : Scan.SameBlock (.seek source body.resume) (.seek source' body'.resume)

/-- In `source` and in `source'` the same bodies are awaited, in whatever order. -/
structure PendingBody.Twins (σ : FunctionId → FunctionId) (source source' : List UInt8)
    (bodies bodies' : List PendingBody) : Prop where
  forth : ∀ body ∈ bodies, ∃ body' ∈ bodies', body.Twin σ source source' body'
  back : ∀ body' ∈ bodies', ∃ body ∈ bodies, body.Twin σ source source' body'

namespace PendingBody.Twins

variable {σ : FunctionId → FunctionId} {source source' : List UInt8}
  {some some' more more' : List PendingBody}

theorem append (h : Twins σ source source' some some') (hmore : Twins σ source source' more more') :
    Twins σ source source' (some ++ more) (some' ++ more') where
  forth body hbody := by
    rcases List.mem_append.mp hbody with hbody | hbody
    · obtain ⟨body', hbody', htwin⟩ := h.forth body hbody
      exact ⟨body', List.mem_append_left _ hbody', htwin⟩
    · obtain ⟨body', hbody', htwin⟩ := hmore.forth body hbody
      exact ⟨body', List.mem_append_right _ hbody', htwin⟩
  back body' hbody' := by
    rcases List.mem_append.mp hbody' with hbody' | hbody'
    · obtain ⟨body, hbody, htwin⟩ := h.back body' hbody'
      exact ⟨body, List.mem_append_left _ hbody, htwin⟩
    · obtain ⟨body, hbody, htwin⟩ := hmore.back body' hbody'
      exact ⟨body, List.mem_append_right _ hbody, htwin⟩

theorem perm (h : Twins σ source source' some some') (hmore : more.Perm some)
    (hmore' : more'.Perm some') : Twins σ source source' more more' where
  forth body hbody := by
    obtain ⟨body', hbody', htwin⟩ := h.forth body (hmore.mem_iff.mp hbody)
    exact ⟨body', hmore'.mem_iff.mpr hbody', htwin⟩
  back body' hbody' := by
    obtain ⟨body, hbody, htwin⟩ := h.back body' (hmore'.mem_iff.mp hbody')
    exact ⟨body, hmore.mem_iff.mpr hbody, htwin⟩

theorem nil : Twins σ source source' [] [] :=
  ⟨fun _ h => (List.not_mem_nil h).elim, fun _ h => (List.not_mem_nil h).elim⟩

theorem one {body body' : PendingBody} (h : body.Twin σ source source' body') :
    Twins σ source source' [body] [body'] where
  forth _ hother := ⟨body', List.mem_singleton_self _, List.mem_singleton.mp hother ▸ h⟩
  back _ hother := ⟨body, List.mem_singleton_self _, List.mem_singleton.mp hother ▸ h⟩

end PendingBody.Twins

namespace BodyContext

variable {σ : FunctionId → FunctionId} {d d' : Declarations} {source source' : List UInt8}
  {body body' : PendingBody}

theorem mirrors_emitOpened (hd : d.settled.Renumbered σ d'.settled) (h : body.Twin σ source source' body') :
    ∃ f, Emit.Mirrors (IR.Builder.Twin σ) f (emitOpened d source body) (emitOpened d' source' body') := by
  obtain ⟨tree, f, e, e', htree, htree'⟩ := h.block
  refine ⟨f, ?_⟩
  unfold emitOpened
  rw [h.name, h.function, h.parameters, h.result]
  refine .bind (mirrors_bindParameters (.twin σ) _ _ _ _) fun scope => ?_
  have hctx : Renumbered σ ⟨d, body.name, body.result⟩ ⟨d', body.name, body.result⟩ := ⟨hd, rfl, rfl⟩
  simp only [emitBlockAt, htree, htree']
  exact mirrors_emitBlock (.twin σ) hctx tree

/-- What the function of a body is compiled to from `s` on, if the body is accepted. -/
def compiled (d : Declarations) (source : List UInt8) (s : Emission) (body : PendingBody) :
    Option IR.Function :=
  match emitPending d source body s with
  | .ok _ t => t.builder.module.function? body.function
  | .error _ _ => none

/-- The same body among functions with other numbers is compiled to the same function. -/
theorem compiled_twin {s s' : Emission} {f : IR.Function} (hd : d.settled.Renumbered σ d'.settled)
    (h : body.Twin σ source source' body') (hsimilar : s.builder.Similar σ s'.builder)
    (hf : s.builder.module.function? body.function = some f)
    (hf' : s'.builder.module.function? (σ body.function) = some (f.renumber σ)) :
    compiled d' source' s' body' = (compiled d source s body).map (IR.Function.renumber σ) := by
  obtain ⟨g, hmirrors⟩ := mirrors_emitOpened hd h
  have hopened : (opened body s).builder.Twin σ (opened body' s').builder := by
    simp only [opened, h.function]
    exact hsimilar.openEntry hf hf'
  have hcurrent : (opened body s).builder.current = some body.function := by
    simp only [opened, IR.Build.openEntry, hf]
  have hends := hmirrors _ _ hopened
  have hamends := amends_emitOpened d source body (opened body s)
  unfold compiled
  rw [emitPending_eq, emitPending_eq, h.function]
  generalize emitOpened d source body (opened body s) = r at hends hamends
  generalize emitOpened d' source' body' (opened body' s') = r' at hends
  cases hends with
  | ok more twin log log' => exact twin.opened _ (hamends.current.trans hcurrent)
  | error more twin log log' => rfl

/-! ## One body after the other -/

/-- What a body is compiled to is not changed by what other bodies have been compiled to. -/
theorem compiled_similar {s s' : Emission} {f : IR.Function} {c : Cursor}
    (hskip : Scan.skipBlock (.seek source body.resume) = .ok () c)
    (hsimilar : s.builder.Similar id s'.builder)
    (hf : s.builder.module.function? body.function = some f)
    (hf' : s'.builder.module.function? body.function = some f) :
    compiled d source s' body = compiled d source s body := by
  obtain ⟨tree, htree⟩ := skipBlock_ok hskip
  have hbody : body.Twin id source source body :=
    ⟨rfl, rfl, rfl, rfl, tree, id, c, c, htree, by rw [tree.relocate_id]; exact htree⟩
  have htwin := compiled_twin (.refl d.settled) hbody hsimilar hf (by rw [f.renumber_id]; exact hf')
  rw [htwin]
  cases compiled d source s body with
  | none => rfl
  | some g => rw [Option.map_some, g.renumber_id]

/-- A body that is accepted has changed its own function alone, and no header. -/
theorem emitPending_site {rest : List PendingBody} {s s' : Emission}
    (h : d.Awaits s.builder (body :: rest)) (hs : emitPending d source body s = .ok () s') :
    ∃ (w : Site) (insts : List IR.Inst), w.base = s.builder ∧ w.Open ∧ w.id = body.function ∧
      s'.builder = w.builder insts := by
  obtain ⟨w, hbase, hopen, hid, hparams, hret, hemits⟩ := emitPending_ok h hs
  rw [← hbase] at h
  obtain ⟨insts, hbuilder, _⟩ := hemits _ (typed_emitOpened hopen hid h.declarations hparams hret
    (h.ready body List.mem_cons_self).parameters)
  exact ⟨w, insts, hbase, hopen, hid, hbuilder⟩

/-- In `t` the bodies have been compiled from `s` on, each to what it is alone compiled to from `s₀` on. -/
structure Completes (d : Declarations) (source : List UInt8) (s₀ s : Emission)
    (bodies : List PendingBody) (t : Emission) : Prop where
  name : t.builder.module.name = s.builder.module.name
  structs : t.builder.module.structs = s.builder.module.structs
  globals : t.builder.module.globals = s.builder.module.globals
  count : t.builder.module.functions.length = s.builder.module.functions.length
  compiled : ∀ body ∈ bodies, ∃ f, compiled d source s₀ body = some f ∧
    t.builder.module.function? body.function = some f
  others : ∀ id, (∀ body ∈ bodies, body.function ≠ id) →
    t.builder.module.function? id = s.builder.module.function? id

/-- In the state after a body, its function is as it was compiled, and any other is as it was. -/
theorem function?_site {w : Site} {insts : List IR.Inst} {s s₁ : Emission} (hbase : w.base = s.builder)
    (hopen : w.Open) (hbuilder : s₁.builder = w.builder insts) :
    s₁.builder.module.function? w.id = some (w.withBody insts) ∧
      ∀ id, w.id ≠ id → s₁.builder.module.function? id = s.builder.module.function? id := by
  rw [hbuilder, ← hbase]
  exact ⟨Site.function?_self hopen, fun id hne => Site.function?_of_ne hne⟩

/-- One body has been compiled, and then the others. -/
theorem completes_cons {w : Site} {insts : List IR.Inst} {rest : List PendingBody} {s₀ s s₁ t : Emission}
    (hbase : w.base = s.builder) (hopen : w.Open) (hid : w.id = body.function)
    (hbuilder : s₁.builder = w.builder insts) (hother : ∀ other ∈ rest, w.id ≠ other.function)
    (hcompiled : compiled d source s₀ body = some (w.withBody insts))
    (hrest : Completes d source s₀ s₁ rest t) : Completes d source s₀ s (body :: rest) t := by
  obtain ⟨hself, hothers⟩ := function?_site hbase hopen hbuilder
  have hmodule : s₁.builder.module.name = s.builder.module.name ∧
      s₁.builder.module.structs = s.builder.module.structs ∧
      s₁.builder.module.globals = s.builder.module.globals ∧
      s₁.builder.module.functions.length = s.builder.module.functions.length := by
    rw [hbuilder, ← hbase]
    exact ⟨rfl, rfl, rfl, List.length_set ..⟩
  obtain ⟨hname, hstructs, hglobals, hcount⟩ := hmodule
  refine ⟨hrest.name.trans hname, hrest.structs.trans hstructs, hrest.globals.trans hglobals,
    hrest.count.trans hcount, ?_, ?_⟩
  · intro one hone
    rcases List.mem_cons.mp hone with rfl | hone
    · refine ⟨w.withBody insts, hcompiled, ?_⟩
      rw [hrest.others _ fun other hmem he => hother other hmem (hid.trans he.symm), ← hid]
      exact hself
    · exact hrest.compiled one hone
  · intro id hne
    have hid' : w.id ≠ id := hid ▸ hne body List.mem_cons_self
    exact (hrest.others id fun other hmem => hne other (List.mem_cons_of_mem _ hmem)).trans
      (hothers id hid')

/-- The bodies are all compiled if each of them is alone, and otherwise one is refused. -/
theorem forM_compiled {bodies : List PendingBody} {s₀ s : Emission}
    (hawaits : d.Awaits s.builder bodies)
    (hskips : ∀ body ∈ bodies, ∃ c, Scan.skipBlock (.seek source body.resume) = .ok () c)
    (hsimilar : s₀.builder.Similar id s.builder)
    (hsame : ∀ body ∈ bodies, s.builder.module.function? body.function
      = s₀.builder.module.function? body.function) :
    match bodies.forM (emitPending d source) s with
    | .ok _ t => Completes d source s₀ s bodies t
    | .error _ _ => ∃ body ∈ bodies, compiled d source s₀ body = none := by
  induction bodies generalizing s with
  | nil => exact ⟨rfl, rfl, rfl, rfl, fun _ h => (List.not_mem_nil h).elim, fun _ _ => rfl⟩
  | cons body rest ih =>
    obtain ⟨c, hskip⟩ := hskips body List.mem_cons_self
    obtain ⟨⟨f, hf, _⟩, _⟩ := hawaits.ready body List.mem_cons_self
    have hcompiled := compiled_similar (d := d) hskip hsimilar
      ((hsame body List.mem_cons_self).symm.trans hf) hf
    have hcons : (body :: rest).forM (emitPending d source)
        = emitPending d source body >>= fun _ => rest.forM (emitPending d source) := rfl
    rw [hcons]
    cases hbody : emitPending d source body s with
    | error refusal t =>
      rw [bind_of_error hbody]
      refine ⟨body, List.mem_cons_self, hcompiled.symm.trans ?_⟩
      simp only [compiled, hbody]
    | ok _ s₁ =>
      rw [bind_of_ok hbody]
      obtain ⟨w, insts, hbase, hopen, hid, hbuilder⟩ := emitPending_site hawaits hbody
      have hdistinct := hawaits.distinct
      rw [List.map_cons, List.nodup_cons] at hdistinct
      have hother : ∀ other ∈ rest, w.id ≠ other.function := by
        intro other hmem he
        exact hdistinct.1 (hid ▸ he ▸ List.mem_map_of_mem hmem)
      obtain ⟨hself, hothers⟩ := function?_site hbase hopen hbuilder
      -- The others find what they found before, for the first body has changed its own function alone.
      have hrest := ih (emitPending_awaits hawaits hbody)
        (fun other hmem => hskips other (List.mem_cons_of_mem _ hmem))
        (hsimilar.trans (by rw [hbuilder, ← hbase]; exact IR.Builder.similar_site hopen))
        (fun other hmem => (hothers _ (hother other hmem)).trans
          (hsame other (List.mem_cons_of_mem _ hmem)))
      cases hloop : rest.forM (emitPending d source) s₁ with
      | error refusal t =>
        rw [hloop] at hrest
        obtain ⟨other, hmem, hnone⟩ := hrest
        exact ⟨other, List.mem_cons_of_mem _ hmem, hnone⟩
      | ok _ t =>
        rw [hloop] at hrest
        refine completes_cons hbase hopen hid hbuilder hother ?_ hrest
        rw [← hcompiled, compiled, hbody, ← hid]
        exact hself

end BodyContext

end Straightline
