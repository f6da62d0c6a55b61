import Straightline.Proofs.Declaring.Order

/-!
# The first phase of units that exchange two functions

Two units agree up to a line feed, go on with two functions in one order and in the other, and end alike. Up
to the line feed the same is declared (`Declare.Rounds.twin`). A function that is the whole of some bytes
(`Scan.WholeFunction`) is read from them wherever they stand (`Scan.Reads.elsewhere`), so the two functions
are declared in either order, and what follows is read from the same place. So if the first phase of the one
unit succeeds, that of the other does, and the same is declared (`Declaring.Twin.declareWithin_exchanged`).
-/

set_option autoImplicit false

namespace Straightline

open IR (FunctionId)

/-- Exchanging two neighbours keeps the numbers below any that is not between them. -/
theorem IR.keepsBelow_swap {n m : Nat} (h : m ≤ n ∨ n + 2 ≤ m) :
    KeepsBelow (Equiv.swap n (n + 1)) m := by
  intro id
  change @Equiv.swap Nat _ n (n + 1) id < m ↔ id < m
  rw [Equiv.swap_apply_def]
  split_ifs <;> omega

/-! ## Functions wherever they stand -/

namespace Cursor

open Declare (isBlank)

/-- Blanks are left at `c`, if anything, and then `bytes`. -/
def Faces (c : Cursor) (bytes : List UInt8) : Prop :=
  ∃ gap, (∀ b ∈ gap, isBlank b = true) ∧ c.rest = gap ++ bytes

theorem faces_rest (c : Cursor) : c.Faces c.rest :=
  ⟨[], fun _ hb => (List.not_mem_nil hb).elim, rfl⟩

/-- Skipping blanks may begin anywhere among them. -/
theorem Faces.skip {c : Cursor} {bytes : List UInt8} (h : c.Faces bytes) :
    ∃ offset, (⟨bytes, offset⟩ : Cursor).skip isBlank = c.skip isBlank := by
  obtain ⟨gap, hgap, hrest⟩ := h
  refine ⟨c.offset + gap.length, ?_⟩
  simp only [Cursor.skip, run, hrest, List.dropWhile_append_of_pos hgap,
    List.takeWhile_append_of_pos hgap, List.length_append, Nat.add_assoc]

end Cursor

namespace Scan

open Declare (isBlank)

variable {types : SymbolTable Ty} {found found' : Found} {c c' c₁ c₁' body : Cursor}

/-- Blanks before a declaration make no difference. -/
theorem Reads.of_skip (h : Reads types c found c₁) (hskip : c'.skip isBlank = c.skip isBlank) :
    Reads types c' found c₁ := by
  have hheader : declaration types c = declaration types c' := by
    rw [← Declare.declaration_skip types c, ← hskip, Declare.declaration_skip]
  cases h with
  | type header definition => exact .type (hheader ▸ header) definition
  | global header contents => exact .global (hheader ▸ header) contents
  | function header opens body => exact .function (hheader ▸ header) opens body
  | method header opens body => exact .method (hheader ▸ header) opens body

theorem Reads.unique (h : Reads types c found c₁) (h' : Reads types c found' c₁') :
    found' = found ∧ c₁' = c₁ := by
  cases h <;> cases h' <;> simp_all

/-- The bytes begin with a line feed and are one function or method, header and body. -/
def WholeFunction (types : SymbolTable Ty) (bytes : List UInt8) : Prop :=
  bytes.head? = some Byte.lineFeed ∧ ∃ found body c,
    Reads types (.start bytes) found c ∧ found.body? = some body ∧ c.rest = []

/-- What is read of a function ends with a brace. -/
theorem Reads.closes (h : Reads types c found c₁) (hbody : found.body? = some body) :
    ∃ taken, c.rest = taken ++ Byte.closeBrace :: c₁.rest := by
  obtain ⟨_, hreaches⟩ := h.reaches
  obtain ⟨⟨taken, htaken, _⟩, c₂, hskip⟩ := hreaches body hbody
  have hend : skipBlock body = .ok () c₁ := by
    cases h with
    | type | global => cases hbody
    | function _ _ hskip | method _ _ hskip =>
      cases hbody
      exact hskip
  obtain ⟨tree, htree⟩ := BodyContext.skipBlock_ok hend
  have hcloses := (Fork.closed_block (w := ⟨Byte.closeBrace, [], [], 0, 0⟩) (N := 0) rfl).closes
  obtain ⟨more, hmore⟩ := hcloses _ _ _ htree
  exact ⟨taken ++ more, by rw [htaken, hmore, List.append_assoc]⟩

theorem WholeFunction.closes {bytes : List UInt8} (h : WholeFunction types bytes) :
    ∃ front, bytes = front ++ [Byte.closeBrace] := by
  obtain ⟨_, found, body, c, hreads, hbody, hend⟩ := h
  obtain ⟨taken, htaken⟩ := hreads.closes hbody
  exact ⟨taken, hend ▸ htaken⟩

/-- A function that is read from some bytes is read from them wherever they stand. -/
theorem Reads.elsewhere {bytes after : List UInt8} (h : Reads types c found c₁)
    (hbody : found.body? = some body) (hcloses : ∃ front, bytes = front ++ [Byte.closeBrace])
    (hc : c.Faces (bytes ++ c₁.rest)) (hc' : c'.Faces (bytes ++ after)) :
    ∃ body' c₁', Reads types c' (found.withBody body') c₁' ∧ c₁'.rest = after ∧
      SameBlock body body' := by
  obtain ⟨front, rfl⟩ := hcloses
  obtain ⟨offset, hskip⟩ := hc.skip
  obtain ⟨offset', hskip'⟩ := hc'.skip
  let w : Fork := ⟨Byte.closeBrace, c₁.rest, after, offset, offset'⟩
  have hbefore : w.Before ⟨front ++ [Byte.closeBrace] ++ c₁.rest, offset⟩
      ⟨front ++ [Byte.closeBrace] ++ after, offset'⟩ :=
    ⟨front, 0, by simp [w], by simp [w]⟩
  obtain ⟨body', c₁', hreads, ⟨k, _, rfl⟩, hsame⟩ :=
    hbefore.reads_closed rfl (h.of_skip hskip) hbody rfl
  exact ⟨body', _, hreads.of_skip hskip'.symm, rfl, hsame⟩

/-- A whole function is read wherever its bytes stand. -/
theorem WholeFunction.reads {bytes after : List UInt8} (h : WholeFunction types bytes)
    (hc : c.Faces (bytes ++ after)) :
    ∃ found body c₁, Reads types c found c₁ ∧ found.body? = some body ∧ c₁.rest = after := by
  have hcloses := h.closes
  obtain ⟨_, found, body, e, hreads, hbody, hend⟩ := h
  have hstart : (Cursor.start bytes).Faces (bytes ++ e.rest) := by
    rw [hend, List.append_nil]
    exact Cursor.faces_rest _
  obtain ⟨body', c₁, hreads', hrest, _⟩ := hreads.elsewhere hbody hcloses hstart hc
  exact ⟨_, body', c₁, hreads', by simp [hbody], hrest⟩

namespace Found

/-- The declaration with the body that it has. -/
theorem withBody_self (found : Found) (c : Cursor) :
    found.withBody (found.body?.getD c) = found := by
  cases found <;> rfl

end Found

/-- Neither declaration is in the way of the other. -/
def Found.Apart : Found → Found → Prop
  | .function name .., .function name' .. => name ≠ name'
  | .method name _ owner .., .method name' _ owner' .. =>
    Declarations.methodKey owner name ≠ Declarations.methodKey owner' name'
  | _, _ => True

theorem Found.Apart.symm {first second : Found} (h : first.Apart second) (b b' : Cursor) :
    (second.withBody b).Apart (first.withBody b') := by
  cases first <;> cases second <;> first | exact trivial | exact Ne.symm h

/-- A body that is skipped is the same as itself. -/
theorem SameBlock.self (h : skipBlock c = .ok () c₁) : SameBlock c c := by
  obtain ⟨tree, htree⟩ := BodyContext.skipBlock_ok h
  exact ⟨tree, id, c₁, c₁, htree, by rw [tree.relocate_id]; exact htree⟩

end Scan

/-! ## Rounds on both sides -/

namespace Declaring

variable {σ : FunctionId → FunctionId} {source source' : List UInt8} {s s' t : Declaring}
  {found : Scan.Found} {body c c' : Cursor}

theorem nextFunction_le_take (s : Declaring) (found : Scan.Found) (c : Cursor) :
    s.nextFunction ≤ (s.take found c).nextFunction := by
  cases h : found.body? with
  | some body =>
    rw [nextFunction_take h]
    exact Nat.le_succ _
  | none =>
    cases found with
    | type | global => exact Nat.le_refl _
    | function | method => cases h

end Declaring

namespace Declare

open Declaring (Twin)

variable {σ : FunctionId → FunctionId} {source source' : List UInt8} {s s' t : Declaring}

theorem Rounds.reaches (h : Rounds s t) : s.cursor.Reaches t.cursor := by
  induction h with
  | none => exact .refl _
  | more hround _ ih =>
    obtain ⟨found, c, hreads, _, rfl⟩ := round_iff.mp hround
    rw [Declaring.cursor_take] at ih
    exact hreads.reaches.1.trans ih

theorem Rounds.nextFunction_le (h : Rounds s t) : s.nextFunction ≤ t.nextFunction := by
  induction h with
  | none => exact Nat.le_refl _
  | more hround _ ih =>
    obtain ⟨found, c, _, _, rfl⟩ := round_iff.mp hround
    exact Nat.le_trans (Declaring.nextFunction_le_take _ found c) ih

/-- Up to where the sources part the same is declared. -/
theorem Rounds.twin {w : Fork} (hrounds : Rounds s t) (h : s.Twin σ source source' s')
    (hbefore : w.Before s.cursor s'.cursor) (hahead : w.Ahead t.cursor)
    (hbelow : ∀ n ≤ t.nextFunction, IR.KeepsBelow σ n) :
    ∃ t', Rounds s' t' ∧ t.Twin σ source source' t' ∧ w.Before t.cursor t'.cursor := by
  induction hrounds generalizing s' with
  | none => exact ⟨s', .none, h, hbefore⟩
  | more hround hrest ih =>
    obtain ⟨found, c, hreads, hfree, rfl⟩ := round_iff.mp hround
    have hahead' := hahead.of_reaches hrest.reaches
    rw [Declaring.cursor_take] at hahead'
    obtain ⟨body', c', hreads', hbefore', hbody⟩ := hbefore.reads hreads hahead'
    obtain ⟨hreach, hreaches⟩ := hreads.reaches
    obtain ⟨hreach', hreaches'⟩ := hreads'.reaches
    have htwin := h.take body' hfree hreach hreach'
      (fun body hmem => ⟨(hreaches body hmem).1, (hreaches' body' (by simp [hmem])).1, (hbody body hmem).2⟩)
      (fun body hmem => by
        have hle := hrest.nextFunction_le
        rw [Declaring.nextFunction_take hmem] at hle
        exact ⟨hbelow _ (Nat.le_of_succ_le hle), hbelow _ hle⟩)
    obtain ⟨t', hrounds', htwin', hbefore''⟩ := ih htwin
      (by rw [Declaring.cursor_take, Declaring.cursor_take]; exact hbefore') hahead hbelow
    refine ⟨t', .more (round_iff.mpr ⟨_, _, ?_, h.free _ hfree, rfl⟩) hrounds', htwin', hbefore''⟩
    rw [h.types]
    exact hreads'

/-- Where the first phase succeeds, what is read next is free. -/
theorem declareWithin_reads {found : Scan.Found} {c : Cursor} {bound : Nat}
    (hreads : Scan.Reads s.declarations.types s.cursor found c)
    (hok : declareWithin bound s = .ok () t) :
    s.declarations.Free found ∧ ∃ bound', declareWithin bound' (s.take found c) = .ok () t := by
  rcases declareWithin_ok hok with ⟨hempty, _⟩ | ⟨s₁, bound', _, hround, hrest⟩
  · have hmore : (s.cursor.skip isBlank).rest.isEmpty = false := by
      cases hreads with
      | type hheader | global hheader | function hheader | method hheader =>
        exact more_declaration hheader
    rw [hempty] at hmore
    cases hmore
  · obtain ⟨found', c', hreads', hfree, rfl⟩ := round_iff.mp hround
    obtain ⟨rfl, rfl⟩ := hreads.unique hreads'
    exact ⟨hfree, bound', hrest⟩

end Declare

namespace Declaring

open Declare (declareWithin declareWithin_ok declareWithin_succ declareWithin_reads round_iff Rounds)

variable {σ : FunctionId → FunctionId} {source source' : List UInt8} {s s' t : Declaring}

/-- From the same place on the same is declared. -/
theorem Twin.declareWithin {bound bound' : Nat} (h : s.Twin σ source source' s')
    (hcursor : s'.cursor = s.cursor) (hbelow : ∀ n ≥ s.nextFunction, IR.KeepsBelow σ n)
    (hok : declareWithin bound s = .ok () t) (hbound : s'.cursor.rest.length < bound') :
    ∃ t', Declare.declareWithin bound' s' = .ok () t' ∧ t.Twin σ source source' t' := by
  induction bound generalizing s s' bound' with
  | zero => cases hok
  | succ bound ih =>
    obtain ⟨bound', rfl⟩ := Nat.exists_eq_succ_of_ne_zero (Nat.ne_zero_of_lt hbound)
    rcases declareWithin_ok hok with ⟨hempty, rfl⟩ | ⟨s₁, _, hsucc, hround, hrest⟩
    · refine ⟨{ s' with cursor := s'.cursor.skip Declare.isBlank }, ?_, ?_⟩
      · rw [Nat.succ_eq_add_one, declareWithin_succ, hcursor, if_pos hempty]
      · exact ⟨h.declarations, h.module, h.bodies, h.listed.elsewhere, h.listed'.elsewhere,
          h.reached.trans (Cursor.reaches_skip _ _), h.reached'.trans (Cursor.reaches_skip _ _)⟩
    · cases hsucc
      obtain ⟨found, c, hreads, hfree, rfl⟩ := round_iff.mp hround
      obtain ⟨hreach, hreaches⟩ := hreads.reaches
      have htwin : (s.take found c).Twin σ source source'
          (s'.take (found.withBody (found.body?.getD c)) c) := by
        refine h.take _ hfree hreach (hcursor ▸ hreach) (fun body hmem => ?_) fun body _ =>
          ⟨hbelow _ (Nat.le_refl _), hbelow _ (Nat.le_succ _)⟩
        obtain ⟨hbody, e, hskip⟩ := hreaches body hmem
        rw [hmem]
        exact ⟨hbody, hcursor ▸ hbody, .self hskip⟩
      rw [found.withBody_self] at htwin
      have hfree' := found.withBody_self c ▸ h.free (found.body?.getD c) hfree
      have hround' : Declare.round s' = .ok () (s'.take found c) :=
        round_iff.mpr ⟨found, c, by rw [h.types, hcursor]; exact hreads, hfree', rfl⟩
      rw [Nat.succ_eq_add_one, Declare.declareWithin_round hround']
      refine ih htwin (by rw [cursor_take, cursor_take])
        (fun n hn => hbelow n (Nat.le_trans (s.nextFunction_le_take found c) hn)) hrest ?_
      have hshorter := Declare.shorter_round hround'
      omega

/-- A function may be declared after another if it may be declared and is not in the way of that. -/
theorem free_take {first second : Scan.Found} {b₁ b₂ : Cursor} (c : Cursor)
    (hfirst : first.body? = some b₁) (hsecond : second.body? = some b₂) :
    (s.take first c).declarations.Free second ↔ s.declarations.Free second ∧ first.Apart second := by
  have hconcat {α : Type} (t : SymbolTable α) (name other : String) (item : α) :
      (⟨t.entries ++ [(name, item)]⟩ : SymbolTable α).contains other = false ↔
        t.contains other = false ∧ name ≠ other := by
    rw [SymbolTable.contains_concat, Bool.or_eq_false_iff, beq_eq_false_iff_ne]
  cases first with
  | type | global => cases hfirst
  | function =>
    cases second with
    | type | global => cases hsecond
    | function => exact hconcat _ _ _ _
    | method => exact (and_iff_left trivial).symm
  | method =>
    cases second with
    | type | global => cases hsecond
    | function => exact (and_iff_left trivial).symm
    | method => exact hconcat _ _ _ _

/-- Cursors into sources of the same length that have the same left are at the same place. -/
theorem Twin.sameCursor (h : s.Twin σ source source' s') (hlength : source'.length = source.length)
    (hrest : s'.cursor.rest = s.cursor.rest) : s'.cursor = s.cursor := by
  obtain ⟨taken, htaken, hoffset⟩ := h.reached
  obtain ⟨taken', htaken', hoffset'⟩ := h.reached'
  simp only [Cursor.start, Nat.zero_add] at htaken htaken' hoffset hoffset'
  rw [htaken, htaken', List.length_append, List.length_append, hrest] at hlength
  cases hc : s.cursor
  cases hc' : s'.cursor
  simp only [hc, hc'] at hrest hoffset hoffset' hlength
  rw [hrest, hoffset, hoffset', Nat.add_right_cancel hlength]

/-- Where the first phase succeeds from two functions on, it does so with the functions exchanged, and the
same is declared. -/
theorem Twin.declareWithin_exchanged {first second after : List UInt8} {bound bound' : Nat}
    (h : s.Twin (Equiv.swap s.nextFunction (s.nextFunction + 1)) source source' s')
    (hlength : source'.length = source.length)
    (hfirst : Scan.WholeFunction s.declarations.types first)
    (hsecond : Scan.WholeFunction s.declarations.types second)
    (hfaces : s.cursor.Faces (first ++ (second ++ after)))
    (hfaces' : s'.cursor.Faces (second ++ (first ++ after)))
    (hok : Declare.declareWithin bound s = .ok () t) (hbound : s'.cursor.rest.length < bound') :
    ∃ t', Declare.declareWithin bound' s' = .ok () t' ∧
      t.Twin (Equiv.swap s.nextFunction (s.nextFunction + 1)) source source' t' := by
  -- The two functions are read from the one source, and may be declared there.
  obtain ⟨f₁, b₁, c₁, hreads₁, hbody₁, hc₁⟩ := hfirst.reads hfaces
  have hfaces₁ : c₁.Faces (second ++ after) := hc₁ ▸ c₁.faces_rest
  obtain ⟨f₂, b₂, c₂, hreads₂, hbody₂, hc₂⟩ := hsecond.reads hfaces₁
  obtain ⟨hfree₁, _, hok₁⟩ := declareWithin_reads hreads₁ hok
  have htypes₁ := (types_take (s := s) (c := c₁) hbody₁).1
  obtain ⟨hfree₂, _, hok₂⟩ := declareWithin_reads (by rw [htypes₁, cursor_take]; exact hreads₂) hok₁
  -- They are read from the other one the other way round.
  obtain ⟨b₂', c₁', hreads₂', hc₁', hsame₂⟩ :=
    hreads₂.elsewhere hbody₂ hsecond.closes (hc₂.symm ▸ hfaces₁) hfaces'
  have hfaces₁' : c₁'.Faces (first ++ after) := hc₁' ▸ c₁'.faces_rest
  obtain ⟨b₁', c₂', hreads₁', hc₂', hsame₁⟩ :=
    hreads₁.elsewhere hbody₁ hfirst.closes (hc₁.symm ▸ hfaces) hfaces₁'
  have hbody₁' : (f₁.withBody b₁').body? = some b₁' := by simp [hbody₁]
  have hbody₂' : (f₂.withBody b₂').body? = some b₂' := by simp [hbody₂]
  obtain ⟨hfree₂', hapart⟩ := (free_take _ hbody₁ hbody₂).mp hfree₂
  have hfree₁' : (s'.take (f₂.withBody b₂') c₁').declarations.Free (f₁.withBody b₁') :=
    (free_take _ hbody₂' hbody₁').mpr ⟨h.free _ hfree₁, hapart.symm _ _⟩
  have hrounds : Rounds s' ((s'.take (f₂.withBody b₂') c₁').take (f₁.withBody b₁') c₂') := by
    refine .more (round_iff.mpr ⟨_, _, ?_, h.free _ hfree₂', rfl⟩)
      (.more (round_iff.mpr ⟨_, _, ?_, hfree₁', rfl⟩) .none)
    · rw [h.types]
      exact hreads₂'
    · rw [(types_take hbody₂').1, h.types, cursor_take]
      exact hreads₁'
  -- From where both are declared the sources have the same left.
  obtain ⟨hreach₁, hb₁⟩ := hreads₁.reaches
  obtain ⟨hreach₂, hb₂⟩ := hreads₂.reaches
  obtain ⟨hreach₁', hb₂'⟩ := hreads₂'.reaches
  obtain ⟨hreach₂', hb₁'⟩ := hreads₁'.reaches
  have htwin : ((s.take f₁ c₁).take f₂ c₂).Twin _ source source'
      ((s'.take (f₂.withBody b₂') c₁').take (f₁.withBody b₁') c₂') :=
    h.exchange (Equiv.swap_apply_left _ _) (Equiv.swap_apply_right _ _)
      (IR.keepsBelow_swap (.inl (Nat.le_refl _))) (IR.keepsBelow_swap (.inr (Nat.le_refl _)))
      hbody₁ hbody₂ hfree₁ hfree₂ (h.free _ hfree₂') hfree₁' (hreach₁.trans hreach₂) (hreach₁'.trans hreach₂')
      ⟨(hb₁ _ hbody₁).1, hreach₁'.trans (hb₁' _ hbody₁').1, hsame₁⟩
      ⟨hreach₁.trans (hb₂ _ hbody₂).1, (hb₂' _ hbody₂').1, hsame₂⟩
  obtain ⟨bound'', hbound'', heq⟩ := hrounds.declareWithin hbound
  rw [heq]
  refine htwin.declareWithin (htwin.sameCursor hlength ?_) (fun n hn => ?_) hok₂ hbound''
  · rw [cursor_take, cursor_take, hc₂, hc₂']
  · rw [nextFunction_take hbody₂, nextFunction_take hbody₁] at hn
    exact IR.keepsBelow_swap (.inr hn)

end Declaring

end Straightline
