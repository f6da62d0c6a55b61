import Straightline.Proofs.Reading.Relocation
import Straightline.Proofs.TwoPasses

/-!
# A declaration depends on its own bytes

`Scan.Reads` says what is read of a declaration in the first phase. Where two sources agree on the bytes of a
declaration and on the byte after it, the same is read from both, and the body that is put off has the same
tree (`Fork.Before.reads`). A function or method is closed by the brace of its body, so that nothing after it
matters (`Fork.Before.reads_closed`).
-/

set_option autoImplicit false

namespace Straightline

namespace Fork

open Scan

variable {w : Fork} {N : Nat}

/-! ## Headers -/

theorem local_type (types : SymbolTable Ty) : w.Local N 1 id (type types) (type types) :=
  local_nonemptyWord.take fun _ => local_check

theorem local_typedNames (types : SymbolTable Ty) :
    w.Local N 1 id (typedNames types) (typedNames types) := by
  have h := local_arguments (w := w) (N := N) (g := id) fun left right (_ : Nat) =>
    local_skipToContent.bind fun _ => local_type types
  rwa [Prod.map_id, List.map_id_fun] at h

theorem local_signature (types : SymbolTable Ty) :
    w.Local N 1 id (signature types) (signature types) := by
  refine (local_typedNames types).take fun _ => local_check.bind ?_
  intro _
  refine local_skipToContent.bind fun _ => local_arrow.bind ?_
  intro _
  refine local_skipToContent.bind fun _ => ((local_type types).weaken (Nat.zero_le 1)).bind ?_
  intro _
  exact .pure rfl

theorem local_repeatedKind (name : String) (kind : AggregateKind) :
    w.Local N 0 id (repeatedKind name kind) (repeatedKind name kind) :=
  (local_lookingAt _).bind fun _ => .ite (.pure rfl) (local_word.bind fun _ => local_require _ _)

theorem local_typeDefinition (name : String) (kind : AggregateKind) (types : SymbolTable Ty) :
    w.Local N 0 id (typeDefinition name kind types) (typeDefinition name kind types) := by
  refine local_skipToContent.bind fun _ => (local_expect _).bind ?_
  intro _
  refine local_skipToContent.bind fun _ => (local_repeatedKind name kind).bind ?_
  intro _
  refine local_skipToContent.bind fun _ => (local_expect _).bind ?_
  intro _
  refine ((local_typedNames types).weaken (Nat.zero_le 1)).bind fun _ => local_check.bind ?_
  intro _
  exact .pure rfl

theorem local_methodHeader (types : SymbolTable Ty) (ownerName : String) :
    w.Local N 0 id (methodHeader types ownerName) (methodHeader types ownerName) := by
  have hword : ∀ {M : Nat}, w.Local M 0 id nonemptyWord nonemptyWord :=
    local_nonemptyWord.weaken (Nat.zero_le 1)
  refine hword.bind fun _ => local_skipToContent.bind ?_
  intro _
  refine (local_expect _).bind fun _ => local_skipToContent.bind ?_
  intro _
  refine (local_expect _).bind fun _ => local_skipToContent.bind ?_
  intro _
  refine hword.bind fun _ => local_skipToContent.bind ?_
  intro _
  refine (local_expect _).bind fun _ => local_skipToContent.bind ?_
  intro _
  refine hword.bind fun _ => (local_require _ _).bind ?_
  intro _
  refine local_skipToContent.bind fun _ => (local_expect _).bind ?_
  intro _
  refine local_skipToContent.bind fun _ => local_arrow.bind ?_
  intro _
  refine local_check.bind fun _ => (local_require _ _).bind ?_
  intro _
  refine local_skipToContent.bind fun _ => (local_lookingAt _).bind fun _ => .ite ?_ ?_
  · exact local_advance.bind fun _ =>
      ((local_signature types).weaken (Nat.zero_le 1)).bind fun _ => .pure rfl
  · exact ((local_type types).weaken (Nat.zero_le 1)).bind fun _ => .pure rfl

theorem local_declaration (types : SymbolTable Ty) :
    w.Local N 1 id (declaration types) (declaration types) := by
  refine local_skipToContent.bind fun _ => local_nonemptyWord.take ?_
  intro name
  refine (local_lookingAt _).bind fun _ => .ite ?_ ?_
  · exact local_advance.bind fun _ => local_methodHeader types name
  refine (local_skipSpace true).bind fun _ => (local_lookingAt _).bind ?_
  intro _
  refine (local_require _ _).bind fun _ => local_advance.bind ?_
  intro _
  refine local_skipToContent.bind fun _ => (local_lookingAt _).bind fun _ => .ite ?_ ?_
  · exact local_advance.bind fun _ =>
      ((local_signature types).weaken (Nat.zero_le 1)).bind fun _ => .pure rfl
  · refine (local_nonemptyWord.weaken (Nat.zero_le 1)).bind ?_
    intro typeName
    cases AggregateKind.ofKeyword? typeName with
    | some kind => exact .pure rfl
    | none => exact local_check.bind fun _ => local_check.bind fun _ => .pure rfl

theorem takes_declaration (types : SymbolTable Ty) : Takes 1 (declaration types) :=
  (local_declaration (w := ⟨0, [], [], 0, 0⟩) (N := 0) types).takes

/-! ## Contents of globals -/

theorem local_constantWithin (types : SymbolTable Ty) (nested : Bool) (expected : Ty) (n m K : Nat)
    (hm : K ≤ m) :
    w.Local K 1 id (constantWithin types n nested expected) (constantWithin types m nested expected) := by
  induction n generalizing w nested expected m K with
  | zero => exact .throw _ _
  | succ n ih =>
    refine @Local.of_succ _ _ w 1 K id (fun n => constantWithin types n nested expected)
      (fun m => constantWithin types m nested expected) (n + 1) ?_ m K hm (Nat.le_refl K)
    intro m K hm _
    refine local_termHead.take ?_
    intro head
    cases head with
    | word text =>
      dsimp only
      split
      · exact .pure rfl
      · exact .ite (.throw _ _) (.throw _ _)
    | call callee =>
      dsimp only
      split
      · exact .throw _ _
      · refine (local_require _ _).bind fun _ => (local_require _ _).bind ?_
        intro _
        refine ((local_positional fun left right ty => ?_).weaken (Nat.zero_le 1)).bind ?_
        · exact (ih true ty m (K - 1) (by omega)).weaken (Nat.le_refl 1)
        · intro _
          exact .pure rfl
    | field | methodCall => exact .throw _ _

theorem local_contents (types : SymbolTable Ty) (expected : Ty) :
    w.Local N 0 id (contents types expected) (contents types expected) := by
  refine local_skipToContent.bind fun _ => (local_expect _).bind ?_
  intro _
  refine local_skipToContent.bind fun _ => Local.bind (Local.weaken (Local.bounded
    fun n m K hm _ => local_constantWithin types false expected n m K hm) (Nat.zero_le 1)) ?_
  intro _
  refine local_expressionContinues.bind fun _ => .ite ?_ (.pure rfl)
  exact (local_operator.weaken (Nat.zero_le 1)).bind fun _ => .throw _ _

/-! ## Bodies -/

theorem local_openBody : w.Local N 0 id openBody openBody :=
  local_skipToContent.bind fun _ => (local_expect _).bind fun _ => local_skipToContent.bind fun _ =>
    local_expect _

end Fork

/-! ## Declarations -/

namespace Scan

/-- A declaration as a round finds it. Of a function it keeps where its body begins. -/
inductive Found where
  | type (name : String) (kind : AggregateKind) (fields : List (String × Ty))
  | global (name : String) (ty : Ty) (contents : IR.Constant)
  | function (name : String) (signature : Signature) (body : Cursor)
  | method (name receiver : String) (owner : Ty) (signature : Signature) (body : Cursor)

/-- From `c` on a declaration is read, header and rest. -/
inductive Reads (types : SymbolTable Ty) (c : Cursor) : Found → Cursor → Prop where
  | type {name : String} {kind : AggregateKind} {fields : List (String × Ty)} {c₁ c₂ : Cursor}
      (header : declaration types c = .ok (.type name kind) c₁)
      (definition : typeDefinition name kind types c₁ = .ok fields c₂) :
      Reads types c (.type name kind fields) c₂
  | global {name : String} {ty : Ty} {value : IR.Constant} {c₁ c₂ : Cursor}
      (header : declaration types c = .ok (.global name ty) c₁)
      (contents : contents types ty c₁ = .ok value c₂) :
      Reads types c (.global name ty value) c₂
  | function {name : String} {signature : Signature} {c₁ c₂ c₃ : Cursor}
      (header : declaration types c = .ok (.function name signature) c₁)
      (opens : openBody c₁ = .ok () c₂) (body : skipBlock c₂ = .ok () c₃) :
      Reads types c (.function name signature c₂) c₃
  | method {name receiver : String} {owner : Ty} {signature : Signature} {c₁ c₂ c₃ : Cursor}
      (header : declaration types c = .ok (.method name receiver owner signature) c₁)
      (opens : openBody c₁ = .ok () c₂) (body : skipBlock c₂ = .ok () c₃) :
      Reads types c (.method name receiver owner signature c₂) c₃

theorem Reads.shorter {types : SymbolTable Ty} {found : Found} {c c' : Cursor}
    (h : Reads types c found c') : c'.rest.length < c.rest.length := by
  have htakes := Fork.takes_declaration types
  cases h with
  | type hheader hdefinition =>
    have hle := Cursor.Reaches.length_le (advances_typeDefinition _ _ _ _ _ _ hdefinition)
    exact Nat.lt_of_le_of_lt hle (htakes.shorter hheader)
  | global hheader hcontents =>
    have hle := Cursor.Reaches.length_le (advances_contents _ _ _ _ _ hcontents)
    exact Nat.lt_of_le_of_lt hle (htakes.shorter hheader)
  | function hheader hopen hskip | method hheader hopen hskip =>
    have hle := ((advances_openBody _ _ _ hopen).trans (advances_skipBlock _ _ _ hskip)).length_le
    exact Nat.lt_of_le_of_lt hle (htakes.shorter hheader)

namespace Found

/-- Where the body of a function begins. -/
def body? : Found → Option Cursor
  | type .. | global .. => none
  | function _ _ body | method _ _ _ _ body => some body

/-- The same declaration with another place for the body, if it has one. -/
def withBody (body : Cursor) : Found → Found
  | type name kind fields => type name kind fields
  | global name ty contents => global name ty contents
  | function name signature _ => function name signature body
  | method name receiver owner signature _ => method name receiver owner signature body

end Found

/-- The same block is read from both places, but for the offsets in it. -/
def SameBlock (c c' : Cursor) : Prop :=
  ∃ (tree : Block) (f : Nat → Nat) (e e' : Cursor),
    block c = .ok tree e ∧ block c' = .ok (tree.relocate f) e'

variable {types : SymbolTable Ty} {found : Found} {c c₁ : Cursor}

theorem Reads.reaches (h : Reads types c found c₁) :
    c.Reaches c₁ ∧ ∀ body, found.body? = some body →
      c.Reaches body ∧ ∃ c₂, skipBlock body = .ok () c₂ := by
  cases h with
  | type hheader hdefinition =>
    refine ⟨(advances_declaration _ _ _ _ hheader).trans
      (advances_typeDefinition _ _ _ _ _ _ hdefinition), ?_⟩
    intro body hbody
    cases hbody
  | global hheader hcontents =>
    refine ⟨(advances_declaration _ _ _ _ hheader).trans (advances_contents _ _ _ _ _ hcontents), ?_⟩
    intro body hbody
    cases hbody
  | function hheader hopen hskip | method hheader hopen hskip =>
    have hbody := (advances_declaration _ _ _ _ hheader).trans (advances_openBody _ _ _ hopen)
    refine ⟨hbody.trans (advances_skipBlock _ _ _ hskip), ?_⟩
    intro body hbody'
    cases hbody'
    exact ⟨hbody, _, hskip⟩

end Scan

namespace Fork

open Scan

variable {w : Fork} {types : SymbolTable Ty} {found : Found} {c c' c₁ : Cursor}

theorem Ahead.of_reaches (h : c.Reaches c₁) (hahead : w.Ahead c₁) : w.Ahead c := by
  obtain ⟨taken, htaken, _⟩ := h
  simp only [Ahead, htaken, List.length_append] at hahead ⊢
  omega

/-- A body that is skipped on the left before the last byte that agrees has the same tree on the right. -/
theorem Before.sameBlock (h : w.Before c c') (hskip : skipBlock c = .ok () c₁) (hahead : w.Ahead c₁) :
    ∃ c₁', skipBlock c' = .ok () c₁' ∧ w.Before c₁ c₁' ∧ SameBlock c c' := by
  obtain ⟨tree, htree⟩ := BodyContext.skipBlock_ok hskip
  obtain ⟨c₁', htree', hbefore⟩ := local_block.follows h (Nat.lt_succ_self _) htree hahead
  exact ⟨c₁', BodyContext.skipBlock_of_ok htree', hbefore, tree, w.move, c₁, c₁', htree, htree'⟩

theorem Before.sameBlock_closed (hstop : w.stop = Byte.closeBrace) (h : w.Before c c')
    (hskip : skipBlock c = .ok () c₁) (hend : c₁.rest.length = w.left.length) :
    ∃ c₁', skipBlock c' = .ok () c₁' ∧ w.After c₁ c₁' ∧ SameBlock c c' := by
  obtain ⟨tree, htree⟩ := BodyContext.skipBlock_ok hskip
  obtain ⟨c₁', htree', hafter⟩ := (closed_block hstop).follows h (Nat.lt_succ_self _) htree hend
  exact ⟨c₁', BodyContext.skipBlock_of_ok htree', hafter, tree, w.move, c₁, c₁', htree, htree'⟩

/-- The header of a function is read from both sources, and then its body as `hbody` has it. -/
theorem Before.function {header : Declaration} {c₂ c₃ : Cursor} {P : Cursor → Prop}
    (hbefore : w.Before c c') (hheader : declaration types c = .ok header c₂)
    (hopen : openBody c₂ = .ok () c₃) (hahead : w.Ahead c₃)
    (hbody : ∀ c₃', w.Before c₃ c₃' →
      ∃ c₁', skipBlock c₃' = .ok () c₁' ∧ P c₁' ∧ SameBlock c₃ c₃') :
    ∃ c₂' c₃' c₁', declaration types c' = .ok header c₂' ∧ openBody c₂' = .ok () c₃' ∧
      skipBlock c₃' = .ok () c₁' ∧ P c₁' ∧ w.Before c₃ c₃' ∧ SameBlock c₃ c₃' := by
  obtain ⟨c₂', hheader', hbefore₂⟩ := (local_declaration types).follows hbefore
    (Nat.lt_succ_self _) hheader (hahead.of_reaches (advances_openBody _ _ _ hopen))
  obtain ⟨c₃', hopen', hbefore₃⟩ :=
    local_openBody.follows hbefore₂ (Nat.lt_succ_self _) hopen hahead
  obtain ⟨c₁', hskip', hP, hsame⟩ := hbody c₃' hbefore₃
  exact ⟨c₂', c₃', c₁', hheader', hopen', hskip', hP, hbefore₃, hsame⟩

/-- A declaration that ends before the last byte that agrees is read from both sources. -/
theorem Before.reads (hbefore : w.Before c c') (h : Reads types c found c₁) (hahead : w.Ahead c₁) :
    ∃ body' c₁', Reads types c' (found.withBody body') c₁' ∧ w.Before c₁ c₁' ∧
      ∀ body, found.body? = some body → w.Before body body' ∧ SameBlock body body' := by
  cases h with
  | type hheader hdefinition =>
    obtain ⟨c₂', hheader', hbefore₂⟩ := (local_declaration types).follows hbefore
      (Nat.lt_succ_self _) hheader (hahead.of_reaches (advances_typeDefinition _ _ _ _ _ _ hdefinition))
    obtain ⟨c₁', hdefinition', hbefore₁⟩ := (local_typeDefinition _ _ types).follows hbefore₂
      (Nat.lt_succ_self _) hdefinition hahead
    exact ⟨c', c₁', .type hheader' hdefinition', hbefore₁, fun body hbody => by cases hbody⟩
  | global hheader hcontents =>
    obtain ⟨c₂', hheader', hbefore₂⟩ := (local_declaration types).follows hbefore
      (Nat.lt_succ_self _) hheader (hahead.of_reaches (advances_contents _ _ _ _ _ hcontents))
    obtain ⟨c₁', hcontents', hbefore₁⟩ := (local_contents types _).follows hbefore₂
      (Nat.lt_succ_self _) hcontents hahead
    exact ⟨c', c₁', .global hheader' hcontents', hbefore₁, fun body hbody => by cases hbody⟩
  | function hheader hopen hskip =>
    obtain ⟨c₂', c₃', c₁', hheader', hopen', hskip', hbefore₁, hbefore₃, hsame⟩ :=
      hbefore.function hheader hopen (hahead.of_reaches (advances_skipBlock _ _ _ hskip))
        fun _ h => h.sameBlock hskip hahead
    exact ⟨c₃', c₁', .function hheader' hopen' hskip', hbefore₁,
      fun body hbody => by cases hbody; exact ⟨hbefore₃, hsame⟩⟩
  | method hheader hopen hskip =>
    obtain ⟨c₂', c₃', c₁', hheader', hopen', hskip', hbefore₁, hbefore₃, hsame⟩ :=
      hbefore.function hheader hopen (hahead.of_reaches (advances_skipBlock _ _ _ hskip))
        fun _ h => h.sameBlock hskip hahead
    exact ⟨c₃', c₁', .method hheader' hopen' hskip', hbefore₁,
      fun body hbody => by cases hbody; exact ⟨hbefore₃, hsame⟩⟩

/-- A function that ends with the last byte that agrees is read from both sources. -/
theorem Before.reads_closed {body : Cursor} (hstop : w.stop = Byte.closeBrace)
    (hbefore : w.Before c c') (h : Reads types c found c₁) (hbody : found.body? = some body)
    (hend : c₁.rest.length = w.left.length) :
    ∃ body' c₁', Reads types c' (found.withBody body') c₁' ∧ w.After c₁ c₁' ∧
      SameBlock body body' := by
  have hahead : ∀ {c₃ : Cursor}, skipBlock c₃ = .ok () c₁ → w.Ahead c₃ := by
    intro c₃ hskip
    obtain ⟨tree, htree⟩ := BodyContext.skipBlock_ok hskip
    exact .of_closes (closed_block (w := w) (N := 0) hstop).closes htree hend
  cases h with
  | type | global => cases hbody
  | function hheader hopen hskip =>
    obtain ⟨c₂', c₃', c₁', hheader', hopen', hskip', hafter, _, hsame⟩ :=
      hbefore.function hheader hopen (hahead hskip)
        fun _ h => h.sameBlock_closed hstop hskip hend
    cases hbody
    exact ⟨c₃', c₁', .function hheader' hopen' hskip', hafter, hsame⟩
  | method hheader hopen hskip =>
    obtain ⟨c₂', c₃', c₁', hheader', hopen', hskip', hafter, _, hsame⟩ :=
      hbefore.function hheader hopen (hahead hskip)
        fun _ h => h.sameBlock_closed hstop hskip hend
    cases hbody
    exact ⟨c₃', c₁', .method hheader' hopen' hskip', hafter, hsame⟩

end Fork

end Straightline
