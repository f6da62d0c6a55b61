import Straightline.Proofs.Reading.Headers
import Straightline.Proofs.Trees.Reading

/-!
# Names that are bound in bodies

What a body stores has a name of a parameter, or of a statement that declares a name or assigns to one. All
of these are read as words that are not empty, so what holds of every such word holds of them
(`Scan.binds_block`, `Scan.labels_declaration`).
-/

set_option autoImplicit false

namespace Straightline

section Binds

variable (P : String → Prop)

/-- If the statement stores under a name, `P` holds of it. -/
def Statement.Binds : Statement → Prop
  | .declare name .. | .assign name .. => P name
  | _ => True

def Line.Binds : Line → Prop
  | .mk _ statement => statement.Binds P

/-- `P` holds of the names under which the lines of a block store, blocks inside them apart. -/
def Block.Binds : Block → Prop
  | .mk lines _ => ∀ line ∈ lines, line.Binds P

def StatementHead.Binds : StatementHead → Prop
  | .declare name | .assign name => P name
  | _ => True

/-- `P` holds of the names of the parameters, that of the receiver included. -/
def Declaration.Labels : Declaration → Prop
  | .function _ signature => ∀ p ∈ signature.arguments, P p.1
  | .method _ receiver _ signature => P receiver ∧ ∀ p ∈ signature.arguments, P p.1
  | _ => True

end Binds

namespace Scan

section Bound

variable {P : String → Prop}

/-! ## Statements -/

theorem binds_nameHead {name : String} (hname : P name) :
    Ensures (nameHead name) fun _ head _ => head.Binds P := by
  refine ensures_after fun _ => ensures_after fun next => ?_
  cases next with
  | none => exact .throw _
  | some b =>
    dsimp only
    split
    · exact ensures_after fun _ => ensures_pure hname
    split
    · exact ensures_after fun _ => ensures_pure hname
    · exact .throw _

theorem binds_statementHead (hword : Ensures nonemptyWord fun _ name _ => P name) :
    Ensures statementHead fun _ head _ => head.Binds P := by
  intro c head c' h
  obtain ⟨name, c₁, hname, h⟩ := bind_ok h
  cases hreserved : ReservedWord.ofText? name with
  | some word =>
    simp only [hreserved] at h
    cases h
    trivial
  | none =>
    simp only [hreserved] at h
    obtain ⟨suffix, c₂, _, h⟩ := bind_ok h
    cases suffix with
    | none => exact binds_nameHead (hword _ _ _ hname) _ _ _ h
    | call | member | memberCall =>
      cases h
      trivial

theorem binds_retOf : Ensures retOf fun _ s _ => s.Binds P := by
  refine ensures_after fun more => ?_
  cases more with
  | true => exact ensures_after fun _ => ensures_after fun _ => ensures_pure trivial
  | false => exact ensures_after fun _ => ensures_pure trivial

theorem binds_condOf (statement : Scan Statement) :
    Ensures (condOf statement) fun _ s _ => s.Binds P := by
  iterate 7 refine ensures_after fun _ => ?_
  refine ensures_after fun _ => ensures_after fun word => ?_
  split
  · exact ensures_after fun _ => ensures_after fun _ => ensures_after fun _ => ensures_pure trivial
  · exact ensures_after fun _ => ensures_pure trivial

theorem binds_statementWithin (hword : Ensures nonemptyWord fun _ name _ => P name) (depth : Nat) :
    Ensures (statementWithin depth) fun _ s _ => s.Binds P := by
  cases depth with
  | zero => exact .throw _
  | succ depth =>
    refine ensures_after fun _ => ?_
    intro c s c' h
    obtain ⟨head, c₁, hhead, h⟩ := bind_ok h
    have hbinds := binds_statementHead hword _ _ _ hhead
    revert h
    refine (?_ : Ensures _ fun _ s _ => s.Binds P) c₁ s c'
    cases head with
    | declare name =>
      exact ensures_after fun _ => ensures_after fun _ => ensures_after fun _ =>
        ensures_after fun _ => ensures_pure hbinds
    | assign name =>
      exact ensures_after fun _ => ensures_after fun _ => ensures_after fun _ => ensures_pure hbinds
    | call | methodCall =>
      exact ensures_after fun _ => ensures_after fun _ => ensures_after fun _ => ensures_pure trivial
    | assignField => exact ensures_after fun _ => ensures_after fun _ => ensures_pure trivial
    | reserved word =>
      cases word with
      | ret => exact binds_retOf
      | cond => exact binds_condOf _

theorem binds_linesWithin {statement : Scan Statement}
    (hstatement : Ensures statement fun _ s _ => s.Binds P) (bound : Nat) :
    Ensures (linesWithin statement bound) fun _ lines _ => ∀ line ∈ lines, line.Binds P := by
  induction bound with
  | zero => exact .throw _
  | succ bound ih =>
    refine ensures_after fun _ => ensures_after fun closes => ?_
    cases closes with
    | true => exact ensures_after fun _ => ensures_pure fun _ h => nomatch h
    | false =>
      refine ensures_after fun start => ?_
      intro c lines c' h
      obtain ⟨first, c₁, hfirst, h⟩ := bind_ok h
      obtain ⟨others, c₂, hothers, h⟩ := bind_ok h
      cases h
      exact List.forall_mem_cons.mpr ⟨hstatement _ _ _ hfirst, ih _ _ _ hothers⟩

/-- The names under which a body stores are words. -/
theorem binds_block (hword : Ensures nonemptyWord fun _ name _ => P name) :
    Ensures block fun _ tree _ => tree.Binds P := by
  intro c tree c' h
  obtain ⟨lines, c₁, hlines, h⟩ := bind_ok h
  cases h
  exact binds_linesWithin (fun c => binds_statementWithin hword _ c) _ _ _ _ hlines

/-! ## Parameters -/

theorem labels_label (hword : Ensures nonemptyWord fun _ name _ => P name) :
    Ensures label fun _ name _ => P name := by
  refine ensures_after fun _ => ?_
  intro c name c' h
  obtain ⟨word, c₁, hname, h⟩ := bind_ok h
  have hP := hword _ _ _ hname
  revert h
  refine (?_ : Ensures _ fun _ name _ => P name) c₁ name c'
  refine ensures_after fun _ => ensures_after fun colon => ?_
  cases colon <;> exact ensures_after fun _ => ensures_pure hP

theorem labels_arguments (hword : Ensures nonemptyWord fun _ name _ => P name) {α : Type}
    (read : Nat → Scan α) : Ensures (arguments read) fun _ elements _ => ∀ e ∈ elements, P e.1 := by
  have hwithin : ∀ bound index,
      Ensures (argumentsWithin read index bound) fun _ elements _ => ∀ e ∈ elements, P e.1 := by
    intro bound
    induction bound with
    | zero => exact fun _ => .throw _
    | succ bound ih =>
      intro index
      refine ensures_after fun _ => ensures_after fun closes => ?_
      cases closes with
      | true => exact ensures_after fun _ => ensures_pure fun _ h => nomatch h
      | false =>
        refine ensures_after fun _ => ?_
        intro c elements c' h
        obtain ⟨name, c₁, hname, h⟩ := bind_ok h
        obtain ⟨value, c₂, _, h⟩ := bind_ok h
        obtain ⟨others, c₃, hothers, h⟩ := bind_ok h
        cases h
        exact List.forall_mem_cons.mpr ⟨labels_label hword _ _ _ hname, ih _ _ _ _ hothers⟩
  exact fun c => hwithin _ _ c

theorem labels_signature (hword : Ensures nonemptyWord fun _ name _ => P name)
    (types : SymbolTable Ty) :
    Ensures (signature types) fun _ s _ => ∀ p ∈ s.arguments, P p.1 := by
  intro c s c' h
  obtain ⟨arguments, c₁, harguments, h⟩ := bind_ok h
  have hP := labels_arguments hword _ _ _ _ harguments
  revert h
  refine (?_ : Ensures _ fun _ s _ => ∀ p ∈ s.arguments, P p.1) c₁ s c'
  exact ensures_after fun _ => ensures_after fun _ => ensures_after fun _ => ensures_after fun _ =>
    ensures_after fun _ => ensures_pure hP

theorem MethodSignature.labels {types : SymbolTable Ty} {s : Signature}
    (hword : Ensures nonemptyWord fun _ name _ => P name) (h : MethodSignature types s) :
    ∀ p ∈ s.arguments, P p.1 := by
  cases h with
  | further hs => exact hs.holds (labels_signature hword types)
  | alone => exact fun _ h => absurd h List.not_mem_nil

/-- The names of parameters are words. -/
theorem labels_declaration (hword : Ensures nonemptyWord fun _ name _ => P name)
    (types : SymbolTable Ty) : Ensures (declaration types) fun _ d _ => d.Labels P := by
  intro c d c' h
  cases header_declaration types c d c' h with
  | type | global => trivial
  | function _ hs => exact hs.holds (labels_signature hword types)
  | method _ hreceiver _ _ hs => exact ⟨hreceiver.holds hword, hs.labels hword⟩

end Bound

end Scan

end Straightline
