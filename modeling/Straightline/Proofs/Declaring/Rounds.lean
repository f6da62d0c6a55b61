import Straightline.Proofs.Declaring.Locality

/-!
# The first phase round by round

The first phase takes one declaration after the other (`Declare.round`) until nothing but blanks is left.
What a round reads (`Scan.Reads`) it takes (`Declaring.take`), unless its name is not free
(`Declare.round_iff`).
-/

set_option autoImplicit false

namespace Straightline

/-- What was found may be declared. -/
def Declarations.Free (d : Declarations) : Scan.Found → Prop
  | .type name _ _ => d.types.contains name = false ∧ Primitive.ofName? name = none
  | .global name _ _ => d.globals.contains name = false
  | .function name _ _ => d.functions.contains name = false
  | .method name _ owner _ _ => d.methods.contains (methodKey owner name) = false

/-- The state after what was found up to `c` is declared. -/
def Declaring.take (s : Declaring) (found : Scan.Found) (c : Cursor) : Declaring :=
  match found with
  | .type name kind fields => s.withType name kind fields c (s.log ++ [.declared name])
  | .global name ty contents => s.withGlobal name ty contents c (s.log ++ [.declared name])
  | .function name signature body =>
    s.withFunction name signature body.offset c (s.log ++ [.declared name])
  | .method name receiver owner signature body =>
    s.withMethod name receiver owner signature body.offset c (s.log ++ [.declared name])

namespace Declare

/-- One round of the first phase: takes the next declaration. -/
def round : Declare Unit := do
  let header ← scan (Scan.declaration (← declarations).types)
  report (.declared header.name)
  declare header

/-- A turn of the first phase: ends it at the end of the source, or takes a declaration and goes on as
`again` does. -/
def loop (again : Declare Unit) : Declare Unit := do
  scan (Scan.skipSpace true)
  if ← scan Scan.isAtEnd then return ()
  else
    let header ← scan (Scan.declaration (← declarations).types)
    report (.declared header.name)
    declare header
    again

/-- From `s` on the first phase goes on in a number of rounds, after which it is in the state `s'`. -/
inductive Rounds : Declaring → Declaring → Prop where
  | none {s : Declaring} : Rounds s s
  | more {s s₁ s' : Declaring} : round s = .ok () s₁ → Rounds s₁ s' → Rounds s s'

/-! ## What a round does -/

section

variable {s s' : Declaring}

theorem scan_of_ok {α : Type} {reader : Scan α} {a : α} {c : Cursor}
    (h : reader s.cursor = .ok a c) : scan reader s = .ok a { s with cursor := c } := by
  simp only [scan, h]

theorem require_of_true {holds : Bool} (fault : Fault) (h : holds = true) :
    require holds fault s = .ok () s := by
  subst h
  rfl

theorem insert_of_free {α : Type} {t : SymbolTable α} {name : String} (item : α)
    (h : t.contains name = false) :
    scan (Scan.check (t.insert? name item)) s = .ok ⟨t.entries ++ [(name, item)]⟩ s := by
  simp only [SymbolTable.insert?, h]
  rfl

theorem putOff_of_ok {name : String} {parameters : List (String × Ty)} {result : Ty}
    {c c' : Cursor} (hopen : Scan.openBody s.cursor = .ok () c)
    (hskip : Scan.skipBlock c = .ok () c') :
    putOff name parameters result s = .ok (s.nextFunction, c.offset)
      { s with cursor := c', builder := s.declaredFunction name parameters result } := by
  let declared : Declaring := { s with builder := s.declaredFunction name parameters result }
  refine (bind_of_ok (rfl : build _ s = .ok s.nextFunction declared)).trans ?_
  refine (bind_of_ok (scan_of_ok (s := declared) hopen)).trans ?_
  refine (bind_of_ok (rfl : scan Scan.offset _ = .ok c.offset { declared with cursor := c })).trans ?_
  exact bind_of_ok (scan_of_ok (s := { declared with cursor := c }) hskip)

theorem declareType_of {name : String} {kind : AggregateKind} {fields : List (String × Ty)}
    {c : Cursor} (hfree : s.declarations.types.contains name = false)
    (hbuiltin : Primitive.ofName? name = none)
    (hdefinition : Scan.typeDefinition name kind s.declarations.types s.cursor = .ok fields c) :
    declareType name kind s = .ok () (s.withType name kind fields c s.log) := by
  refine (bind_of_ok (rfl : declarations s = .ok s.declarations s)).trans ?_
  refine (bind_of_ok (require_of_true _ (by simp [hfree, hbuiltin]))).trans ?_
  refine (bind_of_ok (scan_of_ok hdefinition)).trans ?_
  refine (bind_of_ok (rfl : build _ _ = .ok () _)).trans ?_
  exact bind_of_ok (insert_of_free _ hfree)

theorem declareGlobal_of {name : String} {ty : Ty} {contents : IR.Constant} {c : Cursor}
    (hfree : s.declarations.globals.contains name = false)
    (hcontents : Scan.contents s.declarations.types ty s.cursor = .ok contents c) :
    declareGlobal name ty s = .ok () (s.withGlobal name ty contents c s.log) := by
  refine (bind_of_ok (rfl : declarations s = .ok s.declarations s)).trans ?_
  refine (bind_of_ok (require_of_true _ (by simp [hfree]))).trans ?_
  refine (bind_of_ok (scan_of_ok hcontents)).trans ?_
  refine (bind_of_ok (rfl : build _ _ = .ok _ _)).trans ?_
  exact bind_of_ok (insert_of_free _ hfree)

theorem declareFunction_of {name : String} {signature : Signature} {c c' : Cursor}
    (hfree : s.declarations.functions.contains name = false)
    (hopen : Scan.openBody s.cursor = .ok () c) (hskip : Scan.skipBlock c = .ok () c') :
    declareFunction name signature s = .ok () (s.withFunction name signature c.offset c' s.log) := by
  refine (bind_of_ok (rfl : declarations s = .ok s.declarations s)).trans ?_
  refine (bind_of_ok (require_of_true _ (by simp [hfree]))).trans ?_
  refine (bind_of_ok (putOff_of_ok hopen hskip)).trans ?_
  exact bind_of_ok (insert_of_free _ hfree)

theorem declareMethod_of {name receiver : String} {owner : Ty} {signature : Signature}
    {c c' : Cursor} (hfree : s.declarations.methods.contains (Declarations.methodKey owner name) = false)
    (hopen : Scan.openBody s.cursor = .ok () c) (hskip : Scan.skipBlock c = .ok () c') :
    declareMethod name receiver owner signature s
      = .ok () (s.withMethod name receiver owner signature c.offset c' s.log) := by
  refine (bind_of_ok (rfl : declarations s = .ok s.declarations s)).trans ?_
  refine (bind_of_ok (require_of_true _ (by simp [hfree]))).trans ?_
  refine (bind_of_ok (putOff_of_ok hopen hskip)).trans ?_
  exact bind_of_ok (insert_of_free _ hfree)

/-- A round that reads the header `header` goes on to declare it. -/
theorem round_of_header {header : Declaration} {c₁ : Cursor}
    (hheader : Scan.declaration s.declarations.types s.cursor = .ok header c₁) :
    round s = declare header { s with cursor := c₁, log := s.log ++ [.declared header.name] } :=
  bind_of_ok (scan_of_ok hheader)

/-- A round takes what it reads, if that is free. -/
theorem round_iff :
    round s = .ok () s' ↔ ∃ found c, Scan.Reads s.declarations.types s.cursor found c ∧
      s.declarations.Free found ∧ s' = s.take found c := by
  constructor
  · intro h
    obtain ⟨d, s₁, hd, hrest⟩ := bind_ok h
    cases hd
    obtain ⟨header, s₂, hscan, _⟩ := bind_ok hrest
    obtain ⟨c₁, hheader, rfl⟩ := scan_ok hscan
    rw [round_of_header hheader] at h
    cases header with
    | type name kind =>
      obtain ⟨fields, c, hfree, hbuiltin, hdefinition, rfl⟩ := declareType_ok h
      exact ⟨_, c, .type hheader hdefinition, ⟨hfree, hbuiltin⟩, rfl⟩
    | global name ty =>
      obtain ⟨contents, c, hfree, hcontents, rfl⟩ := declareGlobal_ok h
      exact ⟨_, c, .global hheader hcontents, hfree, rfl⟩
    | function name signature =>
      obtain ⟨c, c', hfree, hopen, hskip, rfl⟩ := declareFunction_ok h
      exact ⟨_, c', .function hheader hopen hskip, hfree, rfl⟩
    | method name receiver owner signature =>
      obtain ⟨c, c', hfree, hopen, hskip, rfl⟩ := declareMethod_ok h
      exact ⟨_, c', .method hheader hopen hskip, hfree, rfl⟩
  · rintro ⟨found, c, hreads, hfree, rfl⟩
    cases hreads with
    | type hheader hdefinition =>
      exact (round_of_header hheader).trans (declareType_of hfree.1 hfree.2 hdefinition)
    | global hheader hcontents =>
      exact (round_of_header hheader).trans (declareGlobal_of hfree hcontents)
    | function hheader hopen hskip =>
      exact (round_of_header hheader).trans (declareFunction_of hfree hopen hskip)
    | method hheader hopen hskip =>
      exact (round_of_header hheader).trans (declareMethod_of hfree hopen hskip)

end

/-- A round that takes a declaration is a step. -/
theorem step_of_round {s s' : Declaring} (hs : s.Listed) (h : round s = .ok () s') : Step s s' := by
  obtain ⟨d, s₁, hd, hrest⟩ := bind_ok h
  cases hd
  obtain ⟨header, s₂, hscan, hrest⟩ := bind_ok hrest
  obtain ⟨c, hheader, rfl⟩ := scan_ok hscan
  obtain ⟨_, s₃, hreport, hdeclare⟩ := bind_ok hrest
  cases hreport
  exact declare_step hs (.refl _) hheader hdeclare

/-- What every step preserves holds after a number of rounds. -/
theorem Rounds.invariant {P : Declaring → Prop} {s s' : Declaring} (h : Rounds s s') (hs : s.Listed)
    (hstep : ∀ {a b}, P a → Step a b → P b) (hP : P s) : P s' := by
  induction h with
  | none => exact hP
  | more hround _ ih =>
    have hfirst := step_of_round hs hround
    exact ih (hs.step hfirst) (hstep hP hfirst)

theorem Rounds.listed {s s' : Declaring} (h : Rounds s s') (hs : s.Listed) : s'.Listed :=
  h.invariant hs Declaring.Listed.step hs

/-! ## The loop -/

/-- Whether a byte is one of the blanks that may stand between declarations. -/
def isBlank (b : UInt8) : Bool := Byte.isSpace b && (true || b != Byte.lineFeed)

variable {s s₁ s' : Declaring}

/-- Reading a declaration begins with the blanks before it. -/
theorem declaration_skip (types : SymbolTable Ty) (c : Cursor) :
    Scan.declaration types (c.skip isBlank) = Scan.declaration types c := by
  change (Scan.assertMore >>= fun _ => _) ((c.skip isBlank).skip isBlank) = _
  rw [Cursor.skip_skip fun _ h => h]
  rfl

/-- Where a declaration is read there is more than blanks. -/
theorem more_declaration {types : SymbolTable Ty} {header : Declaration} {c c₁ : Cursor}
    (h : Scan.declaration types c = .ok header c₁) : (c.skip isBlank).rest.isEmpty = false := by
  cases hempty : (c.skip isBlank).rest.isEmpty with
  | false => rfl
  | true =>
    have hfails : Scan.skipToContent c = .error .unexpectedEnd (c.skip isBlank) := by
      change Scan.assertMore (c.skip isBlank) = _
      simp only [Scan.assertMore, hempty, if_true]
    unfold Scan.declaration at h
    rw [bind_of_error hfails] at h
    cases h

theorem round_skip (s : Declaring) :
    round { s with cursor := s.cursor.skip isBlank } = round s := by
  have hheader := declaration_skip s.declarations.types s.cursor
  change (scan _ >>= _) _ = (scan _ >>= _) _
  cases h : Scan.declaration s.declarations.types s.cursor with
  | ok header c =>
    rw [bind_of_ok (scan_of_ok (hheader.trans h)), bind_of_ok (scan_of_ok h)]
  | error fault c =>
    have hleft : scan (Scan.declaration s.declarations.types)
        { s with cursor := s.cursor.skip isBlank } = .error ⟨fault, c.offset⟩ { s with cursor := c } := by
      simp only [scan, hheader, h]
    have hright : scan (Scan.declaration s.declarations.types) s
        = .error ⟨fault, c.offset⟩ { s with cursor := c } := by
      simp only [scan, h]
    rw [bind_of_error hleft, bind_of_error hright]

/-- A turn of the first phase ends it, or it is a round and then what goes on. -/
theorem loop_eq (again : Declare Unit) (s : Declaring) :
    loop again s =
      if (s.cursor.skip isBlank).rest.isEmpty then .ok () { s with cursor := s.cursor.skip isBlank }
      else (round >>= fun _ => again) s := by
  have hround : (round >>= fun _ => again) = (do
      let header ← scan (Scan.declaration (← declarations).types)
      report (.declared header.name)
      declare header
      again) := by
    simp only [round, bind_assoc]
  change (if (s.cursor.skip isBlank).rest.isEmpty then _ else _ : Declare Unit)
    { s with cursor := s.cursor.skip isBlank } = _
  split
  · rfl
  · rw [← hround]
    simp only [bind, EStateM.bind, round_skip]

/-- As long as more than blanks is left, the first phase is a round and then the first phase. -/
theorem declareWithin_succ (bound : Nat) (s : Declaring) :
    declareWithin (bound + 1) s =
      if (s.cursor.skip isBlank).rest.isEmpty then .ok () { s with cursor := s.cursor.skip isBlank }
      else (round >>= fun _ => declareWithin bound) s :=
  loop_eq (declareWithin bound) s

theorem shorter_round (h : round s = .ok () s') :
    s'.cursor.rest.length < s.cursor.rest.length := by
  obtain ⟨found, c, hreads, _, rfl⟩ := round_iff.mp h
  have hcursor : (s.take found c).cursor = c := by cases found <;> rfl
  rw [hcursor]
  exact hreads.shorter

theorem more_round (h : round s = .ok () s') : (s.cursor.skip isBlank).rest.isEmpty = false := by
  obtain ⟨found, c, hreads, _⟩ := round_iff.mp h
  cases hreads with
  | type hheader | global hheader | function hheader | method hheader => exact more_declaration hheader

theorem declareWithin_round {bound : Nat} (h : round s = .ok () s₁) :
    declareWithin (bound + 1) s = declareWithin bound s₁ := by
  rw [declareWithin_succ, more_round h, if_neg Bool.false_ne_true, bind_of_ok h]

/-- Where the first phase succeeds it was at the end, or a round led to where it succeeds. -/
theorem declareWithin_ok {bound : Nat} (h : declareWithin bound s = .ok () s') :
    (s.cursor.skip isBlank).rest.isEmpty = true ∧ s' = { s with cursor := s.cursor.skip isBlank } ∨
    ∃ s₁ bound', bound = bound' + 1 ∧ round s = .ok () s₁ ∧ declareWithin bound' s₁ = .ok () s' := by
  cases bound with
  | zero => cases h
  | succ bound =>
    rw [declareWithin_succ] at h
    cases hempty : (s.cursor.skip isBlank).rest.isEmpty with
    | true =>
      rw [hempty, if_pos rfl] at h
      cases h
      exact .inl ⟨rfl, rfl⟩
    | false =>
      rw [hempty, if_neg Bool.false_ne_true] at h
      obtain ⟨_, s₁, hround, hrest⟩ := bind_ok h
      exact .inr ⟨s₁, bound, rfl, hround, hrest⟩

/-- The first phase goes on from where some rounds have led, with as many steps as it needs. -/
theorem Rounds.declareWithin {bound : Nat} (h : Rounds s s') (hbound : s.cursor.rest.length < bound) :
    ∃ bound', s'.cursor.rest.length < bound' ∧ declareWithin bound s = declareWithin bound' s' := by
  induction h generalizing bound with
  | none => exact ⟨bound, hbound, rfl⟩
  | more hround _ ih =>
    have hshorter := shorter_round hround
    obtain ⟨bound, rfl⟩ := Nat.exists_eq_succ_of_ne_zero (Nat.ne_zero_of_lt hbound)
    obtain ⟨bound', hbound', heq⟩ := ih (show _ < bound by omega)
    exact ⟨bound', hbound', (declareWithin_round hround).trans heq⟩

end Declare

end Straightline
