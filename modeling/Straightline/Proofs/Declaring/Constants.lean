import Straightline.Proofs.Declaring.Contents
import Straightline.Proofs.Reading.Position
import Straightline.Proofs.Trees.Reading

/-!
# Constants are terms

The contents of a global are read by a reader of their own, which knows the types and nothing else and
takes a single constant for each field. A body has its terms read as trees, with whole expressions for
arguments. Which trees are constants can be told from the types alone (`Term.constant?`): literals, and
literals of declared types that are passed by value, of which every field is a constant without a step
after it.

The reader of constants succeeds on exactly the bytes that are read as such a tree, with the constant that
the tree stands for and up to the same place (`Scan.constant_iff`).
-/

set_option autoImplicit false

namespace Straightline

mutual

/-- The constant that a term is in a place that calls for type `expected`. -/
def Term.constant? (types : SymbolTable Ty) (expected : Ty) : Term → Option IR.Constant
  | .word text _ => (expected.literal? text).map .int
  | .call callee _ arguments _ =>
    match types.find? callee with
    | some ty =>
      if ty = expected ∧ ty.passing = .byValue then
        (Argument.constants? types ty.fieldTypes arguments).map .struct
      else none
    | none => none
  | .field .. | .methodCall .. => none

/-- Only an expression without a step is a constant, whatever is added to what. -/
def Expression.constant? (types : SymbolTable Ty) (expected : Ty) : Expression → Option IR.Constant
  | .mk first [] _ => first.constant? types expected
  | .mk _ (_ :: _) _ => none

/-- The constants that arguments are, one for each type. -/
def Argument.constants? (types : SymbolTable Ty) : List Ty → List Argument → Option (List IR.Constant)
  | [], [] => some []
  | ty :: expected, .mk _ _ value :: rest =>
    match value.constant? types ty, Argument.constants? types expected rest with
    | some first, some others => some (first :: others)
    | _, _ => none
  | _, _ => none

end

section Arguments

variable {types : SymbolTable Ty} {values : List IR.Constant}

theorem Expression.constant?_some {expected : Ty} {e : Expression} {v : IR.Constant} :
    e.constant? types expected = some v ↔
      ∃ first stop, e = .mk first [] stop ∧ first.constant? types expected = some v := by
  obtain ⟨first, steps, stop⟩ := e
  cases steps with
  | nil => simp [constant?]
  | cons => simp [constant?]

theorem Argument.constants?_nil {expected : List Ty} :
    constants? types expected [] = some values ↔ expected = [] ∧ values = [] := by
  cases expected with
  | nil => simp [constants?, eq_comm]
  | cons => simp [constants?]

theorem Argument.constants?_cons {expected : List Ty} {label : String} {start : Nat} {value : Expression}
    {rest : List Argument} :
    constants? types expected (.mk label start value :: rest) = some values ↔
      ∃ ty others first vs, expected = ty :: others ∧ value.constant? types ty = some first ∧
        constants? types others rest = some vs ∧ values = first :: vs := by
  cases expected with
  | nil => simp [constants?]
  | cons ty others =>
    cases hvalue : value.constant? types ty <;> cases hrest : constants? types others rest <;>
      simp [constants?, hvalue, hrest, eq_comm]

end Arguments

namespace Scan

variable {α : Type} {types : SymbolTable Ty}

/-! ## Blanks and what may follow a value -/

/-- Whether a byte is one of the blanks that may stand within a line. -/
def isLineBlank (b : UInt8) : Bool := Byte.isSpace b && (false || b != Byte.lineFeed)

theorem skipToContent_skip (c : Cursor) : skipToContent (c.skip isLineBlank) = skipToContent c := by
  have hskip : (c.skip isLineBlank).skip (fun b => Byte.isSpace b && (true || b != Byte.lineFeed))
      = c.skip fun b => Byte.isSpace b && (true || b != Byte.lineFeed) := by
    refine Cursor.skip_skip (fun b hb => ?_) c
    simp only [isLineBlank, Bool.and_eq_true] at hb
    simp [hb.1]
  change assertMore _ = assertMore _
  rw [hskip]

/-- Whether an expression goes on where `next` is the next byte that is not blank. -/
def goesOn (next : Option UInt8) : Bool :=
  match next with
  | none => false
  | some b => b != Byte.lineFeed &&
    !(b == Byte.closeBrace || b == Byte.closeParen || b == Byte.comma || b == Byte.openBrace)

theorem expressionContinues_eq (c : Cursor) :
    expressionContinues c = .ok (goesOn (c.skip isLineBlank).peek) (c.skip isLineBlank) := by
  have hspace : skipSpace false c = .ok () (c.skip isLineBlank) := rfl
  have hpeek : peek (c.skip isLineBlank) = .ok (c.skip isLineBlank).peek (c.skip isLineBlank) := rfl
  cases hnext : (c.skip isLineBlank).peek with
  | none =>
    rw [hnext] at hpeek
    have hmore : moreOnLine c = .ok false (c.skip isLineBlank) := by
      rw [moreOnLine, bind_of_ok hspace, bind_of_ok hpeek]
      rfl
    rw [expressionContinues, bind_of_ok hmore]
    rfl
  | some b =>
    rw [hnext] at hpeek
    have hmore : moreOnLine c = .ok (b != Byte.lineFeed) (c.skip isLineBlank) := by
      rw [moreOnLine, bind_of_ok hspace, bind_of_ok hpeek]
      rfl
    rw [expressionContinues, bind_of_ok hmore]
    cases hline : b != Byte.lineFeed with
    | false =>
      simp only [goesOn, hline]
      rfl
    | true =>
      simp only [goesOn, hline, Bool.true_and, if_true]
      rw [bind_of_ok hpeek]
      rfl

/-! ## Lists element by element -/

section Lists

variable {read : Nat → Scan α} {index bound : Nat} {c c' : Cursor} {elements : List (String × α)}

/-- A list that is read is closed, or is an element and a list. -/
theorem argumentsWithin_ok :
    argumentsWithin read index (bound + 1) c = .ok elements c' ↔
      ∃ c₁, skipToContent c = .ok () c₁ ∧
        (c₁.peek = some Byte.closeParen ∧ elements = [] ∧ c' = c₁.advance ∨
          c₁.peek ≠ some Byte.closeParen ∧ ∃ c₂ name c₃ value c₄ others,
            separator index c₁ = .ok () c₂ ∧ label c₂ = .ok name c₃ ∧ read index c₃ = .ok value c₄ ∧
            argumentsWithin read (index + 1) bound c₄ = .ok others c' ∧
            elements = (name, value) :: others) := by
  constructor
  · intro h
    obtain ⟨_, c₁, hspace, h⟩ := bind_ok h
    refine ⟨c₁, hspace, ?_⟩
    obtain ⟨here, _, hhere, h⟩ := bind_ok h
    cases hhere
    split at h
    · rename_i hpeek
      cases h
      exact .inl ⟨eq_of_beq hpeek, rfl, rfl⟩
    · rename_i hpeek
      obtain ⟨_, c₂, hseparator, h⟩ := bind_ok h
      obtain ⟨name, c₃, hlabel, h⟩ := bind_ok h
      obtain ⟨value, c₄, hvalue, h⟩ := bind_ok h
      obtain ⟨others, c₅, hothers, h⟩ := bind_ok h
      cases h
      exact .inr ⟨fun he => hpeek (beq_iff_eq.mpr he),
        c₂, name, c₃, value, c₄, others, hseparator, hlabel, hvalue, hothers, rfl⟩
  · rintro ⟨c₁, hspace, ⟨hpeek, rfl, rfl⟩ |
      ⟨hpeek, c₂, name, c₃, value, c₄, others, hseparator, hlabel, hvalue, hothers, rfl⟩⟩
    · refine (bind_of_ok hspace).trans ((bind_of_ok (rfl : lookingAt _ c₁ = _)).trans ?_)
      rw [if_pos (beq_iff_eq.mpr hpeek)]
      rfl
    · refine (bind_of_ok hspace).trans ((bind_of_ok (rfl : lookingAt _ c₁ = _)).trans ?_)
      rw [if_neg fun he => hpeek (eq_of_beq he)]
      exact (bind_of_ok hseparator).trans ((bind_of_ok hlabel).trans
        ((bind_of_ok hvalue).trans (bind_of_ok hothers)))

/-- Blanks before the rest of a list make no difference. -/
theorem argumentsWithin_skip :
    argumentsWithin read index bound (c.skip isLineBlank) = .ok elements c' ↔
      argumentsWithin read index bound c = .ok elements c' := by
  cases bound with
  | zero => exact ⟨fun h => (nomatch h), fun h => (nomatch h)⟩
  | succ bound => rw [argumentsWithin_ok, argumentsWithin_ok, skipToContent_skip]

/-- Where a list goes on behind an element, an expression has ended. -/
theorem ended_of_arguments (h : argumentsWithin read (index + 1) bound c = .ok elements c') :
    goesOn (c.skip isLineBlank).peek = false := by
  cases bound with
  | zero => cases h
  | succ bound =>
    cases hpeek : (c.skip isLineBlank).peek with
    | none => rfl
    | some b =>
      by_cases hline : b = Byte.lineFeed
      · subst hline
        rfl
      -- The byte is not blank, so it is what the rest of the list begins with.
      have hblank : Byte.isSpace b = false := by
        have hkeep := Cursor.peek_skip hpeek
        simpa [isLineBlank, hline] using hkeep
      have hspace : skipToContent c = .ok () (c.skip isLineBlank) := by
        rw [← skipToContent_skip]
        change assertMore ((c.skip isLineBlank).skip _) = _
        rw [Cursor.skip_of_peek hpeek (by simp [hblank])]
        have hmore : (c.skip isLineBlank).rest.isEmpty = false := by
          cases hrest : (c.skip isLineBlank).rest with
          | nil =>
            rw [Cursor.peek, hrest] at hpeek
            cases hpeek
          | cons => rfl
        simp only [assertMore, hmore, Bool.false_eq_true, if_false]
      obtain ⟨c₁, hspace', hrest⟩ := argumentsWithin_ok.mp h
      cases hspace.symm.trans hspace'
      rcases hrest with ⟨hclose, _⟩ | ⟨_, c₂, _, _, _, _, _, hseparator, _⟩
      · rw [hpeek] at hclose
        cases hclose
        rfl
      · obtain ⟨_, c₃, hcomma, _⟩ := bind_ok hseparator
        obtain ⟨next, c₄, hnext, hcomma⟩ := bind_ok hcomma
        cases hnext
        rw [hpeek] at hcomma
        dsimp only at hcomma
        split at hcomma
        · rename_i hb
          obtain rfl := eq_of_beq hb
          rfl
        · cases hcomma

end Lists

/-! ## Constants and trees -/

/-- An argument whose value is a single term, read up to the blanks behind it. -/
theorem expressionOf_single {term : Scan Term} {t : Term} {c c₁ : Cursor} (hterm : term c = .ok t c₁)
    (hended : goesOn (c₁.skip isLineBlank).peek = false) :
    expressionOf term c
      = .ok (.mk t [] (c₁.skip isLineBlank).offset) (c₁.skip isLineBlank) := by
  have hsteps : bounded (stepsWithin term) c₁ = .ok [] (c₁.skip isLineBlank) := by
    have hcontinues := expressionContinues_eq c₁
    rw [hended] at hcontinues
    exact bind_of_ok hcontinues
  exact (bind_of_ok hterm).trans (bind_of_ok hsteps)

/-- And only such a tree has a single term. -/
theorem single_of_expressionOf {term : Scan Term} {t : Term} {stop : Nat} {c c' : Cursor}
    (h : expressionOf term c = .ok (.mk t [] stop) c') :
    ∃ c₁, term c = .ok t c₁ ∧ c' = c₁.skip isLineBlank := by
  obtain ⟨first, c₁, hfirst, h⟩ := bind_ok h
  obtain ⟨steps, c₂, hsteps, h⟩ := bind_ok h
  obtain ⟨stop', c₃, hstop, h⟩ := bind_ok h
  cases hstop
  cases h
  refine ⟨c₁, hfirst, ?_⟩
  rw [bounded_apply] at hsteps
  obtain ⟨more, c₃, hmore, hsteps⟩ := bind_ok hsteps
  cases (expressionContinues_eq c₁).symm.trans hmore
  split at hsteps
  · obtain ⟨operator, c₄, _, hsteps⟩ := bind_ok hsteps
    obtain ⟨stop, c₅, _, hsteps⟩ := bind_ok hsteps
    obtain ⟨_, c₆, _, hsteps⟩ := bind_ok hsteps
    obtain ⟨operand, c₇, _, hsteps⟩ := bind_ok hsteps
    obtain ⟨others, c₈, _, hsteps⟩ := bind_ok hsteps
    cases hsteps
  · cases hsteps
    rfl

/-- An element of a list of constants of the types `expected`. -/
def constantElement (types : SymbolTable Ty) (depth : Nat) (expected : List Ty) (index : Nat) :
    Scan IR.Constant :=
  match expected[index]? with
  | none => throw (.tooManyArguments expected.length)
  | some ty => do
    skipToContent
    constantWithin types depth true ty

/-- What is read as a constant is read as a tree that is one, up to the same place. -/
def ReadsConstants (types : SymbolTable Ty) (depth : Nat) (nested : Bool) (expected : Ty) : Prop :=
  ∀ {c c' : Cursor} {v : IR.Constant}, constantWithin types depth nested expected c = .ok v c' ↔
    ∃ t, termWithin depth c = .ok t c' ∧ t.constant? types expected = some v

section Elements

variable {depth : Nat} {expected : List Ty}

/-- What is read as an element is a constant of the type that is expected at its place. -/
theorem constantElement_ok {index : Nat} {c c' : Cursor} {v : IR.Constant} :
    constantElement types depth expected index c = .ok v c' ↔
      ∃ (_ : index < expected.length) (c₁ : Cursor), skipToContent c = .ok () c₁ ∧
        constantWithin types depth true expected[index] c₁ = .ok v c' := by
  unfold constantElement
  rcases Nat.lt_or_ge index expected.length with hlt | hge
  · rw [List.getElem?_eq_getElem hlt]
    constructor
    · intro h
      obtain ⟨_, c₁, hspace, h⟩ := bind_ok h
      exact ⟨hlt, c₁, hspace, h⟩
    · rintro ⟨_, c₁, hspace, h⟩
      exact (bind_of_ok hspace).trans h
  · rw [List.getElem?_eq_none hge]
    exact ⟨fun h => (nomatch h), fun ⟨hlt, _⟩ => absurd hlt (Nat.not_lt_of_le hge)⟩

/-- An argument still looks for an operator behind its first term. Where the list goes on there is none, so
only blanks are passed. -/
theorem argument_of_constantElement (hterm : ∀ ty, ReadsConstants types depth true ty) {index : Nat}
    {c c' : Cursor} {v : IR.Constant} (h : constantElement types depth expected index c = .ok v c')
    (hended : goesOn (c'.skip isLineBlank).peek = false) :
    ∃ (_ : index < expected.length) (e : Expression),
      argumentElement (termWithin depth) c = .ok (c.offset, e) (c'.skip isLineBlank) ∧
        e.constant? types expected[index] = some v := by
  obtain ⟨hlt, c₁, hspace, h⟩ := constantElement_ok.mp h
  obtain ⟨t, ht, hconstant⟩ := (hterm _).mp h
  exact ⟨hlt, _, (bind_of_ok rfl).trans ((bind_of_ok hspace).trans (bind_of_ok (expressionOf_single ht hended))),
    Expression.constant?_some.mpr ⟨t, _, rfl, hconstant⟩⟩

/-- And an argument that is a constant has no second term. -/
theorem constantElement_of_argument (hterm : ∀ ty, ReadsConstants types depth true ty) {index : Nat}
    (hlt : index < expected.length) {c c' : Cursor} {element : Nat × Expression} {v : IR.Constant}
    (h : argumentElement (termWithin depth) c = .ok element c')
    (hconstant : element.2.constant? types expected[index] = some v) :
    ∃ c₁, constantElement types depth expected index c = .ok v c₁ ∧ c' = c₁.skip isLineBlank := by
  obtain ⟨start, c₁, hstart, h⟩ := bind_ok h
  cases hstart
  obtain ⟨_, c₁, hspace, h⟩ := bind_ok h
  obtain ⟨value, c₂, hexpression, h⟩ := bind_ok h
  cases h
  obtain ⟨first, stop, rfl, hfirst⟩ := Expression.constant?_some.mp hconstant
  obtain ⟨c₃, ht, rfl⟩ := single_of_expressionOf hexpression
  exact ⟨c₃, constantElement_ok.mpr ⟨hlt, c₁, hspace, (hterm _).mpr ⟨first, ht, hfirst⟩⟩, rfl⟩

/-- A list of constants is read where a list of arguments is read that are constants, element by element. -/
theorem elements_iff (hterm : ∀ ty, ReadsConstants types depth true ty) {bound index : Nat}
    (hindex : index ≤ expected.length) {c c' : Cursor} {values : List IR.Constant} :
    (∃ elements, argumentsWithin (constantElement types depth expected) index bound c = .ok elements c' ∧
      index + elements.length = expected.length ∧ elements.map Prod.snd = values) ↔
    ∃ elements,
      argumentsWithin (fun _ => argumentElement (termWithin depth)) index bound c = .ok elements c' ∧
      Argument.constants? types (expected.drop index) (elements.map argument) = some values := by
  induction bound generalizing index c values with
  | zero => exact ⟨fun ⟨_, h, _⟩ => (nomatch h), fun ⟨_, h, _⟩ => (nomatch h)⟩
  | succ bound ih =>
    constructor
    · rintro ⟨elements, h, hcount, rfl⟩
      obtain ⟨c₁, hspace, hrest⟩ := argumentsWithin_ok.mp h
      rcases hrest with ⟨hpeek, rfl, rfl⟩ |
        ⟨hpeek, c₂, name, c₃, v, c₄, others, hseparator, hlabel, hvalue, hothers, rfl⟩
      · refine ⟨[], argumentsWithin_ok.mpr ⟨c₁, hspace, .inl ⟨hpeek, rfl, rfl⟩⟩, ?_⟩
        exact Argument.constants?_nil.mpr ⟨List.drop_eq_nil_of_le (by simp at hcount; omega), rfl⟩
      · obtain ⟨hlt, e, helement, hconstant⟩ :=
          argument_of_constantElement hterm hvalue (ended_of_arguments hothers)
        rw [List.length_cons] at hcount
        obtain ⟨trees, htrees, hconstants⟩ := (ih hlt).mp ⟨others, hothers, by omega, rfl⟩
        refine ⟨_ :: trees, argumentsWithin_ok.mpr ⟨c₁, hspace, .inr ⟨hpeek, c₂, name, c₃, _, _, trees,
          hseparator, hlabel, helement, argumentsWithin_skip.mpr htrees, rfl⟩⟩, ?_⟩
        rw [List.drop_eq_getElem_cons hlt]
        exact Argument.constants?_cons.mpr ⟨_, _, v, _, rfl, hconstant, hconstants, rfl⟩
    · rintro ⟨elements, h, hconstants⟩
      obtain ⟨c₁, hspace, hrest⟩ := argumentsWithin_ok.mp h
      rcases hrest with ⟨hpeek, rfl, rfl⟩ |
        ⟨hpeek, c₂, name, c₃, e, c₄, others, hseparator, hlabel, helement, hothers, rfl⟩
      · obtain ⟨hdrop, rfl⟩ := Argument.constants?_nil.mp hconstants
        refine ⟨[], argumentsWithin_ok.mpr ⟨c₁, hspace, .inl ⟨hpeek, rfl, rfl⟩⟩, ?_, rfl⟩
        exact Nat.le_antisymm hindex (List.drop_eq_nil_iff.mp hdrop)
      · obtain ⟨ty, types', v, vs, hdrop, hvalue, hvs, rfl⟩ := Argument.constants?_cons.mp hconstants
        have hlt : index < expected.length := by
          refine Nat.lt_of_not_le fun hle => ?_
          rw [List.drop_eq_nil_of_le hle] at hdrop
          cases hdrop
        rw [List.drop_eq_getElem_cons hlt] at hdrop
        obtain ⟨rfl, rfl⟩ := List.cons.inj hdrop
        obtain ⟨c₅, hread, rfl⟩ := constantElement_of_argument hterm hlt helement hvalue
        obtain ⟨constants, hconstants, hcount, hmap⟩ := (ih hlt).mpr ⟨others, hothers, hvs⟩
        refine ⟨(name, v) :: constants, argumentsWithin_ok.mpr ⟨c₁, hspace, .inr ⟨hpeek, c₂, name, c₃, v,
          c₅, constants, hseparator, hlabel, hread, argumentsWithin_skip.mp hconstants, rfl⟩⟩, ?_, ?_⟩
        · rw [List.length_cons]
          omega
        · rw [List.map_cons, hmap]

/-- Constants are read for all of the expected types where arguments are read that are constants of them. -/
theorem positional_iff (hterm : ∀ ty, ReadsConstants types depth true ty) {c c' : Cursor}
    {values : List IR.Constant} :
    positional expected (constantWithin types depth true) c = .ok values c' ↔
      ∃ arguments, argumentsOf (termWithin depth) c = .ok arguments c' ∧
        Argument.constants? types expected arguments = some values := by
  constructor
  · intro h
    have hlength := (positional_ensures (P := fun _ _ => True) (fun _ _ _ _ _ => trivial) _ _ _ h).length_eq
    obtain ⟨elements, c₁, helements, h⟩ := bind_ok h
    split at h
    · cases h
    cases h
    rw [List.length_map] at hlength
    obtain ⟨trees, htrees, hconstants⟩ :=
      (elements_iff hterm (Nat.zero_le _)).mp ⟨elements, helements, by omega, rfl⟩
    exact ⟨_, bind_of_ok htrees, hconstants⟩
  · rintro ⟨arguments, harguments, hconstants⟩
    obtain ⟨trees, c₁, htrees, harguments⟩ := bind_ok harguments
    cases harguments
    obtain ⟨elements, helements, hcount, rfl⟩ :=
      (elements_iff hterm (Nat.zero_le _)).mpr ⟨trees, htrees, hconstants⟩
    refine (bind_of_ok helements).trans ?_
    rw [if_neg (by omega)]
    rfl

end Elements

/-- A term is a constant if it is a literal, or a literal of the type expected with constants for fields. -/
theorem constantTerm_iff {depth : Nat} {expected : Ty} {c c' : Cursor} {v : IR.Constant} :
    (∃ t, termWithin (depth + 1) c = .ok t c' ∧ t.constant? types expected = some v) ↔
      (∃ text n, termHead c = .ok (.word text) c' ∧ expected.literal? text = some n ∧ v = .int n) ∨
      ∃ callee c₁ fields, termHead c = .ok (.call callee) c₁ ∧ types.find? callee = some expected ∧
        expected.passing = .byValue ∧
        (∃ arguments, argumentsOf (termWithin depth) c₁ = .ok arguments c' ∧
          Argument.constants? types expected.fieldTypes arguments = some fields) ∧
        v = .struct fields := by
  constructor
  · rintro ⟨t, h, hconstant⟩
    obtain ⟨head, c₁, hhead, h⟩ := bind_ok h
    obtain ⟨stop, c₂, hstop, h⟩ := bind_ok h
    cases hstop
    cases head with
    | word text =>
      cases h
      obtain ⟨n, hliteral, rfl⟩ := Option.map_eq_some_iff.mp hconstant
      exact .inl ⟨text, n, hhead, hliteral, rfl⟩
    | call callee =>
      obtain ⟨arguments, c₂, harguments, h⟩ := bind_ok h
      cases h
      unfold Term.constant? at hconstant
      split at hconstant
      · rename_i ty hfind
        split at hconstant
        · rename_i hty
          obtain ⟨rfl, hpassing⟩ := hty
          obtain ⟨fields, hfields, rfl⟩ := Option.map_eq_some_iff.mp hconstant
          exact .inr ⟨callee, _, fields, hhead, hfind, hpassing, ⟨arguments, harguments, hfields⟩, rfl⟩
        · cases hconstant
      · cases hconstant
    | field target member =>
      cases h
      cases hconstant
    | methodCall target member =>
      obtain ⟨arguments, c₂, _, h⟩ := bind_ok h
      cases h
      cases hconstant
  · rintro (⟨text, n, hhead, hliteral, rfl⟩ |
      ⟨callee, c₁, fields, hhead, hfind, hpassing, ⟨arguments, harguments, hfields⟩, rfl⟩)
    · exact ⟨_, bind_of_ok hhead, by simp [Term.constant?, hliteral]⟩
    · exact ⟨_, (bind_of_ok hhead).trans (bind_of_ok harguments),
        by simp [Term.constant?, hfind, hpassing, hfields]⟩

/-- Whatever the nesting, a constant is read where a term is read that is one. -/
theorem readsConstants (depth : Nat) (nested : Bool) (expected : Ty)
    (hpassing : nested = true ∨ expected.passing = .byValue) :
    ReadsConstants types depth nested expected := by
  induction depth generalizing nested expected with
  | zero =>
    intro c c' v
    constructor
    · intro h
      cases h
    · rintro ⟨t, h, _⟩
      cases h
  | succ depth ih =>
    intro c c' v
    -- The extra rule for fields says no more than what a term has to meet anyway.
    have hvalue : (nested = true → expected.passing = .byValue) ↔ expected.passing = .byValue := by
      rcases hpassing with rfl | hpassing
      · simp
      · simp [hpassing]
    rw [constantWithin_iff, constantTerm_iff]
    simp only [hvalue, positional_iff fun ty => ih true ty (.inl rfl)]

/-- A constant of a type that is passed by value is read exactly where a term is read that is one. -/
theorem constant_iff {expected : Ty} (hpassing : expected.passing = .byValue) {c c' : Cursor}
    {v : IR.Constant} :
    constant types expected c = .ok v c' ↔
      ∃ t, term c = .ok t c' ∧ t.constant? types expected = some v :=
  readsConstants _ false expected (.inr hpassing)

end Scan

end Straightline
