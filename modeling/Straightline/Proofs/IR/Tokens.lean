import Straightline.Proofs.IR.Symbols

/-!
# Where a printed part ends

The text of a module is read from the left. What is printed for a part is followed by a blank, a comma, a
bracket or the end of the line, and no name, number or type holds one of these (`IsName`, `told_digits`,
`told_type`). So of two texts that begin with the prints of two parts it can be told whether the parts are the
same, and the rests are the same as well (`Told`). Prints that are put together from such parts are told apart
in turn, lists with commas among them (`told_commaSeparated`).
-/

set_option autoImplicit false

namespace Straightline.IR

/-- What stands behind a name, a number or a type. -/
def stops : List Char := [' ', ',', '(', ')', '\n']

/-- The text is over or goes on with a stop. -/
def Stopped (rest : List Char) : Prop := ∀ c ∈ rest.head?, c ∈ stops

/-- Wherever the same text begins with both prints, and each of them ends at a stop, `P` holds and the rest is
the same. -/
def Told (text text' : List Char) (P : Prop) : Prop :=
  ∀ rest rest', Stopped rest → Stopped rest' → text ++ rest = text' ++ rest' → P ∧ rest = rest'

section Told

variable {c : Char} {text text' next next' : List Char} {P Q : Prop}

theorem stopped_cons (hc : c ∈ stops) (rest : List Char) : Stopped (c :: rest) := by
  intro d hd
  cases hd
  exact hc

theorem Stopped.append (h : Stopped next) {rest : List Char} (hrest : Stopped rest) :
    Stopped (next ++ rest) := by
  cases next with
  | nil => exact hrest
  | cons c next => exact stopped_cons (h c rfl) _

namespace Told

theorem imp (h : Told text text' P) (hP : P → Q) : Told text text' Q :=
  fun rest rest' hrest hrest' heq => (h rest rest' hrest hrest' heq).imp_left hP

theorem same (text : List Char) (h : P) : Told text text P :=
  fun _ _ _ _ heq => ⟨h, List.append_cancel_left heq⟩

/-- What stands in front of both is skipped. -/
theorem behind (front : List Char) (h : Told text text' P) : Told (front ++ text) (front ++ text') P := by
  intro rest rest' hrest hrest' heq
  simp only [List.append_assoc] at heq
  exact h rest rest' hrest hrest' (List.append_cancel_left heq)

theorem cons (c : Char) (h : Told text text' P) : Told (c :: text) (c :: text') P := h.behind [c]

/-- One print and then another. -/
theorem append (h : Told text text' P) (hnext : Stopped next) (hnext' : Stopped next')
    (h' : P → Told next next' Q) : Told (text ++ next) (text' ++ next') (P ∧ Q) := by
  intro rest rest' hrest hrest' heq
  simp only [List.append_assoc] at heq
  obtain ⟨hP, heq⟩ := h _ _ (hnext.append hrest) (hnext'.append hrest') heq
  obtain ⟨hQ, heq⟩ := h' hP _ _ hrest hrest' heq
  exact ⟨⟨hP, hQ⟩, heq⟩

/-- One print and, behind a blank, another. -/
theorem blank (h : Told text text' P) (h' : P → Told next next' Q) :
    Told (text ++ ' ' :: next) (text' ++ ' ' :: next') (P ∧ Q) :=
  h.append (stopped_cons (by decide) _) (stopped_cons (by decide) _) fun hP => (h' hP).cons ' '

/-- One print and, behind a comma, another. -/
theorem comma (h : Told text text' P) (h' : P → Told next next' Q) :
    Told (text ++ ',' :: ' ' :: next) (text' ++ ',' :: ' ' :: next') (P ∧ Q) :=
  h.append (stopped_cons (by decide) _) (stopped_cons (by decide) _) fun hP => ((h' hP).cons ' ').cons ','

/-- A print up to the end of its line. -/
theorem line (h : Told text text' P) {rest rest' : List Char}
    (heq : text ++ '\n' :: rest = text' ++ '\n' :: rest') : P ∧ rest = rest' :=
  (h _ _ (stopped_cons (by decide) _) (stopped_cons (by decide) _) heq).imp_right List.tail_eq_of_cons_eq

end Told

/-- No stop stands in the text. -/
def Solid (text : List Char) : Prop := ∀ c ∈ text, c ∉ stops

instance (text : List Char) : Decidable (Solid text) := List.decidableBAll _ text

theorem told_solid (h : Solid text) (h' : Solid text') : Told text text' (text = text') := by
  intro rest rest' hrest hrest' heq
  induction text generalizing text' with
  | nil =>
    cases text' with
    | nil => exact ⟨rfl, heq⟩
    | cons c text' =>
      rw [List.nil_append] at heq
      subst heq
      exact absurd (hrest c rfl) (h' c List.mem_cons_self)
  | cons c text ih =>
    cases text' with
    | nil =>
      rw [List.nil_append] at heq
      subst heq
      exact absurd (hrest' c rfl) (h c List.mem_cons_self)
    | cons c' text' =>
      obtain ⟨rfl, htail⟩ := List.cons.inj heq
      obtain ⟨rfl, hrest⟩ := ih (List.forall_mem_cons.mp h).2 (List.forall_mem_cons.mp h').2 htail
      exact ⟨rfl, hrest⟩

end Told

/-! ## Numbers -/

theorem isDigit_of_mem_digits {n : Nat} {c : Char} (h : c ∈ Nat.toDigits 10 n) : c.isDigit = true :=
  Nat.isDigit_of_mem_toDigits (by decide) (by decide) h

theorem solid_digits (n : Nat) : Solid (Nat.toDigits 10 n) := by
  intro c hc hstop
  have hdigit : (stops.all fun c => !c.isDigit) = true := by decide
  have hfalse := List.all_eq_true.mp hdigit c hstop
  rw [isDigit_of_mem_digits hc] at hfalse
  cases hfalse

theorem digits_injective {n n' : Nat} (h : Nat.toDigits 10 n = Nat.toDigits 10 n') : n = n' := by
  have hvalue := congrArg (fun digits => Nat.ofDigitChars 10 digits 0) h
  simpa only [Nat.ofDigitChars_ten_toDigits] using hvalue

theorem told_digits (n n' : Nat) : Told (Nat.toDigits 10 n) (Nat.toDigits 10 n') (n = n') :=
  (told_solid (solid_digits n) (solid_digits n')).imp digits_injective

theorem toList_toString (n : Int) :
    (toString n).toList =
      if n < 0 then '-' :: Nat.toDigits 10 n.natAbs else Nat.toDigits 10 n.natAbs := by
  cases n with
  | ofNat n => exact Nat.toList_repr
  | negSucc n => simp [toString, Int.repr, String.toList_append]

theorem solid_toString (n : Int) : Solid (toString n).toList := by
  rw [toList_toString]
  split
  · exact List.forall_mem_cons.mpr ⟨by decide, solid_digits _⟩
  · exact solid_digits _

theorem told_toString (n n' : Int) : Told (toString n).toList (toString n').toList (n = n') := by
  have hminus : ∀ k : Nat, '-' ∉ Nat.toDigits 10 k := fun k hk => by cases isDigit_of_mem_digits hk
  refine (told_solid (solid_toString n) (solid_toString n')).imp fun h => ?_
  rw [toList_toString, toList_toString] at h
  split at h <;> split at h
  · have habs := digits_injective (List.cons.inj h).2
    omega
  · exact absurd (h ▸ List.mem_cons_self) (hminus n'.natAbs)
  · exact absurd (h ▸ List.mem_cons_self) (hminus n.natAbs)
  · have habs := digits_injective h
    omega

/-! ## Names -/

/-- No stop stands in the text, and no star either: it may be the name of a structure, a global or a
function. -/
def IsName (name : String) : Prop := ∀ c ∈ name.toList, c ∉ '*' :: stops

instance (name : String) : Decidable (IsName name) := List.decidableBAll _ name.toList

section Names

variable {name name' : String}

theorem IsName.solid (h : IsName name) : Solid name.toList :=
  fun c hc hstop => h c hc (List.mem_cons_of_mem _ hstop)

theorem solid_symbol (h : IsName name) : Solid (symbol name).toList := by
  rw [toList_symbol]
  split
  · exact List.forall_mem_cons.mpr ⟨by decide, h.solid⟩
  · exact List.forall_mem_append.mpr
      ⟨List.forall_mem_cons.mpr ⟨by decide, List.forall_mem_cons.mpr ⟨by decide, h.solid⟩⟩,
        List.forall_mem_singleton.mpr (by decide)⟩

theorem told_name (h : IsName name) (h' : IsName name') : Told name.toList name'.toList (name = name') :=
  (told_solid h.solid h'.solid).imp String.toList_inj.mp

theorem told_symbol (h : IsName name) (h' : IsName name') :
    Told (symbol name).toList (symbol name').toList (name = name') :=
  (told_solid (solid_symbol h) (solid_symbol h')).imp fun he => symbol_injective (String.toList_inj.mp he)

end Names

end IR

/-! ## Types -/

/-- The structures in the type are called by names. -/
def IRType.Named : IRType → Prop
  | void | int _ => True
  | ptr inner => inner.Named
  | struct name => IR.IsName name

namespace IR

variable {ty ty' : IRType}

section Texts

attribute [local simp] IRType.text

theorem toList_text_void : IRType.void.text.toList = ['v', 'o', 'i', 'd'] := by
  simp

theorem toList_text_int (bits : Nat) : (IRType.int bits).text.toList = 'i' :: Nat.toDigits 10 bits := by
  simp [String.toList_append, toString]

theorem toList_text_ptr (inner : IRType) : (IRType.ptr inner).text.toList = inner.text.toList ++ ['*'] := by
  simp [String.toList_append]

theorem toList_text_struct (name : String) : (IRType.struct name).text.toList = '%' :: name.toList := by
  simp [String.toList_append]

end Texts

theorem solid_typeText (h : ty.Named) : Solid ty.text.toList := by
  induction ty with
  | void =>
    rw [toList_text_void]
    decide
  | int bits =>
    rw [toList_text_int]
    exact List.forall_mem_cons.mpr ⟨by decide, solid_digits bits⟩
  | ptr inner ih =>
    rw [toList_text_ptr]
    exact List.forall_mem_append.mpr ⟨ih h, List.forall_mem_singleton.mpr (by decide)⟩
  | struct name =>
    rw [toList_text_struct]
    exact List.forall_mem_cons.mpr ⟨by decide, IsName.solid h⟩

/-- Only the text of a pointer has a star. -/
theorem star_typeText (h : ty.Named) : '*' ∈ ty.text.toList ↔ ∃ inner, ty = .ptr inner := by
  cases ty with
  | void => simp [toList_text_void]
  | int bits =>
    have hdigits : '*' ∉ Nat.toDigits 10 bits := fun hstar => by cases isDigit_of_mem_digits hstar
    simp [toList_text_int, hdigits]
  | ptr inner => simp [toList_text_ptr]
  | struct name =>
    have hname : '*' ∉ name.toList := fun hstar => h '*' hstar List.mem_cons_self
    simp [toList_text_struct, hname]

theorem typeText_injective (h : ty.Named) (h' : ty'.Named) (heq : ty.text.toList = ty'.text.toList) :
    ty = ty' := by
  induction ty generalizing ty' with
  | ptr inner ih =>
    obtain ⟨inner', rfl⟩ := (star_typeText h').mp (heq ▸ (star_typeText h).mpr ⟨inner, rfl⟩)
    rw [toList_text_ptr, toList_text_ptr] at heq
    have hinner : inner.text.toList = inner'.text.toList := List.append_cancel_right heq
    rw [ih h (show inner'.Named from h') hinner]
  | void | int | struct =>
    -- Any two of these begin with different characters.
    cases ty' with
    | ptr inner' =>
      obtain ⟨inner, hptr⟩ := (star_typeText h).mp (heq ▸ (star_typeText h').mpr ⟨inner', rfl⟩)
      cases hptr
    | void | int | struct =>
      simp only [toList_text_void, toList_text_int, toList_text_struct, List.cons.injEq] at heq
      first
        | rfl
        | exact absurd heq.1 (by decide)
        | exact congrArg _ (digits_injective heq.2)
        | exact congrArg _ (String.toList_inj.mp heq.2)

theorem told_type (h : ty.Named) (h' : ty'.Named) :
    Told ty.text.toList ty'.text.toList (ty = ty') :=
  (told_solid (solid_typeText h) (solid_typeText h')).imp (typeText_injective h h')

/-- Some character of a type comes first, and is no stop. -/
theorem not_stopped_typeText (h : ty.Named) (rest : List Char) : ¬Stopped (ty.text.toList ++ rest) := by
  intro hstopped
  have hsolid := solid_typeText h
  cases htext : ty.text.toList with
  | nil =>
    cases ty <;> simp [toList_text_void, toList_text_int, toList_text_ptr, toList_text_struct] at htext
  | cons c more =>
    rw [htext] at hstopped hsolid
    exact hsolid c List.mem_cons_self (hstopped c rfl)

/-! ## Lists -/

/-- Items with a comma in front of each. -/
def continued (items : List String) : List Char := items.flatMap fun item => ',' :: ' ' :: item.toList

theorem continued_cons (item : String) (items : List String) :
    continued (item :: items) = ',' :: ' ' :: (item.toList ++ continued items) := rfl

theorem stopped_continued (items : List String) : Stopped (continued items) := by
  cases items with
  | nil => exact fun _ h => nomatch h
  | cons item items => exact stopped_cons (by decide) _

/-- A list that is not empty, with what would separate it from an item before. -/
theorem continued_commaSeparated (item : String) (items : List String) :
    continued (item :: items) = ',' :: ' ' :: (commaSeparated (item :: items)).toList := by
  unfold commaSeparated
  induction items generalizing item with
  | nil => simp [continued]
  | cons next items ih =>
    rw [continued_cons, ih, String.intercalate_cons_cons, String.toList_append, String.toList_append]
    simp

theorem toList_commaSeparated_nil : (commaSeparated []).toList = [] := by decide

theorem told_of_continued {items items' : List String} {P : Prop} (hnil : items = [] ↔ items' = [])
    (h : Told (continued items) (continued items') P) :
    Told (commaSeparated items).toList (commaSeparated items').toList P := by
  cases items with
  | nil =>
    obtain rfl := hnil.mp rfl
    rwa [toList_commaSeparated_nil]
  | cons item items =>
    cases items' with
    | nil => exact absurd (hnil.mpr rfl) (List.cons_ne_nil _ _)
    | cons item' items' =>
      intro rest rest' hrest hrest' heq
      refine h rest rest' hrest hrest' ?_
      simp only [continued_commaSeparated, List.cons_append, heq]

section Lists

variable {α β : Type} {f : α → String} {g : β → String} {P : α → β → Prop} {xs : List α} {ys : List β}
  {c : Char} {rest rest' : List Char}

/-- The character behind a list is no comma, which tells that there are no more items. -/
theorem told_continued (hstop : c ∈ stops) (hcomma : c ≠ ',')
    (h : ∀ x ∈ xs, ∀ y ∈ ys, Told (f x).toList (g y).toList (P x y))
    (heq : continued (xs.map f) ++ c :: rest = continued (ys.map g) ++ c :: rest') :
    List.Forall₂ P xs ys ∧ rest = rest' := by
  have hstopped : ∀ items rest, Stopped (continued items ++ c :: rest) :=
    fun items rest => (stopped_continued items).append (stopped_cons hstop rest)
  induction xs generalizing ys with
  | nil =>
    cases ys with
    | nil => exact ⟨.nil, (List.cons.inj heq).2⟩
    | cons y ys => exact absurd (List.cons.inj heq).1 hcomma
  | cons x xs ih =>
    cases ys with
    | nil => exact absurd (List.cons.inj heq).1.symm hcomma
    | cons y ys =>
      simp only [List.map_cons, continued_cons, List.cons_append, List.append_assoc] at heq
      have hitem : (f x).toList ++ (continued (xs.map f) ++ c :: rest) =
          (g y).toList ++ (continued (ys.map g) ++ c :: rest') :=
        (List.cons.inj (List.cons.inj heq).2).2
      obtain ⟨hP, hmore⟩ :=
        h x List.mem_cons_self y List.mem_cons_self _ _ (hstopped _ _) (hstopped _ _) hitem
      obtain ⟨hall, hrest⟩ := ih
        (fun x hx y hy => h x (List.mem_cons_of_mem _ hx) y (List.mem_cons_of_mem _ hy)) hmore
      exact ⟨.cons hP hall, hrest⟩

/-- No item begins with a stop, which tells a list without items. -/
theorem told_commaSeparated (hstop : c ∈ stops) (hcomma : c ≠ ',')
    (hf : ∀ x ∈ xs, ¬Stopped (f x).toList) (hg : ∀ y ∈ ys, ¬Stopped (g y).toList)
    (h : ∀ x ∈ xs, ∀ y ∈ ys, Told (f x).toList (g y).toList (P x y))
    (heq : (commaSeparated (xs.map f)).toList ++ c :: rest =
      (commaSeparated (ys.map g)).toList ++ c :: rest') :
    List.Forall₂ P xs ys ∧ rest = rest' := by
  -- A list that begins like an empty one begins with the stop behind it.
  have hbegins : ∀ (item : String) (items : List String) (rest rest' : List Char),
      c :: rest = (commaSeparated (item :: items)).toList ++ c :: rest' → Stopped item.toList := by
    intro item items rest rest' heq d hd
    have hlist := continued_commaSeparated item items
    rw [continued_cons, List.cons.injEq, List.cons.injEq] at hlist
    obtain ⟨more, hitem⟩ : ∃ more, item.toList = d :: more := List.head?_eq_some_iff.mp hd
    rw [← hlist.2.2, hitem] at heq
    rwa [← (List.cons.inj heq).1]
  cases xs with
  | nil =>
    rw [List.map_nil, toList_commaSeparated_nil] at heq
    cases ys with
    | nil =>
      rw [List.map_nil, toList_commaSeparated_nil] at heq
      exact ⟨.nil, (List.cons.inj heq).2⟩
    | cons y ys => exact absurd (hbegins _ _ _ _ heq) (hg y List.mem_cons_self)
  | cons x xs =>
    cases ys with
    | nil =>
      rw [List.map_nil, toList_commaSeparated_nil] at heq
      exact absurd (hbegins _ _ _ _ heq.symm) (hf x List.mem_cons_self)
    | cons y ys =>
      refine told_continued hstop hcomma h ?_
      simp only [List.map_cons] at heq
      simp only [List.map_cons, continued_commaSeparated, List.cons_append, heq]

end Lists

end IR

end Straightline
