import Straightline.Proofs.Reading.Position
import Straightline.Proofs.Reading.Printing

/-!
# Printed argument lists

An argument list is printed from its elements: each is a word, with or without a label, and blanks
stand around every token (`Element.list`). Whatever its length, the list is read positionally without
loss or padding, and an element too many is refused before it is read (`Scan.arguments_printed`).
-/

set_option autoImplicit false

namespace Straightline

/-- An element of an argument list as it is printed: its label with the blanks on both sides of the
colon, if it has one, the word itself, and the blanks around them. -/
structure Element where
  before : Blanks
  label : Option (Word × Blanks × Blanks)
  word : Word
  after : Blanks

namespace Element

/-- What the element is called: its label, or the word itself. -/
def name (e : Element) : String :=
  match e.label with
  | none => e.word.text
  | some (label, _, _) => label.text

def pair (e : Element) : String × String := (e.name, e.word.text)

/-- The label with its colon. -/
def tag (e : Element) : List UInt8 :=
  match e.label with
  | none => []
  | some (label, gap, _) => label.bytes ++ (gap.bytes ++ [Byte.colon])

/-- The blanks behind the colon. -/
def gap (e : Element) : Blanks :=
  match e.label with
  | none => .none
  | some (_, _, gap) => gap

/-- What the reader of elements is to read. -/
def body (e : Element) : List UInt8 := e.gap.bytes ++ e.word.bytes

def bytes (e : Element) : List UInt8 := e.before.bytes ++ (e.tag ++ (e.body ++ e.after.bytes))

/-- The list of these elements with its closing parenthesis. -/
def list (gap : Blanks) (es : List Element) : List UInt8 :=
  gap.bytes ++ ([Byte.comma].intercalate (es.map bytes) ++ [Byte.closeParen])

/-- What stands in the list of `before`, `e` and others in front of what is to be read of `e`. -/
def upTo (gap : Blanks) (before : List Element) (e : Element) : List UInt8 :=
  gap.bytes ++ (before.flatMap (fun e => e.bytes ++ [Byte.comma]) ++ (e.before.bytes ++ e.tag))

/-! ## The list from one element on -/

/-- What separates element `index` from the blanks before it. -/
def comma : (index : Nat) → List UInt8
  | 0 => []
  | _ + 1 => [Byte.comma]

/-- From the blanks `gap` on to what is to be read of element number `index`. -/
def opening (index : Nat) (gap : Blanks) (e : Element) : List UInt8 :=
  gap.bytes ++ (comma index ++ (e.before.bytes ++ e.tag))

/-- From the blanks `gap` on, if the next element is number `index`. -/
def onward : (index : Nat) → (gap : Blanks) → List Element → List UInt8
  | _, gap, [] => gap.bytes ++ [Byte.closeParen]
  | index, gap, e :: es => opening index gap e ++ (e.body ++ onward (index + 1) e.after es)

theorem onward_succ (index : Nat) (gap : Blanks) (es : List Element) :
    onward (index + 1) gap es
      = gap.bytes ++ (es.flatMap (fun e => Byte.comma :: e.bytes) ++ [Byte.closeParen]) := by
  induction es generalizing index gap with
  | nil => rfl
  | cons e es ih => simp [onward, opening, comma, ih, bytes]

theorem body_pos (e : Element) : 0 < e.body.length := by
  have hword := List.length_pos_iff.mpr e.word.nonempty
  rw [body, List.length_append]
  omega

theorem length_le_onward (index : Nat) (gap : Blanks) (es : List Element) :
    es.length ≤ (onward index gap es).length := by
  induction es generalizing index gap with
  | nil => exact Nat.zero_le _
  | cons e es ih =>
    have hrest := ih (index + 1) e.after
    have hbody := e.body_pos
    simp only [onward, List.length_append, List.length_cons]
    omega

theorem intercalate_cons (b : UInt8) (xs : List UInt8) (xss : List (List UInt8)) :
    [b].intercalate (xs :: xss) = xs ++ xss.flatMap fun ys => b :: ys := by
  induction xss generalizing xs with
  | nil => simp [List.intercalate]
  | cons ys xss ih => simp [List.intercalate_cons_cons, ih]

theorem onward_zero (gap : Blanks) (es : List Element) : onward 0 gap es = list gap es := by
  cases es with
  | nil => rfl
  | cons e es =>
    simp only [onward, onward_succ, opening, comma, list, List.map_cons, intercalate_cons, bytes,
      List.flatMap_map, List.append_assoc, List.nil_append]

theorem intercalate_append (b : UInt8) (xss : List (List UInt8)) (ys : List UInt8)
    (yss : List (List UInt8)) :
    [b].intercalate (xss ++ ys :: yss)
      = xss.flatMap (fun xs => xs ++ [b]) ++ [b].intercalate (ys :: yss) := by
  induction xss with
  | nil => rfl
  | cons xs xss ih =>
    have hstep : [b].intercalate (xs :: (xss ++ ys :: yss))
        = xs ++ [b] ++ [b].intercalate (xss ++ ys :: yss) := by
      cases xss <;> exact List.intercalate_cons_cons
    rw [List.cons_append, hstep, ih, List.flatMap_cons]
    simp only [List.append_assoc]

theorem list_upTo (gap : Blanks) (before after : List Element) (e : Element) :
    list gap (before ++ e :: after)
      = upTo gap before e ++ (e.body ++ onward (before.length + 1) e.after after) := by
  simp only [list, upTo, onward_succ, List.map_append, List.map_cons, intercalate_append,
    intercalate_cons, List.flatMap_map, bytes, List.append_assoc]

/-- Behind the blanks an element begins with a word: its label, or the word itself. -/
theorem begins (e : Element) (rest : List UInt8) :
    ∃ (w : Word) (more : List UInt8), e.tag ++ (e.body ++ rest) = w.bytes ++ more := by
  obtain ⟨before, label, word, after⟩ := e
  cases label with
  | none => exact ⟨word, rest, rfl⟩
  | some label => exact ⟨label.1, _, List.append_assoc ..⟩

end Element

namespace Scan

variable {β : Type}

/-! ## One element -/

/-- Blanks, and then a comma or the closing parenthesis. -/
def Delimited (rest : List UInt8) : Prop :=
  ∃ (gap : Blanks) (b : UInt8) (more : List UInt8),
    rest = gap.bytes ++ b :: more ∧ (b = Byte.comma ∨ b = Byte.closeParen)

theorem Delimited.ended {rest : List UInt8} (h : Delimited rest) : Ended rest := by
  obtain ⟨gap, b, more, rfl, rfl | rfl⟩ := h
  · exact .blanks (.cons rfl)
  · exact .blanks (.cons rfl)

theorem delimited_onward (index : Nat) (gap : Blanks) (es : List Element) (rest : List UInt8) :
    Delimited (Element.onward (index + 1) gap es ++ rest) := by
  cases es with
  | nil => exact ⟨gap, Byte.closeParen, rest, by simp [Element.onward], .inr rfl⟩
  | cons e es =>
    exact ⟨gap, Byte.comma, _, by simp [Element.onward, Element.opening, Element.comma]; rfl, .inl rfl⟩

/-- Behind a word and blanks the next byte decides whether the word was a label. -/
theorem label_of_next (w : Word) (gap : Blanks) {b : UInt8} (more : List UInt8) (offset : Nat)
    (hspace : Byte.isSpace b = false) (hspecial : Byte.isSpecial b = true) :
    label ⟨w.bytes ++ (gap.bytes ++ b :: more), offset⟩ =
      if b = Byte.colon then .ok w.text ⟨more, offset + (w.bytes.length + (gap.bytes.length + 1))⟩
      else .ok w.text ⟨w.bytes ++ (gap.bytes ++ b :: more), offset⟩ := by
  have hskip : Cursor.skip ⟨gap.bytes ++ b :: more, offset + w.bytes.length⟩
      (fun b => Byte.isSpace b && (true || b != Byte.lineFeed))
        = ⟨b :: more, offset + w.bytes.length + gap.bytes.length⟩ := by
    simp only [Bool.true_or, Bool.and_true]
    refine Cursor.skip_prefix gap.blank ?_
    rintro b' ⟨⟩
    exact hspace
  rw [label_of_word (accepts_nonemptyWord w (.blanks (.cons hspecial)) offset), hskip]
  simp [Cursor.peek, Cursor.advance, Nat.add_assoc]

theorem accepts_label (e : Element) {rest : List UInt8} (hrest : Delimited rest) :
    Accepts label e.tag (e.body ++ rest) e.name := by
  obtain ⟨before, tag, word, after⟩ := e
  intro offset
  cases tag with
  | none =>
    obtain ⟨gap, b, more, rfl, hb⟩ := hrest
    have hnext := label_of_next word gap more offset (b := b)
    rcases hb with rfl | rfl
    · exact hnext rfl rfl
    · exact hnext rfl rfl
  | some tag =>
    obtain ⟨name, gap, gap'⟩ := tag
    have hnext := label_of_next name gap (gap'.bytes ++ (word.bytes ++ rest)) offset
      (b := Byte.colon) rfl rfl
    simp only [Element.tag, Element.body, Element.gap, Element.name, List.append_assoc,
      List.singleton_append, List.length_append, List.length_singleton]
    exact hnext.trans (if_pos rfl)

/-- What is done in front of an element: its name, or nothing if the list ends instead. -/
def opening (index : Nat) : Scan (Option String) := do
  skipToContent
  if ← lookingAt Byte.closeParen then
    advance
    return none
  else
    separator index
    return some (← label)

theorem argumentsWithin_succ (read : Nat → Scan β) (index bound : Nat) :
    argumentsWithin read index (bound + 1) = do
      match ← opening index with
      | none => return []
      | some name =>
        let value ← read index
        let others ← argumentsWithin read (index + 1) bound
        return (name, value) :: others := by
  rw [argumentsWithin, opening, bind_assoc]
  congr 1
  funext _
  rw [bind_assoc]
  congr 1
  funext closes
  cases closes <;> simp

theorem accepts_opening_end (index : Nat) (gap : Blanks) (rest : List UInt8) :
    Accepts (opening index) (gap.bytes ++ [Byte.closeParen]) rest none := by
  refine .bind (accepts_skipToContent gap (.cons rfl)) (.look (accepts_lookingAt _ _) ?_)
  exact .last (accepts_advance _ _) (.pure _ _)

theorem accepts_separator (index : Nat) (gap : Blanks) {rest : List UInt8} (h : Content rest) :
    Accepts (separator (index + 1)) (Byte.comma :: gap.bytes) rest () :=
  (accepts_expect Byte.comma _).bind (accepts_skipToContent gap h)

theorem accepts_opening (index : Nat) (gap : Blanks) (e : Element) {rest : List UInt8}
    (hrest : Delimited rest) :
    Accepts (opening index) (e.opening index gap) (e.body ++ rest) (some e.name) := by
  obtain ⟨w, more, hbegins⟩ := e.begins rest
  have hcontent : Content (e.tag ++ (e.body ++ rest)) := hbegins ▸ .word w more
  have hnamed : Accepts (label >>= fun name => pure (some name)) e.tag (e.body ++ rest)
      (some e.name) := .last (accepts_label e hrest) (.pure _ _)
  cases index with
  | zero =>
    have hopen : (e.tag ++ (e.body ++ rest)).head? ≠ some Byte.closeParen :=
      hbegins ▸ w.head_ne more rfl
    rw [Element.opening, Element.comma, List.nil_append, ← List.append_assoc]
    refine .bind (accepts_skipToContent (gap.append e.before) hcontent) ?_
    exact .look (accepts_lookingAt_ne hopen) hnamed
  | succ index =>
    rw [Element.opening, Element.comma, List.singleton_append, ← List.cons_append]
    refine .bind (accepts_skipToContent gap (.cons rfl)) (.look (accepts_lookingAt_ne ?_) ?_)
    · rintro ⟨⟩
    · exact (accepts_separator index e.before hcontent).bind hnamed

/-- In front of an element nothing depends on what reads it. -/
theorem argumentsWithin_element (read : Nat → Scan β) (index bound : Nat) (gap : Blanks) (e : Element)
    (es : List Element) (rest : List UInt8) (offset : Nat) :
    argumentsWithin read index (bound + 1) ⟨Element.onward index gap (e :: es) ++ rest, offset⟩
      = (read index >>= fun value => do
          let others ← argumentsWithin read (index + 1) bound
          return (e.name, value) :: others)
        ⟨e.body ++ (Element.onward (index + 1) e.after es ++ rest),
          offset + (e.opening index gap).length⟩ := by
  have hopening := accepts_opening index gap e (delimited_onward index e.after es rest)
  rw [argumentsWithin_succ, Element.onward, List.append_assoc, List.append_assoc,
    bind_of_ok (hopening offset)]

/-! ## The elements in order -/

section Order

variable {read : Nat → Scan β} {index stop : Nat}

/-- Each of the elements, by its number, is read as the value of its place if it ends before `stop`. -/
inductive ReadsUntil (stop : Nat) (read : Nat → Scan β) : (index : Nat) → List Element → List β → Prop
  | nil (index : Nat) : ReadsUntil stop read index [] []
  | cons {index : Nat} {e : Element} {es : List Element} {value : β} {values : List β}
    (head : ∀ offset rest, offset + e.body.length ≤ stop → Delimited rest →
      read index ⟨e.body ++ rest, offset⟩ = .ok value ⟨rest, offset + e.body.length⟩)
    (others : ReadsUntil stop read (index + 1) es values) :
    ReadsUntil stop read index (e :: es) (value :: values)

theorem ReadsUntil.mono {stop' : Nat} {es : List Element} {values : List β}
    (h : ReadsUntil stop read index es values) (hle : stop' ≤ stop) :
    ReadsUntil stop' read index es values := by
  induction h with
  | nil index => exact .nil index
  | cons head _ ih =>
    exact .cons (fun offset rest hstop => head offset rest (Nat.le_trans hstop hle)) ih

/-- The list is read over the elements `before`, and goes on behind them. -/
theorem argumentsWithin_past (read : Nat → Scan β) (index : Nat) (gap : Blanks)
    (before es : List Element) :
    ∃ (passed : List UInt8) (gap' : Blanks),
      Element.onward index gap (before ++ es)
        = passed ++ Element.onward (index + before.length) gap' es ∧
      ∀ (values : List β) (bound offset : Nat) (rest : List UInt8),
        ReadsUntil (offset + passed.length) read index before values →
        argumentsWithin read index (bound + before.length)
            ⟨Element.onward index gap (before ++ es) ++ rest, offset⟩
          = (argumentsWithin read (index + before.length) bound >>= fun others =>
              return (before.map Element.name).zip values ++ others)
            ⟨Element.onward (index + before.length) gap' es ++ rest, offset + passed.length⟩ := by
  induction before generalizing index gap with
  | nil =>
    refine ⟨[], gap, rfl, fun values bound offset rest _ => ?_⟩
    simp
  | cons e before ih =>
    obtain ⟨passed, gap', hlist, hpast⟩ := ih (index + 1) e.after
    have hindex : index + (before.length + 1) = index + 1 + before.length := by omega
    refine ⟨e.opening index gap ++ (e.body ++ passed), gap', ?_, ?_⟩
    · rw [List.cons_append, Element.onward, hlist, List.length_cons, hindex]
      simp only [List.append_assoc]
    intro values bound offset rest hread
    have hstop : offset + (e.opening index gap ++ (e.body ++ passed)).length
        = offset + (e.opening index gap).length + e.body.length + passed.length := by
      simp only [List.length_append]
      omega
    rw [hstop] at hread ⊢
    cases hread with
    | cons hvalue hothers =>
      rw [List.length_cons, ← Nat.add_assoc, List.cons_append, argumentsWithin_element,
        bind_of_ok (hvalue _ _ (by omega) (delimited_onward index e.after (before ++ es) rest))]
      refine (bind_of_eq (hpast _ bound _ rest hothers)).trans ?_
      rw [hindex, bind_assoc]
      simp only [pure_bind, List.map_cons, List.zip_cons_cons, List.cons_append]

/-- A list ends where its elements do. -/
theorem argumentsWithin_end (read : Nat → Scan β) (index : Nat) (gap : Blanks) (rest : List UInt8)
    (bound : Nat) :
    Accepts (argumentsWithin read index (bound + 1)) (Element.onward index gap []) rest [] := by
  rw [argumentsWithin_succ]
  exact .last (accepts_opening_end index gap rest) (.pure _ _)

/-- The bound on the steps leaves room for the elements and the end of the list. -/
theorem arguments_bound (read : Nat → Scan β) (gap : Blanks) (es : List Element) (rest : List UInt8)
    (offset : Nat) {n : Nat} (hn : n ≤ es.length) :
    ∃ bound, arguments read ⟨Element.list gap es ++ rest, offset⟩
      = argumentsWithin read 0 (bound + 1 + n) ⟨Element.onward 0 gap es ++ rest, offset⟩ := by
  have hlength := Element.length_le_onward 0 gap es
  refine ⟨(Element.onward 0 gap es ++ rest).length - n, ?_⟩
  have hbound : (Element.onward 0 gap es ++ rest).length - n + 1 + n
      = (Element.onward 0 gap es ++ rest).length + 1 := by
    rw [List.length_append]
    omega
  rw [arguments, bounded_apply, ← Element.onward_zero, hbound]

/-- A list of elements each of which is read is read as a whole. -/
theorem accepts_arguments {gap : Blanks} {es : List Element} {values : List β} {rest : List UInt8}
    (h : ∀ stop, ReadsUntil stop read 0 es values) :
    Accepts (arguments read) (Element.list gap es) rest ((es.map Element.name).zip values) := by
  intro offset
  obtain ⟨passed, gap', hlist, hpast⟩ := argumentsWithin_past read 0 gap es []
  obtain ⟨bound, hbound⟩ := arguments_bound read gap es rest offset (Nat.le_refl _)
  have hend := argumentsWithin_end read (0 + es.length) gap' rest bound
  have hpassed := hpast values (bound + 1) offset rest (h _)
  rw [List.append_nil, Element.onward_zero] at hlist
  rw [List.append_nil] at hpassed
  rw [hbound, hpassed, bind_of_ok (hend _), hlist, List.append_nil, List.length_append, Nat.add_assoc]
  rfl

/-- A list is refused where the reader of elements refuses one, if the elements before it are read. -/
theorem arguments_refused {gap : Blanks} {before after : List Element} {e : Element}
    {values : List β} {fault : Fault} {offset : Nat} (rest : List UInt8)
    (hbefore : ReadsUntil (offset + (Element.upTo gap before e).length) read 0 before values)
    (hrefused : ∀ c, read before.length c = .error fault c) :
    ∃ c : Cursor, c.offset = offset + (Element.upTo gap before e).length ∧
      arguments read ⟨Element.list gap (before ++ e :: after) ++ rest, offset⟩ = .error fault c := by
  obtain ⟨passed, gap', hlist, hpast⟩ := argumentsWithin_past read 0 gap before (e :: after)
  obtain ⟨bound, hbound⟩ := arguments_bound read gap (before ++ e :: after) rest offset
    (n := before.length) (by simp)
  have hlength : (Element.upTo gap before e).length
      = passed.length + (e.opening before.length gap').length := by
    have hboth := congrArg List.length hlist
    rw [Element.onward_zero, Element.list_upTo, Nat.zero_add, Element.onward] at hboth
    simp only [List.length_append] at hboth ⊢
    omega
  have hpassed := hpast values (bound + 1) offset rest (hbefore.mono (by omega))
  rw [Nat.zero_add] at hpassed
  have hlast := argumentsWithin_element read before.length bound gap' e after rest (offset + passed.length)
  rw [bind_of_error (hrefused _)] at hlast
  refine ⟨_, ?_, hbound.trans (hpassed.trans (bind_of_error hlast))⟩
  rw [hlength, Nat.add_assoc]

end Order

/-! ## Words by position -/

/-- Reads a word behind blanks. -/
def spacedWord : Scan String := do
  skipToContent
  nonemptyWord

/-- Reads a word as an argument of type `ty`. -/
def typedWord {α : Type} (f : Ty → String → α) (ty : Ty) : Scan α := do
  return f ty (← nonemptyWord)

theorem accepts_spacedWord (e : Element) {rest : List UInt8} (h : Delimited rest) :
    Accepts spacedWord e.body rest e.word.text :=
  .bind (accepts_skipToContent e.gap (.word e.word rest)) (accepts_nonemptyWord e.word h.ended)

theorem readsUntil_spacedWord (stop index : Nat) (es : List Element) :
    ReadsUntil stop (fun _ => spacedWord) index es (es.map fun e => e.word.text) := by
  induction es generalizing index with
  | nil => exact .nil _
  | cons e es ih => exact .cons (fun offset _ _ hrest => accepts_spacedWord e hrest offset) (ih _)

/-- The elements of a list whose elements have to be of the types `expected`. -/
def byPosition {α : Type} (expected : List Ty) (read : Ty → Scan α) (index : Nat) : Scan α :=
  match expected[index]? with
  | none => throw (.tooManyArguments expected.length)
  | some ty => do
    skipToContent
    read ty

section Positional

variable {α : Type} {f : Ty → String → α} {read : Ty → Scan α} {stop : Nat} {gap : Blanks}
  {es : List Element} {rest : List UInt8} {expected : List Ty}

theorem byPosition_some {index : Nat} {ty : Ty} (h : expected[index]? = some ty) :
    byPosition expected read index = (do skipToContent; read ty) := by
  rw [byPosition, h]

/-- Elements that are not too many are read as words of the types of their places, by any reader that
does so before `stop`. -/
theorem readsUntil_byPosition (before : List Ty) {types : List Ty}
    (hread : ∀ ty c, c.offset < stop → read ty c = typedWord f ty c) (hle : es.length ≤ types.length) :
    ReadsUntil stop (byPosition (before ++ types) read) before.length es
      (types.zipWith f (es.map fun e => e.word.text)) := by
  induction es generalizing before types with
  | nil =>
    rw [List.map_nil, List.zipWith_nil_right]
    exact .nil _
  | cons e es ih =>
    cases types with
    | nil => cases hle
    | cons ty types =>
      have hothers := ih (before ++ [ty]) (Nat.le_of_succ_le_succ hle)
      rw [List.length_append, List.append_assoc] at hothers
      refine .cons (fun offset rest hstop hrest => ?_) hothers
      have hword := List.length_pos_iff.mpr e.word.nonempty
      have htyped : Accepts (typedWord f ty) e.word.bytes rest (f ty e.word.text) :=
        .last (accepts_nonemptyWord e.word hrest.ended) (.pure _ _)
      rw [Element.body, List.length_append] at hstop
      have hty : (before ++ ty :: types)[before.length]? = some ty := by simp
      rw [byPosition_some hty, Element.body, List.append_assoc,
        bind_of_ok (accepts_skipToContent e.gap (.word e.word rest) offset), hread _ _ (by simp only; omega),
        htyped, List.length_append, Nat.add_assoc]

/-- The list is read, and then its elements are counted. -/
theorem positional_of_le (hle : es.length ≤ expected.length) (offset : Nat) :
    positional expected (typedWord f) ⟨Element.list gap es ++ rest, offset⟩ =
      if es.length < expected.length then
        .error (.tooFewArguments expected.length es.length)
          ⟨rest, offset + (Element.list gap es).length⟩
      else .ok (expected.zipWith f (es.map fun e => e.word.text))
        ⟨rest, offset + (Element.list gap es).length⟩ := by
  have hread : ∀ stop, ReadsUntil stop (byPosition expected (typedWord f)) 0 es
      (expected.zipWith f (es.map fun e => e.word.text)) :=
    fun stop => readsUntil_byPosition [] (fun _ _ _ => rfl) hle
  have hlength : (expected.zipWith f (es.map fun e => e.word.text)).length = es.length := by
    rw [List.length_zipWith, List.length_map, Nat.min_eq_right hle]
  have hcount : ((es.map Element.name).zip
      (expected.zipWith f (es.map fun e => e.word.text))).length = es.length := by
    rw [List.length_zip, hlength, List.length_map, Nat.min_self]
  refine (bind_of_ok (accepts_arguments hread offset)).trans ?_
  rw [hcount]
  split
  · rfl
  · rw [List.map_snd_zip (Nat.le_of_eq (by rw [hlength, List.length_map]))]
    rfl

/-- A list of words, with labels or without them and with any blanks around every token, is read as
the pairs of their labels and themselves, an unlabelled word being its own label. Read against types
it gives the words in the order of the types if there are as many, and is refused with the two
numbers if there are fewer. A surplus word refuses the list with nothing done by the reader of the
words at the place where it begins. -/
theorem arguments_printed (f : Ty → String → α) (expected : List Ty) (gap : Blanks)
    (es : List Element) (rest : List UInt8) (offset : Nat) :
    let c : Cursor := ⟨Element.list gap es ++ rest, offset⟩
    let stop : Cursor := ⟨rest, offset + (Element.list gap es).length⟩
    arguments (fun _ => spacedWord) c = .ok (es.map Element.pair) stop
    ∧ (es.length = expected.length →
        positional expected (typedWord f) c
          = .ok (expected.zipWith f (es.map fun e => e.word.text)) stop)
    ∧ (es.length < expected.length →
        positional expected (typedWord f) c
          = .error (.tooFewArguments expected.length es.length) stop)
    ∧ ∀ hsurplus : expected.length < es.length,
        let start := offset
          + (Element.upTo gap (es.take expected.length) es[expected.length]).length
        ∀ read : Ty → Scan α,
          (∀ ty c', c'.offset < start → read ty c' = typedWord f ty c') →
          ∃ c' : Cursor, c'.offset = start ∧
            positional expected read c = .error (.tooManyArguments expected.length) c' := by
  refine ⟨?_, fun hlength => ?_, fun hlt => ?_, fun hsurplus read hread => ?_⟩
  · have hpairs : es.map Element.pair = (es.map Element.name).zip (es.map fun e => e.word.text) := by
      rw [List.zip_map']
      rfl
    rw [hpairs]
    exact accepts_arguments (fun stop => readsUntil_spacedWord stop 0 es) offset
  · rw [positional_of_le (Nat.le_of_eq hlength), if_neg (by omega)]
  · rw [positional_of_le (Nat.le_of_lt hlt), if_pos hlt]
  · have hsplit : es = es.take expected.length
        ++ es[expected.length] :: es.drop (expected.length + 1) := by simp
    have hbefore : (es.take expected.length).length = expected.length := by
      rw [List.length_take, Nat.min_eq_left (Nat.le_of_lt hsurplus)]
    have hwords := readsUntil_byPosition [] hread (Nat.le_of_eq hbefore)
    have hnone : ∀ c, byPosition expected read (es.take expected.length).length c
        = .error (.tooManyArguments expected.length) c := by
      intro c
      rw [hbefore, byPosition, List.getElem?_eq_none (Nat.le_refl _)]
      rfl
    obtain ⟨c', hoffset, hrefused⟩ := arguments_refused rest hwords hnone
    rw [← hsplit] at hrefused
    exact ⟨c', hoffset, bind_of_error hrefused⟩

end Positional

/-- The elements of `x: 1, 2 , z : 3)`. -/
def labelledElements : List Element :=
  let word (b : UInt8) (h : Byte.isSpecial b = false) : Word := ⟨[b], by simp, by simpa using h⟩
  [⟨.none, some (word 0x78 (by decide), .none, .space), word 0x31 (by decide), .none⟩,
    ⟨.space, none, word 0x32 (by decide), .space⟩,
    ⟨.space, some (word 0x7A (by decide), .space, .space), word 0x33 (by decide), .none⟩]

theorem arguments_printed_labelled :
    let c : Cursor := ⟨"x: 1, 2 , z : 3) -> Int32".toList.map Char.toUInt8, 0⟩
    let stop : Cursor := ⟨" -> Int32".toList.map Char.toUInt8, 16⟩
    let int32 : Ty := .primitive .int32
    let read : Ty → Scan String := typedWord fun _ word => word
    arguments (fun _ => spacedWord) c = .ok [("x", "1"), ("2", "2"), ("z", "3")] stop
    ∧ positional [int32, int32, int32] read c = .ok ["1", "2", "3"] stop
    ∧ positional [int32, int32, int32, int32] read c = .error (.tooFewArguments 4 3) stop
    ∧ ∃ c' : Cursor, c'.offset = 13 ∧
        positional [int32, int32] read c = .error (.tooManyArguments 2) c' := by
  intro c stop int32 read
  let rest : List UInt8 := " -> Int32".toList.map Char.toUInt8
  have hlist : Element.list .none labelledElements ++ rest = c.rest := by decide +kernel
  have hstop : (Element.list .none labelledElements).length = 16 := by decide +kernel
  have hpairs : labelledElements.map Element.pair = [("x", "1"), ("2", "2"), ("z", "3")] := by
    decide +kernel
  have hwords : labelledElements.map (fun e => e.word.text) = ["1", "2", "3"] := by decide +kernel
  obtain ⟨hread, hthree, -, -⟩ := arguments_printed (fun _ word => word) [int32, int32, int32] .none
    labelledElements rest 0
  obtain ⟨-, -, hfew, -⟩ := arguments_printed (fun _ word => word) [int32, int32, int32, int32] .none
    labelledElements rest 0
  obtain ⟨-, -, -, hmany⟩ := arguments_printed (fun _ word => word) [int32, int32] .none
    labelledElements rest 0
  rw [hlist, hstop, hpairs] at hread
  have hthree := hthree rfl
  have hfew := hfew (by decide)
  have hmany := hmany (by decide) _ fun _ _ _ => rfl
  rw [hlist, hstop, hwords] at hthree
  rw [hlist, hstop] at hfew
  rw [hlist] at hmany
  exact ⟨hread, hthree, hfew, hmany⟩

end Scan

end Straightline
