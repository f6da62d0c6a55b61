import Straightline.Proofs.Reading.Encoding
import Straightline.Syntax.Arguments

/-!
# Reading what was printed

`Scan.Accepts r bytes rest a` says that over `bytes` followed by `rest` the reader `r` gives `a` and
stops right after the bytes; it composes along `>>=`. Names are printed as a `Word` and anything
between two tokens as `Blanks`, and each is read back if what follows does not run into it
(`Scan.accepts_nonemptyWord`, `Scan.accepts_skipToContent`).
-/

set_option autoImplicit false

namespace Straightline

/-! ## Printed tokens -/

/-- Any run of blanks, line ends among them. -/
structure Blanks where
  bytes : List UInt8
  blank : ∀ b ∈ bytes, Byte.isSpace b = true

/-- Bytes that are read as one word. -/
structure Word where
  bytes : List UInt8
  nonempty : bytes ≠ []
  plain : ∀ b ∈ bytes, Byte.isSpecial b = false

namespace Blanks

def none : Blanks := ⟨[], by simp⟩

def space : Blanks := ⟨[Byte.space], by decide +kernel⟩

/-- The end of a line, as two bytes. -/
def line : Blanks := ⟨[Byte.carriageReturn, Byte.lineFeed], by decide +kernel⟩

def append (g g' : Blanks) : Blanks where
  bytes := g.bytes ++ g'.bytes
  blank b hb := (List.mem_append.mp hb).elim (g.blank b) (g'.blank b)

end Blanks

namespace Word

/-- The name that the word spells. -/
def text (w : Word) : String := Text.ofBytes w.bytes

/-- The word of a name, in UTF-8. -/
def ofName (name : String) (h : IsWord name) : Word := ⟨Text.toBytes name, h.toBytes_ne_nil, h.plain⟩

@[simp] theorem text_ofName (name : String) (h : IsWord name) : (ofName name h).text = name :=
  Text.ofBytes_toBytes name

theorem text_ne_empty (w : Word) : w.text ≠ "" := by
  intro he
  have hlist := congrArg String.toList he
  rw [text, Text.ofBytes, String.toList_ofList] at hlist
  exact Text.decode_ne_nil (.inr w.nonempty) hlist

end Word

/-! ## What follows a token -/

/-- Nothing is left, or a byte that ends a word. -/
def Ended (rest : List UInt8) : Prop := ∀ b, rest.head? = some b → Byte.isSpecial b = true

/-- Something is left, and it begins with a byte that is no blank. -/
def Content (rest : List UInt8) : Prop := ∃ b, rest.head? = some b ∧ Byte.isSpace b = false

theorem Byte.isSpecial_of_isSpace {b : UInt8} (h : isSpace b = true) : isSpecial b = true := by
  rw [isSpecial, h, Bool.true_or]

theorem Ended.cons {b : UInt8} {rest : List UInt8} (h : Byte.isSpecial b = true) :
    Ended (b :: rest) := by
  rintro b' ⟨⟩
  exact h

theorem Ended.blanks {g : Blanks} {rest : List UInt8} (h : Ended rest) : Ended (g.bytes ++ rest) := by
  obtain ⟨bytes, hblank⟩ := g
  cases bytes with
  | nil => exact h
  | cons b bytes => exact .cons (Byte.isSpecial_of_isSpace (hblank b List.mem_cons_self))

theorem Content.cons {b : UInt8} {rest : List UInt8} (h : Byte.isSpace b = false) :
    Content (b :: rest) :=
  ⟨b, rfl, h⟩

/-- A word begins with a byte of its own. -/
theorem Word.head (w : Word) (rest : List UInt8) :
    ∃ b, (w.bytes ++ rest).head? = some b ∧ Byte.isSpecial b = false := by
  obtain ⟨bytes, hne, hplain⟩ := w
  cases bytes with
  | nil => exact absurd rfl hne
  | cons b bytes => exact ⟨b, rfl, hplain b List.mem_cons_self⟩

theorem Content.word (w : Word) (rest : List UInt8) : Content (w.bytes ++ rest) := by
  obtain ⟨b, hb, hplain⟩ := w.head rest
  refine ⟨b, hb, Bool.eq_false_iff.mpr fun hspace => ?_⟩
  rw [Byte.isSpecial_of_isSpace hspace] at hplain
  cases hplain

/-- Neither blanks nor what follows them begin with the byte. -/
theorem Blanks.head_ne (g : Blanks) {rest : List UInt8} {b : UInt8} (h : Byte.isSpace b = false)
    (hrest : rest.head? ≠ some b) : (g.bytes ++ rest).head? ≠ some b := by
  obtain ⟨bytes, hblank⟩ := g
  cases bytes with
  | nil => exact hrest
  | cons b' bytes =>
    rintro ⟨⟩
    rw [hblank b List.mem_cons_self] at h
    cases h

/-- No word begins with a byte that ends words. -/
theorem Word.head_ne (w : Word) (rest : List UInt8) {b : UInt8} (h : Byte.isSpecial b = true) :
    (w.bytes ++ rest).head? ≠ some b := by
  obtain ⟨b', hb', hplain⟩ := w.head rest
  intro he
  cases hb'.symm.trans he
  rw [h] at hplain
  cases hplain

namespace Cursor

variable {keep : UInt8 → Bool} {bytes rest : List UInt8} {offset : Nat}

/-- A run ends where its first byte is not kept. -/
theorem run_prefix (h : ∀ b ∈ bytes, keep b = true) (hend : ∀ b, rest.head? = some b → keep b = false) :
    run ⟨bytes ++ rest, offset⟩ keep = bytes := by
  rw [run, List.takeWhile_append_of_pos h]
  cases rest with
  | nil => simp
  | cons b rest => simp [hend b rfl]

theorem skip_prefix (h : ∀ b ∈ bytes, keep b = true)
    (hend : ∀ b, rest.head? = some b → keep b = false) :
    skip ⟨bytes ++ rest, offset⟩ keep = ⟨rest, offset + bytes.length⟩ := by
  rw [skip, run_prefix h hend, List.dropWhile_append_of_pos h]
  cases rest with
  | nil => rfl
  | cons b rest => simp [hend b rfl]

end Cursor

namespace Scan

variable {α β : Type}

/-! ## Readers over printed bytes -/

/-- Over `bytes`, with `rest` behind them, the reader gives `a` and stops in front of `rest`. -/
def Accepts (r : Scan α) (bytes rest : List UInt8) (a : α) : Prop :=
  ∀ offset, r ⟨bytes ++ rest, offset⟩ = .ok a ⟨rest, offset + bytes.length⟩

namespace Accepts

variable {r : Scan α} {k : α → Scan β} {bytes bytes' rest : List UInt8} {a : α} {b : β}

theorem pure (a : α) (rest : List UInt8) : Accepts (pure a : Scan α) [] rest a := fun _ => rfl

theorem bind (h : Accepts r bytes (bytes' ++ rest) a) (h' : Accepts (k a) bytes' rest b) :
    Accepts (r >>= k) (bytes ++ bytes') rest b := by
  intro offset
  rw [List.append_assoc, bind_of_ok (h offset), h', List.length_append, Nat.add_assoc]

/-- A look at what follows takes nothing. -/
theorem look (h : Accepts r [] (bytes ++ rest) a) (h' : Accepts (k a) bytes rest b) :
    Accepts (r >>= k) bytes rest b :=
  bind h h'

/-- A reader that ends with what another one gave. -/
theorem last (h : Accepts r bytes rest a) (h' : Accepts (k a) [] rest b) :
    Accepts (r >>= k) bytes rest b := by
  have hboth : Accepts (r >>= k) (bytes ++ []) rest b := bind h h'
  rwa [List.append_nil] at hboth

end Accepts

variable {rest : List UInt8}

theorem accepts_skipSpace (g : Blanks) (h : ∀ b, rest.head? = some b → Byte.isSpace b = false) :
    Accepts (skipSpace true) g.bytes rest () := by
  intro offset
  simp only [skipSpace, Bool.true_or, Bool.and_true]
  rw [Cursor.skip_prefix g.blank h]

theorem accepts_skipToContent (g : Blanks) (h : Content rest) :
    Accepts skipToContent g.bytes rest () := by
  obtain ⟨b, hb, hspace⟩ := h
  refine .last (accepts_skipSpace g fun b' hb' => ?_) fun offset => ?_
  · cases hb.symm.trans hb'
    exact hspace
  · cases rest with
    | nil => cases hb
    | cons b rest => rfl

theorem accepts_word (w : Word) (h : Ended rest) : Accepts word w.bytes rest w.text := by
  intro offset
  have hplain : ∀ b ∈ w.bytes, (!Byte.isSpecial b) = true := fun b hb => by rw [w.plain b hb]; rfl
  have hend : ∀ b, rest.head? = some b → (!Byte.isSpecial b) = false :=
    fun b hb => by rw [h b hb]; rfl
  simp only [word, Cursor.run_prefix hplain hend, Cursor.skip_prefix hplain hend]
  rfl

theorem accepts_nonemptyWord (w : Word) (h : Ended rest) :
    Accepts nonemptyWord w.bytes rest w.text := by
  refine .last (accepts_word w h) fun offset => ?_
  rw [if_neg (by simp [w.text_ne_empty])]
  rfl

theorem accepts_lookingAt (b : UInt8) (rest : List UInt8) : Accepts (lookingAt b) [] (b :: rest) true := by
  intro offset
  simp [lookingAt, Cursor.peek]

theorem accepts_lookingAt_ne {b : UInt8} (h : rest.head? ≠ some b) :
    Accepts (lookingAt b) [] rest false := by
  intro offset
  simp [lookingAt, Cursor.peek, h]

theorem accepts_advance (b : UInt8) (rest : List UInt8) : Accepts advance [b] rest () := fun _ => rfl

theorem accepts_expect (b : UInt8) (rest : List UInt8) : Accepts (expect b) [b] rest () := by
  refine .look (a := some b) (fun _ => rfl) ?_
  simp only [beq_self_eq_true, if_true]
  exact accepts_advance b rest

theorem accepts_arrow (rest : List UInt8) : Accepts arrow [Byte.minus, Byte.greater] rest () :=
  (accepts_expect Byte.minus _).bind (accepts_expect Byte.greater rest)

end Scan

end Straightline
