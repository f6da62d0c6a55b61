import Straightline.Source.Fault
import Straightline.Source.Text

/-!
# Reading bytes

A cursor is the bytes still to be read and the offset they start at. Keeping the remaining bytes
rather than the whole source makes two facts plain: what a reader does depends on nothing before
its offset, and every reader that moves makes `rest` shorter.

A reader is a `Scan`. It keeps its cursor when it fails as well, because the offset at which
reading stopped is part of what a refused source is told.
-/

set_option autoImplicit false

namespace Straightline

namespace Byte

def lineFeed : UInt8 := 0x0A
def carriageReturn : UInt8 := 0x0D
def space : UInt8 := 0x20
def openParen : UInt8 := 0x28
def closeParen : UInt8 := 0x29
def plus : UInt8 := 0x2B
def comma : UInt8 := 0x2C
def minus : UInt8 := 0x2D
def dot : UInt8 := 0x2E
def colon : UInt8 := 0x3A
def equals : UInt8 := 0x3D
def greater : UInt8 := 0x3E
def openBrace : UInt8 := 0x7B
def closeBrace : UInt8 := 0x7D

/-- The blanks of the language. A tab is not one: it may stand in a word. -/
def isSpace (b : UInt8) : Bool := b == space || b == carriageReturn || b == lineFeed

/-- The bytes besides blanks that end a word: the double quote, the ampersand, round brackets,
`*`, `+`, `,`, `-`, `.`, the slash, `:`, `<`, `=`, `>`, braces and the bar. -/
def delimiters : List UInt8 :=
  [0x22, 0x26, 0x28, 0x29, 0x2A, 0x2B, 0x2C, 0x2D, 0x2E, 0x2F, 0x3A, 0x3C, 0x3D, 0x3E, 0x7B, 0x7C,
    0x7D]

/-- Whether `b` ends a word. -/
def isSpecial (b : UInt8) : Bool := isSpace b || delimiters.contains b

/-- The character whose code point is the byte, for naming a single byte in a message. -/
def toChar (b : UInt8) : Char := Char.ofNat b.toNat

end Byte

/-- The bytes still to be read, and the offset of the first of them. -/
structure Cursor where
  rest : List UInt8
  offset : Nat
deriving DecidableEq, Repr

namespace Cursor

/-- The start of a source. -/
def start (bytes : List UInt8) : Cursor := ⟨bytes, 0⟩

/-- The place `offset` bytes into a source, or its end if it is shorter. -/
def seek (bytes : List UInt8) (offset : Nat) : Cursor :=
  ⟨bytes.drop offset, min offset bytes.length⟩

def peek (c : Cursor) : Option UInt8 := c.rest.head?

/-- One byte on, unless at the end. -/
def advance (c : Cursor) : Cursor :=
  match c.rest with
  | [] => c
  | _ :: rest => ⟨rest, c.offset + 1⟩

/-- The longest run of bytes from here that satisfy `keep`. -/
def run (c : Cursor) (keep : UInt8 → Bool) : List UInt8 := c.rest.takeWhile keep

/-- The place after that run. -/
def skip (c : Cursor) (keep : UInt8 → Bool) : Cursor :=
  ⟨c.rest.dropWhile keep, c.offset + (c.run keep).length⟩

end Cursor

/-- A reader: a value or a fault, and the cursor it leaves in either case. -/
abbrev Scan := EStateM Fault Cursor

namespace Scan

def offset : Scan Nat := fun c => .ok c.offset c

def peek : Scan (Option UInt8) := fun c => .ok c.peek c

/-- Whether the next byte is `b`. -/
def lookingAt (b : UInt8) : Scan Bool := fun c => .ok (c.peek == some b) c

def isAtEnd : Scan Bool := fun c => .ok c.rest.isEmpty c

def advance : Scan Unit := fun c => .ok () c.advance

/-- Skips blanks, and line feeds too if `lines` is set. -/
def skipSpace (lines : Bool) : Scan Unit := fun c =>
  .ok () (c.skip fun b => Byte.isSpace b && (lines || b != Byte.lineFeed))

/-- Requires that something is left to read. -/
def assertMore : Scan Unit := fun c =>
  if c.rest.isEmpty then .error .unexpectedEnd c else .ok () c

/-- Skips all blanks and requires that something follows. -/
def skipToContent : Scan Unit := do
  skipSpace true
  assertMore

/-- Whether anything but blanks is left on this line. Leaves the cursor on it. -/
def moreOnLine : Scan Bool := do
  skipSpace false
  match ← peek with
  | some b => return b != Byte.lineFeed
  | none => return false

/-- The longest run of bytes that end no word, as text. It may be empty. -/
def word : Scan String := fun c =>
  let keep := fun b => !Byte.isSpecial b
  .ok (Text.ofBytes (c.run keep)) (c.skip keep)

def nonemptyWord : Scan String := do
  let w ← word
  if w.isEmpty then throw .unexpectedEnd else return w

/-- Fails with `fault` unless `holds`. Looks at no bytes. -/
def require (holds : Bool) (fault : Fault) : Scan Unit :=
  if holds then pure () else throw fault

/-- A check that looks at no bytes. -/
def check {α : Type} (outcome : Except Fault α) : Scan α :=
  match outcome with
  | .ok value => pure value
  | .error fault => throw fault

/-- The fault of finding another byte where `expected` has to stand. -/
def missing (expected : UInt8) : Fault :=
  if expected == Byte.equals then .missingAssignment
  else if expected == Byte.comma then .missingComma
  else if expected == Byte.minus || expected == Byte.greater then .missingArrow
  else .missingCharacter (Byte.toChar expected)

/-- Reads exactly `expected`. -/
def expect (expected : UInt8) : Scan Unit := do
  match ← peek with
  | none => throw .unexpectedEnd
  | some b => if b == expected then advance else throw (missing expected)

/-- Reads `->`. -/
def arrow : Scan Unit := do
  expect Byte.minus
  expect Byte.greater

/-- How many bytes are left. -/
def remaining : Scan Nat := fun c => .ok c.rest.length c

/-- Runs a pass that needs a bound on its steps with one that is never reached from here, since
each step takes at least one byte. The pass may do more than read. -/
def bounded {m : Type → Type} [Monad m] [MonadLiftT Scan m] {α : Type} (pass : Nat → m α) : m α := do
  pass ((← remaining) + 1)

end Scan

end Straightline
