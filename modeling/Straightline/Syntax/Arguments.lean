import Straightline.Syntax.Head
import Straightline.Ty.Basic

/-!
# Argument lists

`name: value, value, ...)` with the opening parenthesis already read. An element may carry a label.
To find out, its first word is read; without a colon after it the cursor goes back, so the element
is read from its first byte and its first word serves as the label. Commas stand between elements,
and blanks and line feeds anywhere.

What is done with an element is told how many came before, since arguments are matched by position. It
may be more than reading: in a body an argument is compiled before the next one is looked at.
-/

set_option autoImplicit false

namespace Straightline

namespace Scan

variable {m : Type → Type} [Monad m] [MonadLiftT Scan m] {α : Type}

/-- Reads what separates element `index` from the one before: a comma, unless it is the first. -/
def separator : (index : Nat) → Scan Unit
  | 0 => pure ()
  | _ + 1 => do
    expect Byte.comma
    skipToContent

/-- Reads the label of an element with its colon. Without a colon the cursor stays in front of the
word, which is the element's label all the same. -/
def label : Scan String := do
  let before ← get
  let name ← nonemptyWord
  skipSpace true
  if ← lookingAt Byte.colon then
    advance
    return name
  else
    set before
    return name

/-- Reads the elements from number `index` on, at most `bound` of them. -/
def argumentsWithin (read : Nat → m α) (index : Nat) : Nat → m (List (String × α))
  | 0 => (throw .unexpectedEnd : Scan _)
  | bound + 1 => do
    skipToContent
    if ← lookingAt Byte.closeParen then
      advance
      return []
    else
      separator index
      let name ← label
      let value ← read index
      let others ← argumentsWithin read (index + 1) bound
      return (name, value) :: others

/-- Reads an argument list up to and including its `)`, each element by `read`. -/
def arguments (read : Nat → m α) : m (List (String × α)) :=
  bounded (argumentsWithin read 0)

/-- Reads an argument list whose elements have to be of the types `expected`, in order. An element
too many is refused before it is read, one too few after the list. -/
def positional (expected : List Ty) (read : Ty → m α) : m (List α) := do
  let elements ← arguments fun index =>
    match expected[index]? with
    | none => (throw (.tooManyArguments expected.length) : Scan _)
    | some ty => do
      skipToContent
      read ty
  if elements.length < expected.length then
    (throw (.tooFewArguments expected.length elements.length) : Scan _)
  else return elements.map Prod.snd

end Scan

end Straightline
