import Straightline.Source.Cursor

/-!
# How statements and values begin

The grammar is decided by words and the byte right after them. A name directly followed by `(` is a
call and directly followed by `.` names a member; with a blank in between it is neither. For a
declaration or an assignment the `:` or `=` may stand on a later line. The words `if` and `return`
are taken before anything else is looked at, so they name nothing.
-/

set_option autoImplicit false

namespace Straightline

/-- Words that begin a statement of their own. -/
inductive ReservedWord where
  | cond
  | ret
deriving DecidableEq, Repr

namespace ReservedWord

def text : ReservedWord → String
  | cond => "if"
  | ret => "return"

def ofText? (word : String) : Option ReservedWord :=
  if word = cond.text then some cond else if word = ret.text then some ret else none

end ReservedWord

inductive Operator where
  | add
  | sub
deriving DecidableEq, Repr

namespace Operator

def symbol : Operator → Char
  | add => '+'
  | sub => '-'

end Operator

/-- How a statement begins. What decided it has been read: `(`, `:`, or the `=` of an assignment to
a name. The `=` after `target.member` has not. -/
inductive StatementHead where
  | reserved (word : ReservedWord)
  | call (callee : String)
  | methodCall (target member : String)
  | assignField (target member : String)
  | declare (name : String)
  | assign (name : String)
deriving DecidableEq, Repr

/-- How a single value begins. The `(` of a call has been read. -/
inductive TermHead where
  /-- A literal or the name of a variable. -/
  | word (text : String)
  /-- A call, or the literal of a declared type. -/
  | call (callee : String)
  | field (target member : String)
  | methodCall (target member : String)
deriving DecidableEq, Repr

namespace Scan

/-- What directly follows a name: `(`, a dot and another name with or without `(`, or neither. -/
inductive Suffix where
  | none
  | call
  | member (name : String)
  | memberCall (name : String)
deriving DecidableEq, Repr

/-- Reads what directly follows a name. -/
def suffix : Scan Suffix := do
  if ← lookingAt Byte.openParen then
    advance
    return .call
  else if ← lookingAt Byte.dot then
    advance
    let member ← nonemptyWord
    if ← lookingAt Byte.openParen then
      advance
      return .memberCall member
    else return .member member
  else return .none

/-- Reads the `:` or `=` that makes a statement of a mere name. -/
def nameHead (name : String) : Scan StatementHead := do
  skipSpace true
  match ← peek with
  | none => throw .unexpectedEnd
  | some b =>
    if b == Byte.colon then
      advance
      return .declare name
    else if b == Byte.equals then
      advance
      return .assign name
    else throw (.unknownStatement name)

def statementHead : Scan StatementHead := do
  let name ← nonemptyWord
  match ReservedWord.ofText? name with
  | some word => return .reserved word
  | none =>
    match ← suffix with
    | .call => return .call name
    | .memberCall member => return .methodCall name member
    | .member member => return .assignField name member
    | .none => nameHead name

def termHead : Scan TermHead := do
  let text ← nonemptyWord
  match ← suffix with
  | .call => return .call text
  | .memberCall member => return .methodCall text member
  | .member member => return .field text member
  | .none => return .word text

def operator : Scan Operator := do
  match ← peek with
  | none => throw .unexpectedEnd
  | some b =>
    if b == Byte.plus then
      advance
      return .add
    else if b == Byte.minus then
      advance
      return .sub
    else throw (.unknownOperation (Byte.toChar b))

/-- Whether an operator has to follow: what is left on the line begins with something else than a
closing delimiter, a comma or an opening brace. Leaves the cursor on it. -/
def expressionContinues : Scan Bool := do
  if ← moreOnLine then
    match ← peek with
    | none => return false
    | some b =>
      return !(b == Byte.closeBrace || b == Byte.closeParen || b == Byte.comma
        || b == Byte.openBrace)
  else return false

end Scan

end Straightline
