import Straightline.IR.Module
import Straightline.Syntax.Arguments
import Straightline.Ty.Literal

/-!
# Contents of globals

A global is given by a literal, or by a literal of its declared type whose fields are constants in
turn. Unlike a body this is checked as it is read, since it is needed before anything is compiled:
of two faults the one that stands first is told.

A model may be the contents of a global, whose address is then the model's. Inside other contents it
would need an address of its own and is refused.
-/

set_option autoImplicit false

namespace Straightline

namespace Scan

/-- Reads a constant of type `expected` in which calls are nested less than `depth` deep; `nested`
tells that it is a field of another. -/
def constantWithin (types : SymbolTable Ty) :
    (depth : Nat) → (nested : Bool) → (expected : Ty) → Scan IR.Constant
  | 0, _, _ => throw .unexpectedEnd
  | depth + 1, nested, expected => do
    match ← termHead with
    | .word text =>
      match expected.literal? text with
      | some value => return .int value
      | none =>
        if looksLikeLiteral text then
          throw (.typeMismatch expected.name ("literal " ++ quoted text))
        else throw (.unknownVariable text)
    | .call callee =>
      match types.find? callee with
      | none => throw (.unknownFunction callee)
      | some ty =>
        require (ty == expected) (.typeMismatch expected.name ty.name)
        require (!nested || ty.passing == .byValue) (.typeMismatch callee "constant")
        let fields ← positional ty.fieldTypes (constantWithin types depth true)
        return .struct fields
    | .field target _ | .methodCall target _ => throw (.unknownVariable target)

/-- Reads the contents of a global of type `expected`. -/
def constant (types : SymbolTable Ty) (expected : Ty) : Scan IR.Constant :=
  bounded fun depth => constantWithin types depth false expected

/-- Reads an equals sign and the contents of a global. They are a single term: an operator after it
on the same line is refused. -/
def contents (types : SymbolTable Ty) (expected : Ty) : Scan IR.Constant := do
  skipToContent
  expect Byte.equals
  skipToContent
  let value ← constant types expected
  if ← expressionContinues then
    let operator ← operator
    throw (.unknownOperation operator.symbol)
  else return value

end Scan

end Straightline
