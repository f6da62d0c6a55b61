import Straightline.Message

/-!
# Why a source is refused

One constructor for each cause, with what the reader of the message needs to find it. The wording
is `Fault.message` and nowhere else.
-/

set_option autoImplicit false

namespace Straightline

/-- A cause for which a source text is refused. The first one found ends the unit. -/
inductive Fault where
  | unknownType (name : String)
  | unknownStatement (name : String)
  | unknownVariable (name : String)
  | unknownFunction (name : String)
  | unknownOperation (symbol : Char)
  | unexpectedEnd
  /-- A top-level name without a `:` after it. -/
  | missingType (name : String)
  | missingComma
  | missingArrow
  | missingAssignment
  | missingCharacter (expected : Char)
  | invalidTypeDefinition (name : String)
  | invalidMember (name : String)
  | tooManyArguments (expected : Nat)
  | tooFewArguments (expected found : Nat)
  | redefinition (name : String)
  | typeMismatch (expected found : String)
  | missingReturn (function : String)
  | unsupportedStatement (word : String)
deriving DecidableEq, Repr

namespace Fault

def message : Fault → String
  | unknownType name => "unknown type " ++ quoted name
  | unknownStatement name => "unknown statement " ++ quoted name
  | unknownVariable name => "unknown variable " ++ quoted name
  | unknownFunction name => "unknown function " ++ quoted name
  | unknownOperation symbol => "unknown operation " ++ quoted symbol.toString
  | unexpectedEnd => "unexpected end of input"
  | missingType name => "missing type for declaration of " ++ quoted name
  | missingComma => "missing comma after argument"
  | missingArrow => "missing " ++ quoted "->" ++ " and return type"
  | missingAssignment => "missing " ++ quoted "=" ++ " assignment"
  | missingCharacter expected => "expected " ++ quoted expected.toString
  | invalidTypeDefinition name =>
    "invalid type definition for " ++ quoted name ++ ", expected " ++ quoted "struct" ++ " or "
      ++ quoted "model"
  | invalidMember name => "invalid member " ++ quoted name
  | tooManyArguments expected => s!"too many arguments, expected {expected}"
  | tooFewArguments expected found =>
    s!"too few arguments, expected {expected} but found {found}"
  | redefinition name => "redundant definition of " ++ quoted name
  | typeMismatch expected found =>
    "type mismatch, expected " ++ quoted expected ++ " but found " ++ quoted found
  | missingReturn function => "function " ++ quoted function ++ " ends without a return statement"
  | unsupportedStatement word => quoted word ++ " statements are not supported yet"

end Fault

end Straightline
