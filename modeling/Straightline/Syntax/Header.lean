import Straightline.Syntax.Arguments

/-!
# Headers of declarations

A source is a sequence of declarations, and the header of each says what it declares:

    Point : struct                           a type
    origin : Point                           a global
    sum : (a: Int32, b: Int32) -> Int32      a function
    Point.norm : (self: Point) -> Int32      a method

A method names its receiver first; further arguments follow in a second list after the arrow.
`Scan.declaration` reads the header alone and leaves the cursor before the `=` of what follows.
-/

set_option autoImplicit false

namespace Straightline

/-- What a function takes and gives. -/
structure Signature where
  arguments : List (String × Ty)
  result : Ty
deriving DecidableEq, Repr

namespace Signature

def argumentTypes (s : Signature) : List Ty := s.arguments.map Prod.snd

end Signature

/-- A top-level declaration, as far as its header tells. -/
inductive Declaration where
  | type (name : String) (kind : AggregateKind)
  | global (name : String) (ty : Ty)
  | function (name : String) (signature : Signature)
  /-- The signature is without the receiver, which is bound to `receiver`. -/
  | method (name receiver : String) (owner : Ty) (signature : Signature)
deriving DecidableEq, Repr

namespace Declaration

/-- The declared name, of a method without its owner. -/
def name : Declaration → String
  | type name _ | global name _ | function name _ | method name _ _ _ => name

end Declaration

namespace Scan

/-- Reads the name of a type. -/
def type (types : SymbolTable Ty) : Scan Ty := do
  let name ← nonemptyWord
  check (Ty.resolve types name)

/-- Reads a list of names with their types, up to and including its `)`. -/
def typedNames (types : SymbolTable Ty) : Scan (List (String × Ty)) :=
  arguments fun _ => do
    skipToContent
    type types

/-- Reads `name: Type, ...) -> Type`. -/
def signature (types : SymbolTable Ty) : Scan Signature := do
  let arguments ← typedNames types
  check (arguments.forM fun argument => argument.2.requireStorable argument.1)
  skipToContent
  arrow
  skipToContent
  let result ← type types
  return ⟨arguments, result⟩

/-- Refuses fields of type `Void` and repeated names, the first offender in order. -/
def checkFields (seen : List String) : List (String × Ty) → Except Fault Unit
  | [] => .ok ()
  | (name, ty) :: rest => do
    ty.requireStorable name
    if seen.contains name then throw (.invalidMember name) else checkFields (name :: seen) rest

/-- Reads `(field: Type, ...)`. -/
def fields (types : SymbolTable Ty) : Scan (List (String × Ty)) := do
  skipToContent
  expect Byte.openParen
  let fields ← typedNames types
  check (checkFields [] fields)
  return fields

/-- Reads the keyword of the kind of `name`, unless the fields begin at once. -/
def repeatedKind (name : String) (kind : AggregateKind) : Scan Unit := do
  if ← lookingAt Byte.openParen then return ()
  else require ((← word) == kind.keyword) (.invalidTypeDefinition name)

/-- Reads `= (field: Type, ...)`, the definition of the type `name`. The keyword of its kind may
stand before the list once more. -/
def typeDefinition (name : String) (kind : AggregateKind) (types : SymbolTable Ty) :
    Scan (List (String × Ty)) := do
  skipToContent
  expect Byte.equals
  skipToContent
  repeatedKind name kind
  fields types

/-- Reads the header of a method after the dot that follows the owner's name. -/
def methodHeader (types : SymbolTable Ty) (ownerName : String) : Scan Declaration := do
  let name ← nonemptyWord
  skipToContent
  expect Byte.colon
  skipToContent
  expect Byte.openParen
  skipToContent
  let receiver ← nonemptyWord
  skipToContent
  expect Byte.colon
  skipToContent
  require ((← nonemptyWord) == ownerName) (.invalidMember name)
  skipToContent
  expect Byte.closeParen
  skipToContent
  arrow
  let owner ← check (Ty.resolve types ownerName)
  require owner.isAggregate (.invalidMember name)
  skipToContent
  if ← lookingAt Byte.openParen then
    advance
    return .method name receiver owner (← signature types)
  else
    return .method name receiver owner ⟨[], ← type types⟩

/-- Reads the header of a type or a global after its colon. -/
def plainHeader (types : SymbolTable Ty) (name : String) : Scan Declaration := do
  let typeName ← nonemptyWord
  match AggregateKind.ofKeyword? typeName with
  | some kind => return .type name kind
  | none =>
    let ty ← check (Ty.resolve types typeName)
    check (ty.requireStorable name)
    return .global name ty

/-- Reads the header of the next declaration. -/
def declaration (types : SymbolTable Ty) : Scan Declaration := do
  skipToContent
  let name ← nonemptyWord
  if ← lookingAt Byte.dot then
    advance
    methodHeader types name
  else
    skipSpace true
    require (← lookingAt Byte.colon) (.missingType name)
    advance
    skipToContent
    if ← lookingAt Byte.openParen then
      advance
      return .function name (← signature types)
    else plainHeader types name

end Scan

end Straightline
