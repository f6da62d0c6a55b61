import Straightline.IR.Builder
import Straightline.Project.Constant
import Straightline.Project.Declarations
import Straightline.Project.Event
import Straightline.Project.Refusal
import Straightline.Syntax.Skipping

/-!
# Going through the declarations of a source

The first phase of a unit. Types and globals are finished on the spot. A function is declared, its
body is skipped, and where it begins is kept in its record until every name of the unit is known. So a
body may refer to whatever its unit declares anywhere, while a type, a signature or the contents of a
global may name only what was declared before.
-/

set_option autoImplicit false

namespace Straightline

/-- The functions and methods of a unit whose bodies are put off, each sort in the order of
declaration. -/
structure Pending where
  methods : List String := []
  functions : List String := []
deriving DecidableEq, Repr

namespace Pending

/-- All of them in the order in which their bodies are compiled. -/
def names (p : Pending) : List CallableName := p.methods.map .method ++ p.functions.map .function

end Pending

/-- The state in which a unit is taken. -/
structure Declaring where
  cursor : Cursor
  declarations : Declarations
  builder : IR.Builder
  pending : Pending := {}
  log : List Event := []

abbrev Declare := EStateM Refusal Declaring

namespace Declare

/-- Reads on from the cursor. -/
def scan {α : Type} (reader : Scan α) : Declare α := fun s =>
  match reader s.cursor with
  | .ok value cursor => .ok value { s with cursor }
  | .error fault cursor => .error ⟨fault, cursor.offset⟩ { s with cursor }

def build {α : Type} (step : IR.Build α) : Declare α := fun s =>
  let (value, builder) := step s.builder
  .ok value { s with builder }

def report (event : Event) : Declare Unit := fun s => .ok () { s with log := s.log ++ [event] }

def declarations : Declare Declarations := fun s => .ok s.declarations s

def setDeclarations (declarations : Declarations) : Declare Unit := fun s =>
  .ok () { s with declarations }

/-- Refuses the unit at the cursor, unless `holds`. -/
def require (holds : Bool) (fault : Fault) : Declare Unit := scan (Scan.require holds fault)

/-- Declares the type `name`. Its fields name types declared before it. -/
def declareType (name : String) (kind : AggregateKind) : Declare Unit := do
  let d ← declarations
  require (!d.types.contains name && (Primitive.ofName? name).isNone) (.redefinition name)
  let fields ← scan (Scan.typeDefinition name kind d.types)
  build (IR.Build.declareStruct name (fields.map fun field => field.2.irType))
  let types ← scan (Scan.check (d.types.insert? name (.aggregate name kind fields)))
  setDeclarations { d with types }

/-- Declares the global `name` with the contents that follow. -/
def declareGlobal (name : String) (ty : Ty) : Declare Unit := do
  let d ← declarations
  require (!d.globals.contains name) (.redefinition name)
  let contents ← scan (Scan.contents d.types ty)
  let address ← build (IR.Build.addGlobal name ⟨.const contents, ty.layoutType⟩)
  let storage :=
    match ty.passing with
    | .byValue => Storage.slot address
    | .byAddress => Storage.direct address
  let globals ← scan (Scan.check (d.globals.insert? name ⟨ty, storage⟩))
  setDeclarations { d with globals }

/-- Declares a function in the module and skips its body. Gives its handle and where the body
resumes. -/
def putOff (name : String) (parameters : List (String × Ty)) (result : Ty) :
    Declare (IR.FunctionId × Nat) := do
  let function ←
    build (IR.Build.declareFunction name (parameters.map fun p => p.2.irType) result.irType)
  scan Scan.openBody
  let resume ← scan Scan.offset
  scan Scan.skipBlock
  return (function, resume)

def declareFunction (name : String) (signature : Signature) : Declare Unit := do
  let d ← declarations
  require (!d.functions.contains name) (.redefinition name)
  let (function, resume) ← putOff name signature.arguments signature.result
  let functions ← scan (Scan.check (d.functions.insert? name ⟨signature, function, some resume⟩))
  setDeclarations { d with functions }
  modify fun s =>
    { s with pending := { s.pending with functions := s.pending.functions ++ [name] } }

def declareMethod (name receiver : String) (owner : Ty) (signature : Signature) :
    Declare Unit := do
  let d ← declarations
  let key := Declarations.methodKey owner name
  require (!d.methods.contains key) (.redefinition key)
  let (function, resume) ← putOff key ((receiver, owner) :: signature.arguments) signature.result
  let methods ← scan
    (Scan.check (d.methods.insert? key ⟨owner, receiver, signature, function, some resume⟩))
  setDeclarations { d with methods }
  modify fun s =>
    { s with pending := { s.pending with methods := s.pending.methods ++ [key] } }

def declare : Declaration → Declare Unit
  | .type name kind => declareType name kind
  | .global name ty => declareGlobal name ty
  | .function name signature => declareFunction name signature
  | .method name receiver owner signature => declareMethod name receiver owner signature

/-- Takes the declarations up to the end of the source, at most `bound` of them. -/
def declareWithin : Nat → Declare Unit
  | 0 => scan (throw .unexpectedEnd)
  | bound + 1 => do
    scan (Scan.skipSpace true)
    if ← scan Scan.isAtEnd then return ()
    else
      let header ← scan (Scan.declaration (← declarations).types)
      report (.declared header.name)
      declare header
      declareWithin bound

/-- The first phase. Every declaration takes at least one byte, which bounds their number. -/
def declareAll : Declare Pending := do
  report .declarationsStarted
  declareWithin ((← get).cursor.rest.length + 1)
  return (← get).pending

end Declare

end Straightline
