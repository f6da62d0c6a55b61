import Straightline.IR.Module
import Straightline.Symbol.Scope
import Straightline.Syntax.Header

/-!
# What a project has declared

Four tables with a name space each: a type, a global and a function may share a name. Methods are
kept under `Owner.method`. A record holds the handle by which code refers to what was declared, and as
long as a function has no body, where that is to be found in the source of its unit.
-/

set_option autoImplicit false

namespace Straightline

/-- A global. Structs and primitives are stored at the global's address; a model is that address. -/
structure GlobalRecord where
  ty : Ty
  storage : Storage IR.Value
deriving DecidableEq, Repr

/-- A function. `resume` is the offset after the opening brace of its body, until that is compiled. -/
structure FunctionRecord where
  signature : Signature
  function : IR.FunctionId
  resume : Option Nat
deriving DecidableEq, Repr

/-- A method of `owner`, whose instance is bound to `receiver` in its body. -/
structure MethodRecord where
  owner : Ty
  receiver : String
  signature : Signature
  function : IR.FunctionId
  resume : Option Nat
deriving DecidableEq, Repr

structure Declarations where
  types : SymbolTable Ty := .empty
  globals : SymbolTable GlobalRecord := .empty
  functions : SymbolTable FunctionRecord := .empty
  methods : SymbolTable MethodRecord := .empty
deriving DecidableEq, Repr

/-- How many declarations of each sort there were at some time. -/
structure DeclarationCounts where
  types : Nat
  globals : Nat
  functions : Nat
  methods : Nat
deriving DecidableEq, Repr

namespace Declarations

def counts (d : Declarations) : DeclarationCounts where
  types := d.types.size
  globals := d.globals.size
  functions := d.functions.size
  methods := d.methods.size

/-- Drops what was declared since there were `c`. -/
def truncate (d : Declarations) (c : DeclarationCounts) : Declarations where
  types := d.types.truncate c.types
  globals := d.globals.truncate c.globals
  functions := d.functions.truncate c.functions
  methods := d.methods.truncate c.methods

/-- The name under which a method is kept and its function is known. -/
def methodKey (owner : Ty) (name : String) : String := owner.name ++ "." ++ name

end Declarations

/-- A function or method by the name under which it is kept. -/
inductive CallableName where
  | method (key : String)
  | function (name : String)
deriving DecidableEq, Repr

/-- A function whose body is still to be compiled. `parameters` has the receiver of a method first. -/
structure PendingBody where
  name : String
  function : IR.FunctionId
  parameters : List (String × Ty)
  result : Ty
  resume : Nat
deriving DecidableEq, Repr

namespace Declarations

/-- The body that is still to be compiled for `name`, if there is one. -/
def pendingBody? (d : Declarations) : CallableName → Option PendingBody
  | .method key => do
    let record ← d.methods.find? key
    let resume ← record.resume
    return { name := key, function := record.function,
             parameters := (record.receiver, record.owner) :: record.signature.arguments,
             result := record.signature.result, resume }
  | .function name => do
    let record ← d.functions.find? name
    let resume ← record.resume
    return { name, function := record.function, parameters := record.signature.arguments,
             result := record.signature.result, resume }

/-- Forgets where the body of `name` resumes. -/
def withoutResume (d : Declarations) : CallableName → Declarations
  | .method key => { d with methods := d.methods.modify key fun r => { r with resume := none } }
  | .function name => { d with functions := d.functions.modify name fun r => { r with resume := none } }

end Declarations

end Straightline
