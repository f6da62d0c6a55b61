import Straightline.IR.Text
import Straightline.IR.Verify
import Straightline.Lowering.Module
import Straightline.Project.Basic

/-!
# From units to output

A list of units is compiled in order into one module, which is checked and then written, as text or
as WebAssembly with its text beside it. The first unit that is refused ends it.
-/

set_option autoImplicit false

namespace Straightline

/-- Why units do not come to a result. -/
inductive ProjectError where
  | compile (unit : String) (refusal : Refusal)
  | verify (defect : IR.Defect)
  | lower (fault : Lowering.Fault)
deriving DecidableEq, Repr

namespace ProjectError

def message : ProjectError → String
  | compile unit refusal =>
    s!"{unit}: compile error at byte {refusal.offset}: {refusal.fault.message}"
  | verify defect => "module verification failed: " ++ defect.message
  | lower fault =>
    if fault.isStop then fault.message else "wasm code generation failed: " ++ fault.message

end ProjectError

/-- How output is made. -/
structure CompileOptions where
  projectName : String := "main"
  /-- Pages kept for the shadow stack. -/
  stackPages : Nat := 16
deriving DecidableEq, Repr

/-- A result and the events on the way to it. -/
structure Reported (α : Type) where
  result : α
  log : List Event

/-- WebAssembly in binary form, and the text of the module it was made from. -/
structure Artifact where
  wasm : List UInt8
  text : String
deriving DecidableEq, Repr

namespace Project

/-- The module, if it passes. -/
def finish (p : Project) : Except ProjectError IR.Module :=
  match p.builder.verify with
  | .ok () => .ok p.builder.module
  | .error defect => .error (.verify defect)

/-- Compiles units in order, up to the first that is refused. -/
def compileUnits (p : Project) : List SourceUnit → Reported (Except ProjectError Project)
  | [] => ⟨.ok p, []⟩
  | unit :: rest =>
    let outcome := p.compileUnit unit
    match outcome.result with
    | .error refusal => ⟨.error (.compile unit.name refusal), outcome.log⟩
    | .ok () =>
      let others := outcome.project.compileUnits rest
      { others with log := outcome.log ++ others.log }

end Project

/-- The binary form of a module. -/
def lowerToWasm (m : IR.Module) (stackPages : Nat) : Except ProjectError (List UInt8) :=
  match Lowering.lowerModule m stackPages with
  | .ok wasm => .ok wasm.encode
  | .error fault => .error (.lower fault)

/-- The module of a list of units. -/
def buildModule (units : List SourceUnit) (options : CompileOptions) :
    Reported (Except ProjectError IR.Module) :=
  let compiled := (Project.start options.projectName).compileUnits units
  { compiled with result := compiled.result.bind Project.finish }

/-- The WebAssembly of a list of units. -/
def compileWasm (units : List SourceUnit) (options : CompileOptions) :
    Reported (Except ProjectError Artifact) :=
  let built := buildModule units options
  { built with
    result := do
      let m ← built.result
      return ⟨← lowerToWasm m options.stackPages, m.text⟩ }

/-- The textual form of a list of units. -/
def emitText (units : List SourceUnit) (options : CompileOptions) :
    Reported (Except ProjectError String) :=
  let built := buildModule units options
  { built with result := built.result.map IR.Module.text }

end Straightline
