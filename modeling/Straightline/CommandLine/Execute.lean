import Straightline.CommandLine.Arguments
import Straightline.CommandLine.Sources
import Straightline.Project.Artifact

/-!
# Running the program on files

First everything is read, then compiled, and only what has been compiled is written. So nothing is
touched unless there is something to write. Missing directories around the output are made; what
the output replaces is lost.
-/

set_option autoImplicit false

namespace Straightline.CommandLine

/-- Why a run fails. -/
inductive Failure where
  | sourceNotFound (path : String)
  | noSources
  | unsupportedFormat (format : String)
  | project (error : ProjectError)
  | createDirectory (path : String)
  | writeOutput (path : String)
deriving DecidableEq, Repr

namespace Failure

def message : Failure → String
  | sourceNotFound path => "source file not found: " ++ path
  | noSources => "no ." ++ sourceExtension ++ " sources found"
  | unsupportedFormat format => "unsupported emit format: " ++ format
  | project error => error.message
  | createDirectory path => "failed to create directory " ++ path
  | writeOutput path => "failed to write output file " ++ path

end Failure

/-- Reads the inputs in order, up to the first that is not there. -/
def loadInputs (find? : String → Option (FileTree (List UInt8))) :
    List String → Reported (Except Failure (List SourceUnit))
  | [] => ⟨.ok [], []⟩
  | input :: rest =>
    match sourcesOf find? input with
    | none => ⟨.error (.sourceNotFound input), []⟩
    | some units =>
      let others := loadInputs find? rest
      ⟨others.result.map (units ++ ·), units.map loaded ++ others.log⟩

/-- Reads the inputs. There has to be a source among them. -/
def loadUnits (find? : String → Option (FileTree (List UInt8))) (inputs : List String) :
    Reported (Except Failure (List SourceUnit)) :=
  let found := loadInputs find? inputs
  { found with
    result := do
      let units ← found.result
      if units.isEmpty then throw .noSources
      return units }

/-- Output, and whether it is text. -/
structure Output where
  bytes : List UInt8
  isText : Bool
deriving DecidableEq, Repr

/-- Compiles units into the format asked for. -/
def produce (invocation : Invocation) (units : List SourceUnit) :
    Reported (Except Failure Output) :=
  let options : CompileOptions := ⟨invocation.name, invocation.stackPages⟩
  if invocation.format = "wasm" then
    let made := compileWasm units options
    ⟨(made.result.map fun a => ⟨a.wasm, false⟩).mapError .project, made.log⟩
  else if invocation.format = "llvm" then
    let made := emitText units options
    ⟨(made.result.map fun text => ⟨text.toUTF8.data.toList, true⟩).mapError .project, made.log⟩
  else ⟨.error (.unsupportedFormat invocation.format), []⟩

/-- Everything up to the writing: reads and compiles. -/
def prepare (find? : String → Option (FileTree (List UInt8))) (invocation : Invocation) :
    Reported (Except Failure Output) :=
  let found := loadUnits find? invocation.inputs
  match found.result with
  | .error failure => ⟨.error failure, found.log⟩
  | .ok units =>
    let made := produce invocation units
    { made with log := found.log ++ made.log }

/-- Writes the output, with the directories around it. The files are what they have become when that fails
as well. -/
def writeOutput (fs : FileSystem) (path : String) (bytes : List UInt8) :
    Except Failure Unit × FileSystem :=
  match fs.makeParent path with
  | (false, fs) => (.error (.createDirectory (FileSystem.parentPath path)), fs)
  | (true, fs) =>
    match fs.write path bytes with
    | none => (.error (.writeOutput path), fs)
    | some fs => (.ok (), fs)

/-- The events after the output has been written. -/
def written (invocation : Invocation) (output : Output) : List Event :=
  .outputWritten invocation.output output.bytes.length
    :: (if output.isText && invocation.run.isSome then [.runIgnored] else [])

/-- A run on the files: what came of it, its events, and the files afterwards. -/
def execute (fs : FileSystem) (invocation : Invocation) :
    Reported (Except Failure Output) × FileSystem :=
  let made := prepare fs.find? invocation
  match made.result with
  | .error failure => (⟨.error failure, made.log⟩, fs)
  | .ok output =>
    match writeOutput fs invocation.output output.bytes with
    | (.error failure, fs) => (⟨.error failure, made.log⟩, fs)
    | (.ok (), fs) => (⟨.ok output, made.log ++ written invocation output⟩, fs)

end Straightline.CommandLine
