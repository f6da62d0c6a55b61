import Straightline.CommandLine.Execute

/-!
# The program

Looks up the inputs, has everything else decided by `CommandLine`, writes the output and prints the
events and the failure to the standard error. What was compiled is not run.
-/

set_option autoImplicit false

namespace Straightline.CommandLine

/-- The tree of files at a path, if there is anything. Links to directories below it are not entered. -/
partial def treeAt (path : String) : IO (Option (FileTree (List UInt8))) := do
  let place := (← IO.currentDir) / path
  if ← place.isDir then
    let mut entries := []
    for entry in ← place.readDir do
      let isLink := (← entry.path.symlinkMetadata).type == .symlink
      unless isLink && (← entry.path.isDir) do
        if let some tree ← treeAt (FileSystem.joinPath path entry.fileName) then
          entries := (entry.fileName, tree) :: entries
    return some (.directory entries)
  try
    let bytes ← IO.FS.readBinFile place
    return some (.file bytes.data.toList)
  catch _ => return none

/-- The trees at several paths. -/
def treesAt (paths : List String) : IO (List (String × FileTree (List UInt8))) := do
  let mut found := []
  for path in paths do
    if let some tree ← treeAt path then found := (path, tree) :: found
  return found

/-- Writes the output and the directories around it. -/
def writeFile (path : String) (bytes : List UInt8) : IO (Except Failure Unit) := do
  let parent := FileSystem.parentPath path
  unless parent.isEmpty do
    try IO.FS.createDirAll parent catch _ => return .error (.createDirectory parent)
  try
    IO.FS.writeBinFile path ⟨bytes.toArray⟩
    return .ok ()
  catch _ => return .error (.writeOutput path)

/-- Whether events of a level are shown when more detail was asked for this often. -/
def isShown (verbosity : Nat) : Level → Bool
  | .warn => true
  | .info | .debug => 1 ≤ verbosity
  | .trace => 2 ≤ verbosity

def eventLine (event : Event) : String :=
  let fields := event.fields.map fun field => " " ++ field.1 ++ "=" ++ field.2
  event.level.text ++ " " ++ event.message ++ String.join fields

def showLog (verbosity : Nat) (log : List Event) : IO Unit :=
  (log.filter fun event => isShown verbosity event.level).forM fun event =>
    IO.eprintln (eventLine event)

def usageLine : UsageError → String
  | .missingRequired => "an input and an output are required"
  | .invalidValue => "an option lacks its value"
  | .unknownArgument => "there is no such option"
  | .valueValidation => "the number of pages is no number below 2^32"
  | .argumentConflict => "an option is given twice"
  | .tooManyValues => "an option takes no value"
  | .help | .version =>
    "INPUT... --output OUTPUT [--emit wasm|llvm] [--name NAME] [--stack-pages PAGES] [--verbose]"

/-- Carries out what was asked for, and gives the exit code. -/
def carryOut (invocation : Invocation) : IO UInt32 := do
  let trees ← treesAt invocation.inputs
  let made := prepare (fun path => trees.lookup path) invocation
  showLog invocation.verbosity made.log
  let failed (failure : Failure) : IO UInt32 := do
    IO.eprintln ("Error: " ++ failure.message)
    return 1
  match made.result with
  | .error failure => failed failure
  | .ok output =>
    match ← writeFile invocation.output output.bytes with
    | .error failure => failed failure
    | .ok () =>
      showLog invocation.verbosity (written invocation output)
      return 0

end Straightline.CommandLine

open Straightline.CommandLine in
def main (args : List String) : IO UInt32 := do
  match parse args with
  | .ok invocation => carryOut invocation
  | .error error =>
    IO.eprintln (usageLine error)
    return if error = .help ∨ error = .version then 0 else 2
