import Straightline.CommandLine.FileSystem
import Straightline.Project.Event
import Straightline.Project.Basic

/-!
# Loading sources

An input that is a file is a source whatever its name; a directory contributes the files at any
depth below it whose names say that they are sources. The entries of a directory come in the order
of their names and a directory in the place of its name, so the order does not depend on how the
tree lists its entries. Names are compared by their characters, which is the order of their bytes
in UTF-8.
-/

set_option autoImplicit false

namespace Straightline.CommandLine

open FileSystem (joinPath)

def sourceExtension : String := "sl"

/-- Whether a file is a source by its name. A name that is nothing but the extension has none. -/
def isSourceName (name : String) : Bool :=
  let ending := "." ++ sourceExtension
  name.endsWith ending && name ≠ ending

mutual

/-- The sources below what is called `name` and lies at `path`. -/
def sourcesBelow (path name : String) : FileTree (List UInt8) → List SourceUnit
  | .file bytes => if isSourceName name then [⟨path, bytes⟩] else []
  | .link _ => []
  | .directory entries =>
    ((entrySources path entries).mergeSort fun a b => a.1 ≤ b.1).flatMap Prod.snd

/-- For each entry of the directory at `path`, its name and the sources below it. -/
def entrySources (path : String) :
    List (String × FileTree (List UInt8)) → List (String × List SourceUnit)
  | [] => []
  | (name, node) :: rest =>
    (name, sourcesBelow (joinPath path name) name node) :: entrySources path rest

end

/-- The sources that an input stands for; none if there is nothing at its path. -/
def sourcesOf (find? : String → Option (FileTree (List UInt8))) (input : String) :
    Option (List SourceUnit) :=
  match find? input with
  | none | some (.link _) => none
  | some (.file bytes) => some [⟨input, bytes⟩]
  | some (.directory entries) => some (sourcesBelow input "" (.directory entries))

/-- That a source was read. -/
def loaded (unit : SourceUnit) : Event := .sourceLoaded unit.name unit.bytes.length

end Straightline.CommandLine
