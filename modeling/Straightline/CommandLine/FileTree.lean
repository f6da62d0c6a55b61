/-!
# Trees of files

Directories with named entries, in no particular order; files, and what is known of each of them; and
symbolic links, which say where to go on. What a link leads to is a matter of the whole tree, so here a
link is as much a leaf as a file.
-/

set_option autoImplicit false

namespace Straightline

inductive FileTree (φ : Type) where
  | file (content : φ)
  | directory (entries : List (String × FileTree φ))
  | link (target : String)
deriving Repr

namespace FileTree

variable {φ : Type}

/-- A directory without entries. -/
def empty : FileTree φ := directory []

/-- What stands at one place of a tree, regardless of what lies below it. -/
inductive Kind (φ : Type) where
  | file (content : φ)
  | directory
  | link (target : String)
deriving DecidableEq, Repr

def kind : FileTree φ → Kind φ
  | file content => .file content
  | directory _ => .directory
  | link target => .link target

/-- The entry of a directory under a name. -/
def child? : FileTree φ → String → Option (FileTree φ)
  | directory entries, name => entries.lookup name
  | file _, _ | link _, _ => none

/-- What is found at the end of the named entries, one inside the other. -/
def at? (t : FileTree φ) (names : List String) : Option (FileTree φ) :=
  names.foldlM child? t

/-- What stands at the end of the named entries. -/
def kind? (t : FileTree φ) (names : List String) : Option (Kind φ) := (t.at? names).map kind

/-- Puts `node` under `name`, in the place of what is there. -/
def setEntry (node : FileTree φ) (name : String) :
    List (String × FileTree φ) → List (String × FileTree φ)
  | [] => [(name, node)]
  | entry :: rest =>
    if entry.1 = name then (name, node) :: rest else entry :: setEntry node name rest

/-- Puts `node` at the end of the named entries, all of which but the last have to be there. -/
def put (node : FileTree φ) : List String → FileTree φ → Option (FileTree φ)
  | [], _ => some node
  | name :: rest, directory entries => do
    let inner ←
      match entries.lookup name with
      | some inner => some inner
      | none => if rest.isEmpty then some empty else none
    let inner ← put node rest inner
    return directory (setEntry inner name entries)
  | _ :: _, file _ | _ :: _, link _ => none

end FileTree

end Straightline
