import Straightline.CommandLine.FileTree

/-!
# The file system

All files are in one tree, and the program is somewhere in it. A path is a text with a slash between its
steps. It begins at the root if it begins with a slash, and in the working directory otherwise. An empty
step and `.` stay where they are, and `..` goes back, which at the root leads nowhere else. Each step but
the last has to lead to a directory, and so does a path that ends in a slash. A symbolic link is followed
wherever it is met, but only so often on one path.

A file is not where it is named. Its names lead to its number, and a file that has several names has the
same content under each.
-/

set_option autoImplicit false

namespace Straightline

/-- The names that lead from the root to something, the innermost first. -/
abbrev FileSystem.Place := List String

/-- The files: where each of them is named, what is in them, and the working directory. -/
structure FileSystem where
  root : FileTree Nat
  contents : Nat → List UInt8
  current : FileSystem.Place

namespace FileSystem

open FileTree (Kind)

/-- There is no file, and nothing is around the working directory. -/
def empty : FileSystem := ⟨.empty, fun _ => [], []⟩

/-! ## Paths -/

/-- The steps of a path. -/
def steps (path : String) : List String := (path.toList.splitOn '/').map String.ofList

/-- A step that leads nowhere. -/
def isIdle (step : String) : Bool := step = "" || step = "."

/-- Where a path begins that is met at `place`. It begins at the root if its first step is empty and not
its only one. -/
def origin (place : Place) : (steps : List String) → Place
  | "" :: _ :: _ => []
  | _ => place

/-- The path of the directory that a path lies in. It is empty if the path has one step. -/
def parentPath (path : String) : String :=
  let outer := ((steps path).reverse.dropWhile isIdle).drop 1
  match outer.reverse with
  | [] => ""
  | first :: rest =>
    "/".intercalate (first :: (rest.reverse.dropWhile isIdle).reverse)

/-- What a path leads to: something that is there, or a name that is free in its directory. -/
inductive Lead where
  | there (place : Place)
  | free (place : Place)
deriving DecidableEq, Repr

/-- Follows steps from `place`. Where a link is met, `enter` follows its path and the steps that are left. -/
def follow {φ : Type} (kind? : Place → Option (Kind φ)) (enter : Place → List String → Option Lead) :
    Place → List String → Option Lead
  | place, [] => some (.there place)
  | place, step :: rest =>
    match kind? place with
    | some .directory =>
      if isIdle step then follow kind? enter place rest
      else if step = ".." then follow kind? enter place.tail rest
      else
        match kind? (step :: place) with
        | some (.link target) =>
          if target = "" then none else enter (origin place (steps target)) (steps target ++ rest)
        | some _ => follow kind? enter (step :: place) rest
        | none => if rest.isEmpty then some (.free (step :: place)) else none
    | _ => none

/-- Follows steps that lead through no more than so many links. -/
def walk {φ : Type} (kind? : Place → Option (Kind φ)) : (links : Nat) → Place → List String → Option Lead
  | 0 => follow kind? fun _ _ => none
  | links + 1 => follow kind? (walk kind? links)

/-- How many links are followed on one path. -/
def maxLinks : Nat := 40

/-- What stands at a place of a tree. -/
def kindAt (t : FileTree Nat) (place : Place) : Option (Kind Nat) := t.kind? place.reverse

variable (fs : FileSystem)

def kind? : Place → Option (Kind Nat) := kindAt fs.root

/-- What a path leads to. The empty path leads nowhere. -/
def locate (path : String) : Option Lead :=
  if path = "" then none else walk fs.kind? maxLinks (origin fs.current (steps path)) (steps path)

/-! ## Reading -/

/-- The content of the file at a place. -/
def bytes? (place : Place) : Option (List UInt8) :=
  match fs.kind? place with
  | some (.file number) => some (fs.contents number)
  | _ => none

/-- The content of the file that a path leads to. -/
def read? (path : String) : Option (List UInt8) :=
  match fs.locate path with
  | some (.there place) => fs.bytes? place
  | _ => none

/-- A path one step further. -/
def joinPath (path name : String) : String :=
  if path.endsWith "/" then path ++ name else path ++ "/" ++ name

mutual

/-- The tree below `path` with what is read there. A link to a file counts as the file, and any other is left. -/
def snapshot (path : String) : FileTree Nat → FileTree (List UInt8)
  | .file number => .file (fs.contents number)
  | .directory entries => .directory (snapshots path entries)
  | .link target =>
    match fs.read? path with
    | some bytes => .file bytes
    | none => .link target

/-- The entries of the directory at `path`, with what is read there. -/
def snapshots (path : String) : List (String × FileTree Nat) → List (String × FileTree (List UInt8))
  | [] => []
  | (name, node) :: rest => (name, snapshot (joinPath path name) node) :: snapshots path rest

end

/-- What is read at a path. -/
def find? (path : String) : Option (FileTree (List UInt8)) :=
  match fs.locate path with
  | some (.there place) => (fs.root.at? place.reverse).map (fs.snapshot path)
  | _ => none

/-! ## Writing -/

/-- Follows steps and makes the directories that are missing. Gives whether all of them are there, and the
tree with those that were made. -/
def makeSteps : FileTree Nat → Place → List String → Bool × FileTree Nat
  | t, place, [] => (kindAt t place = some .directory, t)
  | t, place, step :: rest =>
    match kindAt t place with
    | some .directory =>
      if isIdle step then makeSteps t place rest
      else if step = ".." then makeSteps t place.tail rest
      else
        match kindAt t (step :: place) with
        | some _ =>
          match walk (kindAt t) maxLinks place [step] with
          | some (.there inner) => makeSteps t inner rest
          | _ => (false, t)
        | none =>
          match FileTree.put .empty (step :: place).reverse t with
          | some t => makeSteps t (step :: place) rest
          | none => (false, t)
    | _ => (false, t)

/-- Makes a directory and those around it, as far as they are missing. Those that were made remain when this
fails. -/
def makeDirectories (path : String) : Bool × FileSystem :=
  let (made, root) := makeSteps fs.root (origin fs.current (steps path)) (steps path)
  (made, { fs with root })

/-- Makes the directories around what is at a path. -/
def makeParent (path : String) : Bool × FileSystem :=
  if parentPath path = "" then (true, fs) else fs.makeDirectories (parentPath path)

mutual

/-- The numbers of the files in a tree. -/
def numbers : FileTree Nat → List Nat
  | .file number => [number]
  | .directory entries => entryNumbers entries
  | .link _ => []

def entryNumbers : List (String × FileTree Nat) → List Nat
  | [] => []
  | (_, node) :: rest => numbers node ++ entryNumbers rest

end

/-- A number that no file has. -/
def fresh : Nat := (numbers fs.root).foldr max 0 + 1

/-- With another content of a file. -/
def store (number : Nat) (bytes : List UInt8) : FileSystem :=
  { fs with contents := fun other => if other = number then bytes else fs.contents other }

/-- Writes the file that a path leads to, or a new one where it leads to a free name. -/
def write (path : String) (bytes : List UInt8) : Option FileSystem :=
  match fs.locate path with
  | some (.there place) =>
    match fs.kind? place with
    | some (.file number) => some (fs.store number bytes)
    | _ => none
  | some (.free place) => do
    let root ← FileTree.put (.file fs.fresh) place.reverse fs.root
    return { fs with root }.store fs.fresh bytes
  | none => none

end FileSystem

end Straightline
