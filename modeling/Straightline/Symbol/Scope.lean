import Straightline.Ty.Basic

/-!
# Scopes

Within a function a name stands for a binding. A scope is a stack of blocks, innermost first, and a
block holds its bindings newest first: looking a name up is then the first match in reading order,
so an inner binding hides an outer one and a later declaration hides an earlier one of its block.

Where a binding lives is abstract in `V`, the kind of value that the code being built computes with.
-/

set_option autoImplicit false

namespace Straightline

/-- Where the value of a binding is. -/
inductive Storage (V : Type) where
  /-- At this address, from which it has to be loaded. -/
  | slot (address : V)
  /-- It is this value, such as a parameter or the address of a model. -/
  | direct (value : V)
deriving DecidableEq, Repr

/-- A name with its type and its place. -/
structure Binding (V : Type) where
  name : String
  ty : Ty
  storage : Storage V
deriving DecidableEq, Repr

/-- The bindings of the innermost block, and those of the blocks around it. -/
structure Scope (V : Type) where
  bindings : List (Binding V) := []
  outer : List (List (Binding V)) := []
deriving DecidableEq, Repr

namespace Scope

variable {V : Type}

/-- A scope without bindings. -/
def root : Scope V := ⟨[], []⟩

/-- How many blocks enclose the innermost one. -/
def depth (s : Scope V) : Nat := s.outer.length

/-- Opens a block inside this one. -/
def push (s : Scope V) : Scope V := ⟨[], s.bindings :: s.outer⟩

/-- Closes the innermost block, unless it is the only one. -/
def pop (s : Scope V) : Scope V :=
  match s.outer with
  | [] => s
  | block :: outer => ⟨block, outer⟩

/-- Binds `name` in the innermost block. -/
def declare (s : Scope V) (name : String) (ty : Ty) (storage : Storage V) : Scope V :=
  { s with bindings := ⟨name, ty, storage⟩ :: s.bindings }

/-- The binding that `name` stands for. -/
def lookup (s : Scope V) (name : String) : Option (Binding V) :=
  (s.bindings ++ s.outer.flatten).find? fun binding => binding.name == name

end Scope

end Straightline
