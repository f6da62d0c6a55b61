import Straightline.Source.Fault

/-!
# Ordered tables of names

A table keeps its entries in the order they were added and never changes that order, so an entry
can be spoken of by its index, and cutting a table back to an earlier length undoes exactly what
was added since. No name is added twice: `insert?` refuses it.
-/

set_option autoImplicit false

namespace Straightline

/-- Named items in the order of their insertion. -/
structure SymbolTable (α : Type) where
  entries : List (String × α) := []
deriving DecidableEq, Repr

namespace SymbolTable

variable {α : Type}

def empty : SymbolTable α := ⟨[]⟩

def size (t : SymbolTable α) : Nat := t.entries.length

def names (t : SymbolTable α) : List String := t.entries.map Prod.fst

/-- The place of `name` in the table. -/
def indexOf? (t : SymbolTable α) (name : String) : Option Nat :=
  t.entries.findIdx? fun entry => entry.1 == name

def find? (t : SymbolTable α) (name : String) : Option α :=
  (t.entries.find? fun entry => entry.1 == name).map Prod.snd

def contains (t : SymbolTable α) (name : String) : Bool :=
  t.entries.any fun entry => entry.1 == name

/-- Adds `item` at the end, unless `name` is taken. -/
def insert? (t : SymbolTable α) (name : String) (item : α) : Except Fault (SymbolTable α) :=
  if t.contains name then .error (.redefinition name)
  else .ok ⟨t.entries ++ [(name, item)]⟩

/-- Changes the item of `name` in place, if there is one. -/
def modify (t : SymbolTable α) (name : String) (change : α → α) : SymbolTable α :=
  match t.indexOf? name with
  | none => t
  | some index => ⟨t.entries.modify index fun entry => (entry.1, change entry.2)⟩

/-- Drops every entry after the first `size`. -/
def truncate (t : SymbolTable α) (size : Nat) : SymbolTable α := ⟨t.entries.take size⟩

end SymbolTable

end Straightline
