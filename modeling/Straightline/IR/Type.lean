/-!
# Types of the intermediate representation

Integers of any width, pointers that know what they point to, and structures by name. The layout of
a structure is not part of its type: it is looked up in the module that declares it.
-/

set_option autoImplicit false

namespace Straightline

inductive IRType where
  | void
  /-- An integer of `bits` bits; one bit is a truth value. -/
  | int (bits : Nat)
  | ptr (pointee : IRType)
  /-- A structure that a module declares under `name`. -/
  | struct (name : String)
deriving DecidableEq, Repr, Inhabited

namespace IRType

def pointee? : IRType → Option IRType
  | ptr inner => some inner
  | _ => none

def isVoid : IRType → Bool
  | void => true
  | _ => false

def isInt : IRType → Bool
  | int _ => true
  | _ => false

def isStruct : IRType → Bool
  | struct _ => true
  | _ => false

/-- The written form: a pointer is its pointee with a star after it. -/
def text : IRType → String
  | void => "void"
  | int bits => s!"i{bits}"
  | ptr inner => inner.text ++ "*"
  | struct name => "%" ++ name

end IRType

end Straightline
