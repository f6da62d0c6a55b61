import Straightline.Source.Fault

/-!
# Faults with their place

A reader fails where its cursor is. Code that works on what has been read names the offset itself.
-/

set_option autoImplicit false

namespace Straightline

/-- Why a unit is refused, and the offset at which that came out. -/
structure Refusal where
  fault : Fault
  offset : Nat
deriving DecidableEq, Repr

end Straightline
