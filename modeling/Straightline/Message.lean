/-!
# Words in messages

Every message of the library sets off the words that it quotes from a source or a module in the same
way.
-/

set_option autoImplicit false

namespace Straightline

/-- A word set off from the sentence around it. -/
def quoted (word : String) : String := "`" ++ word ++ "`"

end Straightline
