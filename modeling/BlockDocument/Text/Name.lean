/-!
# Names

Names of roles, relations, content kinds and commands may be written in either case of the letters
from A to Z.
-/

namespace BlockDocument.Text

/-- The text with the letters from A to Z in lower case. -/
def lower (s : String) : String := String.ofList (s.toList.map Char.toLower)

/-- The text with the letters from a to z in upper case. -/
def upper (s : String) : String := String.ofList (s.toList.map Char.toUpper)

/-- Whether two names differ at most in the case of their letters. -/
def sameName (a b : String) : Bool := lower a == lower b

end BlockDocument.Text
