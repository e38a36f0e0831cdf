/-!
# Blank space

The characters with Unicode's property White_Space, and what is cut along them: the ends of a text
(`trim`) and the words between runs of blanks (`words`).
-/

namespace BlockDocument.Text

/-- Unicode's White_Space characters. -/
def isBlank (c : Char) : Bool :=
  let n := c.toNat
  (9 ≤ n && n ≤ 13) || n == 0x20 || n == 0x85 || n == 0xA0 || n == 0x1680 ||
    (0x2000 ≤ n && n ≤ 0x200A) || n == 0x2028 || n == 0x2029 || n == 0x202F || n == 0x205F ||
    n == 0x3000

/-- The text without the blanks at its start. -/
def trimStart (cs : List Char) : List Char := cs.dropWhile isBlank

/-- The text without the characters of a class at its end. -/
def dropEndWhile (p : Char → Bool) (cs : List Char) : List Char := (cs.reverse.dropWhile p).reverse

/-- The text without the blanks at its end. -/
def trimEnd (cs : List Char) : List Char := dropEndWhile isBlank cs

/-- The text without the blanks at its two ends. -/
def trim (cs : List Char) : List Char := trimEnd (trimStart cs)

/-- Puts a character before a cut text: a separator starts a new piece, any other character joins the
first one. -/
def splitStep (p : Char → Bool) (c : Char) : List (List Char) → List (List Char)
  | [] => if p c then [[], []] else [[c]]
  | piece :: pieces => if p c then [] :: piece :: pieces else (c :: piece) :: pieces

/-- Cuts the text at every character of a class. There is one more piece than there are cuts. -/
def splitWhere (p : Char → Bool) (cs : List Char) : List (List Char) :=
  cs.foldr (splitStep p) [[]]

/-- The pieces of a text between the occurrences of one character. -/
def splitAt (c : Char) (cs : List Char) : List (List Char) := splitWhere (· == c) cs

/-- The runs of characters that are not blank. -/
def words (cs : List Char) : List (List Char) := (splitWhere isBlank cs).filter (!·.isEmpty)

/-- The pieces, one after the other, with a separator between neighbours. -/
def join (separator : List Char) (pieces : List (List Char)) : List Char :=
  (pieces.intersperse separator).flatten

end BlockDocument.Text
