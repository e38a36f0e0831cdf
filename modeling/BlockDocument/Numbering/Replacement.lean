import BlockDocument.Content
import BlockDocument.Numbering.Basic
import BlockDocument.Numbering.Segment

/-!
# Ids and numbers in texts

Writes the numbers of blocks for their ids in the text of commands, and the other way round.
-/

namespace BlockDocument

namespace Numbering

/-- The digits that stand for an id. -/
def shortWord (n : Numbering) (word : List Char) : Option (List Char) :=
  (n.short? ⟨String.ofList word⟩).map Number.digits

/-- The id for which a word of digits stands. -/
def longWord (n : Numbering) (word : List Char) : Option (List Char) :=
  if word.all Char.isDigit then
    ((Number.below? Reference.bound word).bind n.long?).map fun id => id.text.toList
  else none

/-- The text with numbers for ids. -/
def shorten (n : Numbering) (text : String) : String :=
  String.ofList (replaceWords n.shortWord text.toList)

/-- The text with ids for numbers. -/
def expand (n : Numbering) (text : String) : String :=
  String.ofList (replaceWords n.longWord text.toList)

end Numbering

/-- Estimates of tokens of a text, as it stands and with numbers for ids. -/
structure Savings where
  unshortened : Nat
  shortened : Nat

/-- The tokens that numbers save, if any. -/
def Savings.saved (s : Savings) : Nat := s.unshortened - s.shortened

/-- What numbers save in a text. -/
def Numbering.savings (n : Numbering) (text : String) : Savings :=
  ⟨estimateTokens text, estimateTokens (n.shorten text)⟩

end BlockDocument
