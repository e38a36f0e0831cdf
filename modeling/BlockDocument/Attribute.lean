import Std.Data.ExtTreeMap
import BlockDocument.Number.Shortest

/-!
# Attributes

Blocks and edges carry named attributes of three kinds: flags, numbers and texts.
-/

namespace BlockDocument

open BlockDocument.Number

/-- The value of an attribute. -/
inductive Attribute where
  | flag (b : Bool)
  | number (x : Double)
  | text (s : String)
  deriving DecidableEq

/-- Attributes by name. -/
abbrev Attributes := Std.ExtTreeMap String Attribute

namespace Attribute

/-- The characters of which the literal of a number is made. -/
def isNumeralChar (c : Char) : Bool :=
  c.isDigit || c == '.' || c == '-' || c == '+' || c == 'e' || c == 'E'

/-- The number that a literal denotes, if it is a finite one. -/
def number? (raw : List Char) : Option Double :=
  if raw.any Char.isDigit && raw.all isNumeralChar then
    (Double.parse? raw).filter Binary.isFinite
  else none

/-- The value of a bare word: a flag, a finite number, or else a text. -/
def ofLiteral (raw : String) : Attribute :=
  if raw = "true" then .flag true
  else if raw = "false" then .flag false
  else match number? raw.toList with
    | some x => .number x
    | none => .text raw

/-- The value as text. -/
def display : Attribute → String
  | flag true => "true"
  | flag false => "false"
  | number x => String.ofList x.text
  | text s => s

/-- The text of a text attribute. -/
def text? : Attribute → Option String
  | text s => some s
  | _ => none

end Attribute

end BlockDocument
