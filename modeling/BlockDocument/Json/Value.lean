import BlockDocument.Number.Hex
import BlockDocument.Number.Shortest

/-!
# JSON values

Values as they are kept and written. An object keeps its members in the order in which their keys
first came. Two layouts are written: compact, and indented by two spaces a level.
-/

namespace BlockDocument.Json

open BlockDocument.Number

/-- A number: an integer of at most 64 bits, or a binary number of either width. -/
inductive Number where
  | natural (n : Nat)
  /-- The integer `-n`. -/
  | negative (n : Nat)
  | double (x : Double)
  | single (x : Single)
  deriving DecidableEq

/-- A JSON value. -/
inductive Value where
  | null
  | bool (b : Bool)
  | number (n : Number)
  | string (s : String)
  | array (items : List Value)
  | object (members : List (String × Value))

/-- Where numbers with a fraction change from positional to exponent form: the position of the
decimal point is above `least` and at most `most` in positional form. -/
structure Layout where
  least : Int
  most : Int

/-- Doubles are positional from `10 ^ -5` up to below `10 ^ 16`. -/
def doubleLayout : Layout := ⟨-5, 16⟩

/-- Singles are positional from `10 ^ -6` up to below `10 ^ 13`. -/
def singleLayout : Layout := ⟨-6, 13⟩

/-- The text of a binary number: always with a point or an exponent, and `null` for what is not
finite. Halfway between two decimals the even one is written. -/
def binaryText {f : Format} (layout : Layout) : Binary f → List Char
  | .nan => "null".toList
  | .infinite _ => "null".toList
  | .finite negative x =>
    let sign := if negative then ['-'] else []
    let d := x.shortest .even
    if d.coefficient = 0 then sign ++ "0.0".toList
    else if layout.least < d.point ∧ d.point ≤ layout.most then sign ++ d.positional ['.', '0']
    else sign ++ d.scientific

/-- The text of a number. -/
def Number.text : Number → List Char
  | .natural n => digits n
  | .negative n => '-' :: digits n
  | .double x => binaryText doubleLayout x
  | .single x => binaryText singleLayout x

/-- A character as it is written between quotes. -/
def escapeChar (c : Char) : List Char :=
  if c = '"' then ['\\', '"']
  else if c = '\\' then ['\\', '\\']
  else if c = '\n' then ['\\', 'n']
  else if c = '\r' then ['\\', 'r']
  else if c = '\t' then ['\\', 't']
  else if c = '\x08' then ['\\', 'b']
  else if c = '\x0c' then ['\\', 'f']
  else if c.toNat < 0x20 then
    ['\\', 'u', '0', '0', hexDigit (c.toNat / 16), hexDigit c.toNat]
  else [c]

/-- A string between quotes. -/
def quote (s : String) : List Char := '"' :: (s.toList.flatMap escapeChar ++ ['"'])

namespace Value

mutual

/-- The value on one line, without blanks. -/
def compact : Value → List Char
  | null => "null".toList
  | bool true => "true".toList
  | bool false => "false".toList
  | number n => n.text
  | string s => quote s
  | array [] => ['[', ']']
  | array (v :: rest) => '[' :: (compact v ++ compactItems rest)
  | object [] => ['\x7b', '\x7d']
  | object ((key, v) :: rest) =>
    '\x7b' :: (quote key ++ ':' :: (compact v ++ compactMembers rest))

/-- The further items of an array and its end. -/
def compactItems : List Value → List Char
  | [] => [']']
  | v :: rest => ',' :: (compact v ++ compactItems rest)

/-- The further members of an object and its end. -/
def compactMembers : List (String × Value) → List Char
  | [] => ['\x7d']
  | (key, v) :: rest => ',' :: (quote key ++ ':' :: (compact v ++ compactMembers rest))

end

/-- The start of a line at a level of the indented layout. -/
def newLine (level : Nat) : List Char := '\n' :: List.replicate (2 * level) ' '

mutual

/-- The value with every item and member on a line of its own, two blanks deeper at each level. -/
def indented (level : Nat) : Value → List Char
  | array (v :: rest) =>
    '[' :: (newLine (level + 1) ++ indented (level + 1) v ++ indentedItems level rest)
  | object ((key, v) :: rest) =>
    '\x7b' :: (newLine (level + 1) ++ quote key ++ ':' :: ' ' ::
      (indented (level + 1) v ++ indentedMembers level rest))
  | array [] => ['[', ']']
  | object [] => ['\x7b', '\x7d']
  | null => "null".toList
  | bool true => "true".toList
  | bool false => "false".toList
  | number n => n.text
  | string s => quote s

/-- The further items of an array and its end. -/
def indentedItems (level : Nat) : List Value → List Char
  | [] => newLine level ++ [']']
  | v :: rest =>
    ',' :: (newLine (level + 1) ++ indented (level + 1) v ++ indentedItems level rest)

/-- The further members of an object and its end. -/
def indentedMembers (level : Nat) : List (String × Value) → List Char
  | [] => newLine level ++ ['\x7d']
  | (key, v) :: rest =>
    ',' :: (newLine (level + 1) ++ quote key ++ ':' :: ' ' ::
      (indented (level + 1) v ++ indentedMembers level rest))

end

/-- Whether the value is null. -/
def isNull : Value → Bool
  | null => true
  | _ => false

end Value

end BlockDocument.Json
