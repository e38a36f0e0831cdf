import BlockDocument.Number.Hex

/-!
# Block ids

A block is named by an id. Issued ids are `blk_` and twelve digits of base sixteen, which number the
ids from `0` to `maxSuffix`; a document that comes from elsewhere may use any text. Ids are ordered
like their texts, character by character.
-/

namespace BlockDocument

-- Powers are those of the core library, whatever else is imported.
attribute [local instance (high)] instPowNat

/-- The name of a block within its document. -/
structure BlockId where
  text : String
  deriving DecidableEq, Repr, Inhabited

namespace BlockId

instance : Ord BlockId := ⟨compareOn text⟩

instance : Std.TransOrd BlockId := inferInstanceAs (Std.TransCmp (compareOn text))

instance : Std.LawfulEqOrd BlockId where
  compare_self {a} := (Std.ReflCmp.compare_self : compare a.text a.text = .eq)
  eq_of_compare {a b} h :=
    congrArg mk (Std.LawfulEqOrd.eq_of_compare (h : compare a.text b.text = .eq))

instance : ToString BlockId := ⟨BlockId.text⟩

/-- What an issued id starts with. -/
def mark : List Char := ['b', 'l', 'k', '_']

/-- The number of digits of an issued id. -/
def digitCount : Nat := 12

/-- The greatest number that an issued id has room for. -/
def maxSuffix : Nat := 16 ^ digitCount - 1

/-- The digits of a number in base sixteen, filled up with zeros on the left. -/
def hexDigits (n : Nat) : List Char :=
  let ds := Nat.toDigits 16 n
  List.replicate (digitCount - ds.length) '0' ++ ds

/-- The id with a given number. -/
def ofSuffix (n : Nat) : BlockId := ⟨String.ofList (mark ++ hexDigits n)⟩

/-- Whether a character is a digit of an issued id. -/
def isHexDigit (c : Char) : Bool := c.isDigit || ('a' ≤ c && c ≤ 'f')

/-- The digits of an id that has the form of an issued one. -/
def suffixDigits? (id : BlockId) : Option (List Char) :=
  match id.text.toList with
  | 'b' :: 'l' :: 'k' :: '_' :: ds =>
    if ds.length = digitCount ∧ ds.all isHexDigit then some ds else none
  | _ => none

/-- Whether the id has the form of an issued one. -/
def isWellFormed (id : BlockId) : Bool := id.suffixDigits?.isSome

/-- The number of an id that has the form of an issued one. -/
def suffix? (id : BlockId) : Option Nat := id.suffixDigits?.bind Number.hexNumber?

end BlockId

end BlockDocument
