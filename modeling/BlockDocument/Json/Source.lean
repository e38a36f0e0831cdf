import BlockDocument.Json.Value

/-!
# JSON texts

The tree of a JSON text as it stands: numbers keep their digits, strings know whether their escapes
form characters, and repeated members stay. Reading a text (`Source.parse?`) only asks for its form.
What a value has to satisfy beyond that, the range of numbers, the nesting, and escapes that form
characters, is asked of the parts that are taken over as values (`Source.value?`).
-/

namespace BlockDocument.Json

open BlockDocument.Number

-- Powers are those of the core library, whatever else is imported.
attribute [local instance (high)] instPowNat

/-- A number as it is written. -/
structure Numeral where
  negative : Bool
  whole : List Char
  fraction : Option (List Char)
  /-- Whether the exponent is negative, and its digits. -/
  exponent : Option (Bool × List Char)

/-- The tree of a JSON text. A string is absent when an escape in it stands for half a character. -/
inductive Source where
  | null
  | bool (b : Bool)
  | number (n : Numeral)
  | string (s : Option String)
  | array (items : List Source)
  | object (members : List (Option String × Source))

/-! ## Reading -/

/-- The blanks that may stand between the tokens of a JSON text. -/
def isSpace (c : Char) : Bool := c == ' ' || c == '\n' || c == '\t' || c == '\r'

/-- The text without the blanks at its start. -/
def skipSpace (cs : List Char) : List Char := cs.dropWhile isSpace

/-- The number that four digits of base sixteen denote, and the rest. -/
def hexUnit? : List Char → Option (Nat × List Char)
  | a :: b :: c :: d :: rest => do
    let a ← hexValue? a
    let b ← hexValue? b
    let c ← hexValue? c
    let d ← hexValue? d
    pure (((a * 16 + b) * 16 + c) * 16 + d, rest)
  | _ => none

/-- The character of a one-letter escape. -/
def simpleEscape? : Char → Option Char
  | '"' => some '"'
  | '\\' => some '\\'
  | '/' => some '/'
  | 'b' => some '\x08'
  | 'f' => some '\x0c'
  | 'n' => some '\n'
  | 'r' => some '\r'
  | 't' => some '\t'
  | _ => none

/-- The character that a first and a second half form. -/
def combineHalves (high low : Nat) : Char :=
  Char.ofNat (0x10000 + (high - 0xD800) * 0x400 + (low - 0xDC00))

/-- What a numeric escape stands for, and the rest: a whole character, two halves of one written one
after the other, or nothing. -/
def unicodeEscape? (cs : List Char) : Option (Option Char × List Char) :=
  match hexUnit? cs with
  | none => none
  | some (high, rest) =>
    if high < 0xD800 ∨ 0xDFFF < high then some (some (Char.ofNat high), rest)
    else if 0xDC00 ≤ high then some (none, rest)
    else match rest with
      | '\\' :: 'u' :: rest' =>
        match hexUnit? rest' with
        | some (low, rest'') =>
          if 0xDC00 ≤ low ∧ low ≤ 0xDFFF then some (some (combineHalves high low), rest'')
          else some (none, rest)
        | none => some (none, rest)
      | _ => some (none, rest)

/-- Reads a string after its opening quote. The characters read so far are kept last first, as long
as all of them are characters. -/
def readString : Nat → Option (List Char) → List Char → Option (Option String × List Char)
  | _, read, '"' :: rest => some (read.map fun cs => String.ofList cs.reverse, rest)
  | fuel + 1, read, '\\' :: 'u' :: rest =>
    match unicodeEscape? rest with
    | some (c, rest) => readString fuel (read.bind fun cs => c.map (· :: cs)) rest
    | none => none
  | fuel + 1, read, '\\' :: e :: rest =>
    match simpleEscape? e with
    | some c => readString fuel (read.map (c :: ·)) rest
    | none => none
  | fuel + 1, read, c :: rest =>
    if c == '\\' || c.toNat < 0x20 then none else readString fuel (read.map (c :: ·)) rest
  | _, _, _ => none

/-- Reads the digits at the start of a text. There has to be one. -/
def readDigits (cs : List Char) : Option (List Char × List Char) :=
  let ds := cs.takeWhile Char.isDigit
  if ds.isEmpty then none else some (ds, cs.dropWhile Char.isDigit)

/-- Reads the exponent of a number, if it has one. -/
def readExponent : List Char → Option (Option (Bool × List Char) × List Char)
  | c :: rest =>
    if c == 'e' || c == 'E' then
      let (negative, rest) := splitSign rest
      (readDigits rest).map fun (ds, rest) => (some (negative, ds), rest)
    else some (none, c :: rest)
  | [] => some (none, [])

/-- Reads a number: no leading zeros, and a digit on both sides of a point. -/
def readNumeral (cs : List Char) : Option (Numeral × List Char) :=
  let (negative, cs) := match cs with
    | '-' :: rest => (true, rest)
    | cs => (false, cs)
  match readDigits cs with
  | none => none
  | some (whole, rest) =>
    if whole.head? = some '0' ∧ whole ≠ ['0'] then none
    else
      let fraction : Option (Option (List Char) × List Char) := match rest with
        | '.' :: rest => (readDigits rest).map fun (ds, rest) => (some ds, rest)
        | rest => some (none, rest)
      match fraction with
      | none => none
      | some (fraction, rest) =>
        (readExponent rest).map fun (exponent, rest) => (⟨negative, whole, fraction, exponent⟩, rest)

/-- Takes a word off the start of a text. -/
def readWord (word : List Char) (cs : List Char) : Option (List Char) :=
  if cs.take word.length = word then some (cs.drop word.length) else none

namespace Source

mutual

/-- Reads a value at the start of a text, after blanks. It may nest no deeper than `depth`. -/
def read : Nat → Nat → List Char → Option (Source × List Char)
  | 0, _, _ => none
  | fuel + 1, depth, cs =>
    match skipSpace cs with
    | '[' :: rest =>
      match depth, skipSpace rest with
      | 0, _ => none
      | _, ']' :: rest => some (array [], rest)
      | depth + 1, rest => readItems fuel depth [] rest
    | '\x7b' :: rest =>
      match depth, skipSpace rest with
      | 0, _ => none
      | _, '\x7d' :: rest => some (object [], rest)
      | depth + 1, rest => readMembers fuel depth [] rest
    | '"' :: rest => (readString fuel (some []) rest).map fun (s, rest) => (string s, rest)
    | 'n' :: rest => (readWord ['u', 'l', 'l'] rest).map fun rest => (null, rest)
    | 't' :: rest => (readWord ['r', 'u', 'e'] rest).map fun rest => (bool true, rest)
    | 'f' :: rest => (readWord ['a', 'l', 's', 'e'] rest).map fun rest => (bool false, rest)
    | rest => (readNumeral rest).map fun (n, rest) => (number n, rest)

/-- Reads the items of an array from the next one to the closing bracket. Those read so far are kept
last first. -/
def readItems : Nat → Nat → List Source → List Char → Option (Source × List Char)
  | 0, _, _, _ => none
  | fuel + 1, depth, done, cs =>
    match read fuel depth cs with
    | none => none
    | some (item, rest) =>
      match skipSpace rest with
      | ',' :: rest => readItems fuel depth (item :: done) rest
      | ']' :: rest => some (array (item :: done).reverse, rest)
      | _ => none

/-- Reads the members of an object from the next one to the closing brace. Those read so far are kept
last first. -/
def readMembers : Nat → Nat → List (Option String × Source) → List Char →
    Option (Source × List Char)
  | 0, _, _, _ => none
  | fuel + 1, depth, done, cs =>
    match skipSpace cs with
    | '"' :: rest =>
      match readString fuel (some []) rest with
      | none => none
      | some (key, rest) =>
        match skipSpace rest with
        | ':' :: rest =>
          match read fuel depth rest with
          | none => none
          | some (v, rest) =>
            match skipSpace rest with
            | ',' :: rest => readMembers fuel depth ((key, v) :: done) rest
            | '\x7d' :: rest => some (object ((key, v) :: done).reverse, rest)
            | _ => none
        | _ => none
    | _ => none

end

/-- The tree of a whole text, if it nests no deeper than `depth`. -/
def parse? (depth : Nat) (text : List Char) : Option Source :=
  match read (text.length + 1) depth text with
  | some (source, rest) => if (skipSpace rest).isEmpty then some source else none
  | none => none

end Source

/-! ## Numbers -/

/-- The least number beyond 64 bits. -/
def wordBound : Nat := 2 ^ (64 : Nat)

/-- Continues a significand with digits as long as it stays within 64 bits, and counts the digits
that are left. -/
def absorb : Nat → List Char → Nat × Nat
  | s, [] => (s, 0)
  | s, d :: ds =>
    let s' := s * 10 + (d.toNat - '0'.toNat)
    if s' < wordBound then absorb s' ds else (s, ds.length + 1)

/-- The double nearest to a power of ten. -/
def tenTo (k : Nat) : Magnitude binary64 := (Magnitude.nearest (10 ^ k) 1).getD .zero

/-- The greatest power of ten among the doubles. -/
def topTen : Nat := 308

/-- Divides by the power `10 ^ k`, in steps of the greatest power of ten, each step rounded. No
number of 64 bits is left after three of them. -/
def scaleDown : Nat → Magnitude binary64 → Nat → Magnitude binary64
  | 0, _, _ => .zero
  | fuel + 1, x, k =>
    if k ≤ topTen then
      (Magnitude.nearest x.numerator (tenTo k).numerator).getD .zero
    else
      scaleDown fuel ((Magnitude.nearest x.numerator (tenTo topTen).numerator).getD .zero)
        (k - topTen)

/-- The product of a significand and a power of ten: the significand and the power are rounded to
doubles, and so is their product. There is none beyond the range of doubles. -/
def scale? (significand : Nat) (exponent : Int) : Option (Magnitude binary64) :=
  (Magnitude.nearest significand 1).bind fun x =>
    if exponent < 0 then some (scaleDown 4 x (-exponent).toNat)
    else if exponent ≤ topTen then
      Magnitude.nearest (x.numerator * (tenTo exponent.toNat).numerator) (2 ^ (2 * binary64.bias))
    else if significand = 0 then some .zero
    else none

/-- Exponents are counted up to this one. -/
def exponentBound : Nat := 2 ^ (31 : Nat)

namespace Numeral

/-- The significand and the power of ten that its digits amount to, before an exponent. -/
def significand (n : Numeral) : Nat × Int :=
  let (s, skipped) := absorb 0 n.whole
  match n.fraction with
  | none => (s, skipped)
  | some ds =>
    let (s', unread) := absorb s ds
    (s', skipped - (ds.length - unread : Nat))

/-- The double that the number is read as: the first digits that fit 64 bits, times the power of ten
that they leave. -/
def double? (n : Numeral) : Option Double :=
  let (s, power) := n.significand
  let magnitude := match n.exponent with
    | none => scale? s power
    | some (negative, ds) =>
      match below? exponentBound ds with
      | some e => scale? s (if negative then power - e else power + e)
      | none => if s = 0 ∨ negative then some .zero else none
  magnitude.map (Binary.finite n.negative)

/-- The number's value: an integer where 64 bits suffice, and a double otherwise. The integer zero
has no negative, so `-0` is a double. -/
def value? (n : Numeral) : Option Number :=
  let word? := if n.fraction.isNone ∧ n.exponent.isNone then below? wordBound n.whole else none
  match word? with
  | some s =>
    if !n.negative then some (.natural s)
    else if s = 0 ∨ 2 ^ (63 : Nat) < s then some (.double (.negate (.ofNat s)))
    else some (.negative s)
  | none => n.double?.map .double

end Numeral

/-! ## Values -/

/-- Stores a member: a new key goes to the end, a known one keeps its place. -/
def putMember (key : String) (v : Value) : List (String × Value) → List (String × Value)
  | [] => [(key, v)]
  | (key', v') :: rest =>
    if key' = key then (key, v) :: rest else (key', v') :: putMember key v rest

namespace Source

mutual

/-- The value of a tree that nests no deeper than a bound, holds no number beyond the range of
doubles, and has characters for all its escapes. -/
def value? : Nat → Source → Option Value
  | _, null => some .null
  | _, bool b => some (.bool b)
  | _, number n => n.value?.map .number
  | _, string s => s.map .string
  | 0, array _ => none
  | depth + 1, array items => (values? depth [] items).map .array
  | 0, object _ => none
  | depth + 1, object members =>
    (entries? depth [] members).map fun es =>
      .object (es.foldl (fun ms e => putMember e.1 e.2 ms) [])

/-- The values of the items of an array. Those found so far are kept last first. -/
def values? : Nat → List Value → List Source → Option (List Value)
  | _, done, [] => some done.reverse
  | depth, done, item :: rest =>
    match value? depth item with
    | some v => values? depth (v :: done) rest
    | none => none

/-- The members of an object as they stand, repeated ones included. Those found so far are kept last
first. -/
def entries? : Nat → List (String × Value) → List (Option String × Source) →
    Option (List (String × Value))
  | _, done, [] => some done.reverse
  | _, _, (none, _) :: _ => none
  | depth, done, (some key, source) :: rest =>
    match value? depth source with
    | some v => entries? depth ((key, v) :: done) rest
    | none => none

end

end Source

/-- Values nest less deep than this. -/
def nestingBound : Nat := 128

/-- The value that a text denotes. -/
def Value.parse? (text : List Char) : Option Value :=
  (Source.parse? (nestingBound - 1) text).bind (Source.value? (nestingBound - 1))

end BlockDocument.Json
