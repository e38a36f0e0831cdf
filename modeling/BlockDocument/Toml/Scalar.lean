import BlockDocument.Number.Decimal
import BlockDocument.Number.Hex
import BlockDocument.Text.Blank
import BlockDocument.Time.Instant
import BlockDocument.Toml.Value

/-!
# TOML scalars

Strings in their four spellings, integers in four bases, and the other scalars. Lines are taken to
end in a line feed alone.
-/

namespace BlockDocument.Toml

open BlockDocument.Number

/-! ## Strings -/

/-- Reads the character with a number of so many digits. -/
def readCodePoint (width : Nat) (cs : List Char) : Option (Char × List Char) :=
  if cs.length < width then none
  else
    (hexNumber? (cs.take width)).bind fun n =>
      if h : n.isValidChar then some (Char.ofNatAux n h, cs.drop width) else none

/-- Reads an escape after its backslash. -/
def readEscape : List Char → Option (Char × List Char)
  | 'b' :: rest => some ('\x08', rest)
  | 't' :: rest => some ('\t', rest)
  | 'n' :: rest => some ('\n', rest)
  | 'f' :: rest => some ('\x0c', rest)
  | 'r' :: rest => some ('\r', rest)
  | 'e' :: rest => some ('\x1b', rest)
  | '"' :: rest => some ('"', rest)
  | '\\' :: rest => some ('\\', rest)
  | 'x' :: rest => readCodePoint 2 rest
  | 'u' :: rest => readCodePoint 4 rest
  | 'U' :: rest => readCodePoint 8 rest
  | _ => none

/-- The characters that may stand in strings and comments as they are. -/
def isPlain (c : Char) : Bool := c == '\t' || (0x20 ≤ c.toNat && c.toNat ≠ 0x7F)

/-- Reads a string on one line after its opening quote. -/
def readLine (quote : Char) : Nat → List Char → List Char → Option (String × List Char)
  | 0, _, _ => none
  | _, _, [] => none
  | fuel + 1, read, c :: rest =>
    if c = quote then some (String.ofList read.reverse, rest)
    else if c = '\\' ∧ quote = '"' then
      (readEscape rest).bind fun (e, rest) => readLine quote fuel (e :: read) rest
    else if isPlain c then readLine quote fuel (c :: read) rest
    else none

/-- The blanks within a line. -/
def isSpace (c : Char) : Bool := c == ' ' || c == '\t'

/-- The text after a backslash at the end of a line: blanks and ends of lines do not count. -/
def continued? (cs : List Char) : Option (List Char) :=
  match cs.dropWhile isSpace with
  | '\n' :: rest => some (rest.dropWhile fun c => isSpace c || c == '\n')
  | _ => none

/-- Reads a string over several lines after its opening quotes. Up to two quotes may stand before the
three that close it. -/
def readLines (quote : Char) : Nat → List Char → List Char → Option (String × List Char)
  | 0, _, _ => none
  | _, _, [] => none
  | fuel + 1, read, c :: rest =>
    if c = quote then
      let run := (rest.takeWhile (· == quote)).length + 1
      if run < 3 then
        readLines quote fuel (List.replicate run quote ++ read) (rest.drop (run - 1))
      else
        let extra := min (run - 3) 2
        some (String.ofList (read.reverse ++ List.replicate extra quote), rest.drop (extra + 2))
    else if c = '\\' ∧ quote = '"' then
      match continued? rest with
      | some rest => readLines quote fuel read rest
      | none => (readEscape rest).bind fun (e, rest) => readLines quote fuel (e :: read) rest
    else if isPlain c || c == '\n' then readLines quote fuel (c :: read) rest
    else none

/-- Reads a string after its first quote. -/
def readString (quote : Char) (fuel : Nat) : List Char → Option (String × List Char)
  | a :: b :: rest =>
    if a = quote ∧ b = quote then
      let rest := match rest with
        | '\n' :: rest => rest
        | rest => rest
      readLines quote fuel [] rest
    else readLine quote fuel [] (a :: b :: rest)
  | rest => readLine quote fuel [] rest

/-! ## Numbers

A number is first recognized by its form. The form of an integer is loose: what follows the first bar
may be almost anything, and a base may come without digits. A word of this form that no integer is
written as is a scalar all the same, only without a number.
-/

/-- Whether a character is a digit of a base. -/
def isDigitOf (base : Nat) (c : Char) : Bool := (hexValue? c).any (· < base)

/-- Whether every bar has a digit after it, and before it a digit or the sign. The flag says whether one
of these stands before the text. -/
def barsFit (isDigit : Char → Bool) : Bool → List Char → Bool
  | _, [] => true
  | before, c :: rest =>
    if c = '_' then before && rest.head?.any isDigit && barsFit isDigit false rest
    else barsFit isDigit (isDigit c) rest

/-- The text without its bars. -/
def withoutBars (cs : List Char) : List Char := cs.filter (· != '_')

/-- The number that digits of a base denote. There is at least one. -/
def natural? (base : Nat) (cs : List Char) : Option Nat :=
  if cs.isEmpty then none
  else cs.foldlM (fun n c => ((hexValue? c).filter (· < base)).map (base * n + ·)) 0

/-- Whether a text has the form of an integer after the mark of its base. -/
def hasBaseForm (base : Nat) (cs : List Char) : Bool :=
  cs.all (fun c => c == '_' || isDigitOf base c) && barsFit (isDigitOf base) false cs

/-- Whether a text has the form of a decimal integer after its sign: no zero in front, and no more than
digits up to the first bar. Behind it the letters of base sixteen count as digits, and no character of
a fraction or an exponent stands there. -/
def hasDecimalForm (signed : Bool) (cs : List Char) : Bool :=
  let rest := cs.dropWhile Char.isDigit
  !cs.isEmpty && (cs == ['0'] || cs.head? != some '0') && (rest.isEmpty || rest.head? == some '_') &&
    rest.all (fun c => c != '.' && c != 'e' && c != 'E') && barsFit (isDigitOf 16) signed cs

/-- Cuts a word at the first character of a class, which is dropped. -/
def cutAt (p : Char → Bool) (cs : List Char) : List Char × Option (List Char) :=
  match cs.dropWhile fun c => !p c with
  | [] => (cs, none)
  | _ :: rest => (cs.takeWhile fun c => !p c, some rest)

/-- Whether a text is digits, at least one, and bars. -/
def isDigitRun (cs : List Char) : Bool :=
  cs.all (fun c => c == '_' || c.isDigit) && cs.any Char.isDigit

/-- Whether a text is, after its sign, a number with a fraction or an exponent. Its whole part has no
zero in front. -/
def isFraction (signed : Bool) (cs : List Char) : Bool :=
  let (mantissa, exponent) := cutAt (fun c => c == 'e' || c == 'E') cs
  let (whole, fraction) := cutAt (· == '.') mantissa
  (fraction.isSome || exponent.isSome) && isDigitRun whole &&
    (whole.head? != some '0' || (withoutBars whole).length == 1) &&
    fraction.all isDigitRun && exponent.all (fun e => isDigitRun (splitSign e).2) &&
    barsFit Char.isDigit signed cs

/-! ## Dates and times -/

/-- Whether a text is so many digits that denote a number between two bounds. -/
def isNumberIn (width least most : Nat) (cs : List Char) : Bool :=
  cs.length == width && cs.all Char.isDigit && decide (least ≤ ofDigits cs ∧ ofDigits cs ≤ most)

/-- Whether a text is a date. -/
def isDate (cs : List Char) : Bool :=
  match Text.splitAt '-' cs with
  | [y, m, d] =>
    isNumberIn 4 0 9999 y && isNumberIn 2 1 12 m &&
      isNumberIn 2 1 (Time.monthLength (ofDigits y) (ofDigits m)) d
  | _ => false

/-- Whether a text is a time of day. The seconds may be absent. -/
def isClock (cs : List Char) : Bool :=
  let (clock, fraction) := cutAt (· == '.') cs
  match Text.splitAt ':' clock with
  | [h, m] => isNumberIn 2 0 23 h && isNumberIn 2 0 59 m && fraction.isNone
  | [h, m, s] =>
    isNumberIn 2 0 23 h && isNumberIn 2 0 59 m && isNumberIn 2 0 60 s &&
      fraction.all fun ds => !ds.isEmpty && ds.all Char.isDigit
  | _ => false

/-- Whether a text is an offset from Universal Time. -/
def isOffset : List Char → Bool
  | ['Z'] | ['z'] => true
  | sign :: rest => (sign == '+' || sign == '-') && rest.length == 5 && isClock rest
  | [] => false

/-- Whether a text is a time of day that an offset may follow. -/
def isClockWithOffset (cs : List Char) : Bool :=
  let isMark (c : Char) : Bool := c == 'Z' || c == 'z' || c == '+' || c == '-'
  let offset := cs.dropWhile fun c => !isMark c
  isClock (cs.takeWhile fun c => !isMark c) && (offset.isEmpty || isOffset offset)

/-- Whether a text is a date, a time, or both. -/
def isMoment (cs : List Char) : Bool :=
  match cutAt (fun c => c == 'T' || c == 't' || c == ' ') cs with
  | (date, some clock) => isDate date && isClockWithOffset clock
  | (word, none) => isDate word || isClock word

/-! ## Scalars without quotes -/

/-- The characters of scalars without quotes: all but blanks, ends of lines and the marks of arrays,
tables and comments. -/
def isScalarChar (c : Char) : Bool :=
  ['=', ',', '[', ']', '\x7b', '\x7d', '#', ' ', '\t', '\r', '\n'].all (· != c)

/-- Takes the text of a scalar without quotes. A blank may stand between a date and a time. -/
def takeScalar (cs : List Char) : List Char × List Char :=
  let word := cs.takeWhile isScalarChar
  match cs.dropWhile isScalarChar with
  | ' ' :: c :: rest =>
    if isDate word && c.isDigit then
      (word ++ ' ' :: (c :: rest).takeWhile isScalarChar, (c :: rest).dropWhile isScalarChar)
    else (word, ' ' :: c :: rest)
  | rest => (word, rest)

/-- An integer, or a word that only has the form of one. -/
def integerOr (word : List Char) : Option Int → Value
  | some n => .integer n
  | none => .other (String.ofList word)

/-- The scalar that is an integer of a base after its mark. -/
def scalarInBase? (base : Nat) (cs : List Char) : Option Value :=
  if hasBaseForm base cs then
    some (integerOr cs ((natural? base (withoutBars cs)).map Int.ofNat))
  else none

/-- The value of a scalar without quotes. Only decimal numbers have a sign. -/
def scalar? : List Char → Option Value
  | '0' :: 'x' :: cs => scalarInBase? 16 cs
  | '0' :: 'o' :: cs => scalarInBase? 8 cs
  | '0' :: 'b' :: cs => scalarInBase? 2 cs
  | word =>
    let (negative, cs) := splitSign word
    let signed := decide (cs.length < word.length)
    if hasDecimalForm signed cs then
      some (integerOr word ((natural? 10 (withoutBars cs)).map fun n =>
        if negative then -(n : Int) else n))
    else if word = "true".toList ∨ word = "false".toList ∨ cs = "inf".toList ∨ cs = "nan".toList ∨
        isFraction signed cs ∨ isMoment word then
      some (.other (String.ofList word))
    else none

end BlockDocument.Toml
