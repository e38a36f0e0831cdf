import BlockDocument.Number.Decimal
import BlockDocument.Text.Blank
import BlockDocument.Time.Instant

/-!
# Instants as text

An instant is written as RFC 3339 has it, in Universal Time, with as many groups of three fraction
digits as it needs. Reading is more tolerant: blanks may surround the numbers, numbers may be short,
and any offset may follow.
-/

namespace BlockDocument.Time

open BlockDocument.Number BlockDocument.Text

-- Powers are those of the core library, whatever else is imported.
attribute [local instance (high)] instPowNat

/-! ## Writing -/

/-- The digits of a number, filled up with zeros on the left. -/
def padded (width n : Nat) : List Char :=
  let ds := digits n
  List.replicate (width - ds.length) '0' ++ ds

/-- A year in four digits, or with a sign when it has another number of digits. -/
def yearText (year : Int) : List Char :=
  if 0 ≤ year ∧ year ≤ 9999 then padded 4 year.toNat
  else (if year < 0 then '-' else '+') :: padded 4 year.natAbs

/-- The fraction of a second in 0, 3, 6 or 9 digits. -/
def fractionText (nanos : Nat) : List Char :=
  if nanos = 0 then []
  else if nanos % 1000000 = 0 then '.' :: padded 3 (nanos / 1000000)
  else if nanos % 1000 = 0 then '.' :: padded 6 (nanos / 1000)
  else '.' :: padded 9 nanos

/-- Nanoseconds in a second. -/
def nanosPerSecond : Nat := 1000000000

/-- The instant in Universal Time. -/
def Instant.text (t : Instant) : List Char :=
  let d := t.date
  let s := t.secondOfDay
  let leap := t.nanos / nanosPerSecond
  yearText d.year ++ '-' :: padded 2 d.month ++ '-' :: padded 2 d.day ++
    'T' :: padded 2 (s / 3600) ++ ':' :: padded 2 (s / 60 % 60) ++ ':' :: padded 2 (s % 60 + leap) ++
    fractionText (t.nanos % nanosPerSecond) ++ ['Z']

/-! ## Reading -/

/-- Reads a number of at most `width` digits, after blanks. -/
def readNumber (width : Nat) (cs : List Char) : Option (Nat × List Char) :=
  let cs := trimStart cs
  let ds := (cs.take width).takeWhile Char.isDigit
  if ds.isEmpty then none else some (ofDigits ds, cs.drop ds.length)

/-- Reads a year: up to four digits, or a sign and any number of digits. -/
def readYear (cs : List Char) : Option (Int × List Char) :=
  let signed (cs : List Char) : Option (Nat × List Char) :=
    let ds := cs.takeWhile Char.isDigit
    if ds.isEmpty then none else some (ofDigits ds, cs.drop ds.length)
  match trimStart cs with
  | '-' :: rest => (signed rest).map fun (n, rest) => (-(n : Int), rest)
  | '+' :: rest => (signed rest).map fun (n, rest) => ((n : Int), rest)
  | cs => (readNumber 4 cs).map fun (n, rest) => ((n : Int), rest)

/-- Takes one character off the start of a text, after blanks. -/
def readMark (c : Char) (cs : List Char) : Option (List Char) :=
  match trimStart cs with
  | c' :: rest => if c' = c then some rest else none
  | [] => none

/-- Reads the fraction of a second, if there is one; digits beyond the ninth are dropped. -/
def readFraction : List Char → Option (Nat × List Char)
  | '.' :: rest =>
    let ds := rest.takeWhile Char.isDigit
    if ds.isEmpty then none
    else
      let kept := ds.take 9
      some (ofDigits kept * 10 ^ (9 - kept.length), rest.drop ds.length)
  | cs => some (0, cs)

/-- Reads the digits of an offset: two for the hours and two for the minutes, with colons and blanks
between them. The result counts seconds. -/
def readOffsetDigits : List Char → Option (Int × List Char)
  | h₁ :: h₂ :: rest =>
    match rest.dropWhile fun c => c == ':' || isBlank c with
    | m₁ :: m₂ :: rest =>
      if [h₁, h₂, m₁, m₂].all Char.isDigit && m₁ ≤ '5' then
        some ((ofDigits [h₁, h₂] * 3600 + ofDigits [m₁, m₂] * 60 : Nat), rest)
      else none
    | _ => none
  | _ => none

/-- The sign of subtraction, which may stand for a hyphen. -/
def minusSign : Char := '−'

/-- Reads an offset from Universal Time: `UTC`, `Z`, or a sign with hours and minutes. -/
def readOffset (cs : List Char) : Option (Int × List Char) :=
  if (cs.take 3).map Char.toUpper = ['U', 'T', 'C'] then some (0, cs.drop 3)
  else match cs with
    | c :: rest =>
      if c = 'Z' ∨ c = 'z' then some (0, rest)
      else if c = '+' then readOffsetDigits rest
      else if c = '-' ∨ c = minusSign then
        (readOffsetDigits rest).map fun (n, rest) => (-n, rest)
      else none
    | [] => none

/-- The years that instants can have. -/
def yearInRange (year : Int) : Bool := decide (-262143 ≤ year ∧ year ≤ 262142)

/-- The instant at a local date and time with an offset from Universal Time. The second after the
59th is a leap second. -/
def Instant.ofLocal? (d : Date) (hour minute second nanos : Nat) (offset : Int) : Option Instant :=
  let leap := if second = 60 then 1 else 0
  let clock : Nat := hour * 3600 + minute * 60 + (second - leap)
  let t : Instant := ⟨d.dayNumber * daySeconds + clock - offset, nanos + leap * nanosPerSecond⟩
  if d.isValid && hour < 24 && minute < 60 && second ≤ 60 && yearInRange d.year &&
      decide (offset.natAbs < daySeconds.toNat) && yearInRange t.date.year then
    some t
  else none

/-- The instant that a text denotes. -/
def Instant.parse? (cs : List Char) : Option Instant := do
  let (year, cs) ← readYear cs
  let cs ← readMark '-' cs
  let (month, cs) ← readNumber 2 cs
  let cs ← readMark '-' cs
  let (day, cs) ← readNumber 2 cs
  let cs ← match cs with
    | c :: rest => if c = 'T' ∨ c = 't' ∨ c = ' ' then some rest else none
    | [] => none
  let (hour, cs) ← readNumber 2 cs
  let cs ← readMark ':' cs
  let (minute, cs) ← readNumber 2 cs
  let cs ← readMark ':' cs
  let (second, cs) ← readNumber 2 cs
  let (nanos, cs) ← readFraction cs
  let (offset, cs) ← readOffset (trimStart cs)
  if (trimStart cs).isEmpty then
    Instant.ofLocal? ⟨year, month, day⟩ hour minute second nanos offset
  else none

end BlockDocument.Time
