import BlockDocument.Number.Binary

/-!
# Decimal numbers

A decimal is a whole coefficient times a power of ten. This module writes decimals in positional and
in exponent form, reads the decimal literals of the command language, and rounds a decimal to the
nearest binary number.
-/

namespace BlockDocument.Number

-- Powers are those of the core library, whatever else is imported.
attribute [local instance (high)] instPowNat

/-- The number `coefficient · 10 ^ exponent`. -/
structure Decimal where
  /-- A whole number. -/
  coefficient : Nat
  /-- The power of ten. -/
  exponent : Int
  deriving DecidableEq, Repr

/-- The digits of a natural number, most significant first. -/
def digits (n : Nat) : List Char := Nat.toDigits 10 n

/-- The natural number that a list of digits denotes. -/
def ofDigits (cs : List Char) : Nat := Nat.ofDigitChars 10 cs 0

/-- The natural number that a list of digits denotes, if it is below a bound. Reading stops at the
digit that takes it beyond. -/
def below? (bound : Nat) (cs : List Char) : Option Nat :=
  cs.foldlM (fun n c =>
    let n := 10 * n + (c.toNat - '0'.toNat)
    if n < bound then some n else none) 0

namespace Decimal

/-- The position of the decimal point after the first digit: the number is at least
`10 ^ (point - 1)` and below `10 ^ point`. -/
def point (d : Decimal) : Int := (digits d.coefficient).length + d.exponent

/-- The number in positional form. A whole number ends in `whole`. -/
def positional (d : Decimal) (whole : List Char) : List Char :=
  let ds := digits d.coefficient
  let p := d.point
  if p ≤ 0 then '0' :: '.' :: (List.replicate (-p).toNat '0' ++ ds)
  else if ds.length ≤ p.toNat then ds ++ List.replicate (p.toNat - ds.length) '0' ++ whole
  else ds.take p.toNat ++ '.' :: ds.drop p.toNat

/-- The number in exponent form: one digit before the point, and a signed exponent. -/
def scientific (d : Decimal) : List Char :=
  let mantissa := match digits d.coefficient with
    | [] => []
    | [c] => [c]
    | c :: rest => c :: '.' :: rest
  let e := d.point - 1
  mantissa ++ 'e' :: (if e < 0 then '-' else '+') :: digits e.natAbs

/-- The number without trailing zeros in its coefficient. -/
def reduce : Nat → Decimal → Decimal
  | 0, d => d
  | fuel + 1, d =>
    if d.coefficient ≠ 0 ∧ d.coefficient % 10 = 0 then
      reduce fuel ⟨d.coefficient / 10, d.exponent + 1⟩
    else d

/-- The exact numerator and denominator. -/
def ratio (d : Decimal) : Nat × Nat :=
  if d.exponent < 0 then (d.coefficient, 10 ^ (-d.exponent).toNat)
  else (d.coefficient * 10 ^ d.exponent.toNat, 1)

end Decimal

/-- Decimals with a point beyond this position are infinite in every format of this library, and
those with a point as far on the other side are zero. -/
def pointBound : Nat := 400

/-- The nearest binary number to a decimal. -/
def Binary.ofDecimal {f : Format} (negative : Bool) (d : Decimal) : Binary f :=
  if d.coefficient = 0 then .finite negative .zero
  else if pointBound < d.point then .infinite negative
  else if d.point < -pointBound then .finite negative .zero
  else .nearest negative d.ratio.1 d.ratio.2

/-- The sign and the rest of a literal. -/
def splitSign : List Char → Bool × List Char
  | '-' :: cs => (true, cs)
  | '+' :: cs => (false, cs)
  | cs => (false, cs)

/-- Reads the part of a literal after its mantissa: nothing, or `e`, a sign and digits. -/
def exponentPart? : List Char → Option Int
  | [] => some 0
  | e :: cs =>
    let (negative, ds) := splitSign cs
    if (e == 'e' || e == 'E') && !ds.isEmpty && ds.all Char.isDigit then
      some (if negative then -(ofDigits ds : Int) else ofDigits ds)
    else none

/-- Reads an unsigned literal: digits with an optional point, at least one digit in all, and an
optional exponent. -/
def Decimal.parse? (cs : List Char) : Option Decimal :=
  let whole := cs.takeWhile Char.isDigit
  let rest := cs.dropWhile Char.isDigit
  let (fraction, rest) := match rest with
    | '.' :: rest => (rest.takeWhile Char.isDigit, rest.dropWhile Char.isDigit)
    | rest => ([], rest)
  if whole.isEmpty && fraction.isEmpty then none
  else (exponentPart? rest).map fun e => ⟨ofDigits (whole ++ fraction), e - fraction.length⟩

/-- The double nearest to a decimal literal with an optional sign. -/
def Double.parse? (cs : List Char) : Option Double :=
  let (negative, rest) := splitSign cs
  (Decimal.parse? rest).map (Binary.ofDecimal negative)

end BlockDocument.Number
