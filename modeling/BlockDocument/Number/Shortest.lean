import BlockDocument.Number.Decimal

/-!
# Shortest decimal text

The text of a binary number is the shortest decimal that reads back as the same number, and of those
the one nearest to it. `Magnitude.shortest` tries one digit, then two, and so on, and only takes a
decimal that reads back; the exact decimal expansion stands behind all of them. Where two decimals are
equally near, a rule decides.
-/

namespace BlockDocument.Number

-- Powers are those of the core library, whatever else is imported.
attribute [local instance (high)] instPowNat

/-- Which of two neighbouring decimals stands for the number halfway between them. -/
inductive TieRule where
  /-- The one farther from zero. -/
  | away
  /-- The one whose last digit is even. -/
  | even
  deriving DecidableEq, Repr

/-- Whether the lower of two neighbouring decimals is taken halfway between them. -/
def TieRule.takesLow (low : Decimal) : TieRule → Bool
  | away => false
  | even => low.coefficient % 2 == 0

namespace Magnitude

variable {f : Format}

/-- Whether a decimal rounds to the magnitude. -/
def readsBack (x : Magnitude f) (d : Decimal) : Bool :=
  decide (Binary.ofDecimal (f := f) false d = .finite false x)

/-- The exact value as a decimal: `1 / 2 ^ bias` is `5 ^ bias / 10 ^ bias`. -/
def exact (x : Magnitude f) : Decimal := ⟨x.numerator * 5 ^ f.bias, -f.bias⟩

/-- How many more tenfold steps than one take a fraction from below `unit` to `unit` or beyond. -/
def zerosBefore (unit : Nat) : Nat → Nat → Nat
  | 0, _ => 0
  | fuel + 1, num => if unit ≤ 10 * num then 0 else zerosBefore unit fuel (10 * num) + 1

/-- The position of the decimal point: a number of `n` digits before the point has it at `n`, and a
fraction with `n` zeros behind the point at `-n`. -/
def point (x : Magnitude f) : Int :=
  let whole := x.numerator / 2 ^ f.bias
  if whole = 0 then -(zerosBefore (2 ^ f.bias) f.bias x.numerator : Nat)
  else (digits whole).length

/-- The neighbour below on the grid of decimals with `n` digits and a given point, its remainder and
the grid's unit, both over the same denominator. -/
def below (x : Magnitude f) (point : Int) (n : Nat) : Decimal × Nat × Nat :=
  let exponent := point - n
  let num := x.numerator * 10 ^ (-exponent).toNat
  let den := 2 ^ f.bias * 10 ^ exponent.toNat
  (⟨num / den, exponent⟩, num % den, den)

/-- The decimal with a given point and at most `n` digits that reads back as the magnitude and is
nearest to it. -/
def candidate? (ties : TieRule) (x : Magnitude f) (point : Int) (n : Nat) : Option Decimal :=
  let (low, remainder, unit) := x.below point n
  let high : Decimal := ⟨low.coefficient + 1, low.exponent⟩
  let lowFirst := 2 * remainder < unit ∨ (2 * remainder = unit ∧ ties.takesLow low)
  let (first, second) := if lowFirst then (low, high) else (high, low)
  if x.readsBack first then some first
  else if x.readsBack second then some second
  else none

/-- The shortest decimal that reads back as the magnitude. -/
def shortest (ties : TieRule) (x : Magnitude f) : Decimal :=
  if x.significand = 0 then ⟨0, 0⟩
  else
    let point := x.point
    let d := ((List.range 17).findSome? fun n => x.candidate? ties point (n + 1)).getD x.exact
    d.reduce (digits d.coefficient).length

end Magnitude

/-- The text of a number in positional form, a whole number without a point. Halfway between two
decimals the one farther from zero is written. -/
def Binary.text {f : Format} : Binary f → List Char
  | .nan => ['N', 'a', 'N']
  | .infinite negative => (if negative then ['-'] else []) ++ ['i', 'n', 'f']
  | .finite negative x => (if negative then ['-'] else []) ++ (x.shortest .away).positional []

end BlockDocument.Number
