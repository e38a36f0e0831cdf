/-!
# Binary floating-point numbers

The numbers of a binary interchange format as exact data: a finite number is a sign and a significand
times a power of two. Every rounding goes through `Magnitude.nearest`, which takes an exact quotient
of natural numbers to the nearest number of the format, a tie going to the even significand.
-/

namespace BlockDocument.Number

-- Powers are those of the core library, whatever else is imported.
attribute [local instance (high)] instPowNat

/-- A binary format. Its finite numbers are `significand · 2 ^ scale / 2 ^ bias`. -/
structure Format where
  /-- Bits of a significand. -/
  precision : Nat
  /-- The least positive number is `1 / 2 ^ bias`. -/
  bias : Nat
  /-- The greatest scale. -/
  topScale : Nat
  deriving DecidableEq, Repr

/-- Double precision. -/
def binary64 : Format := ⟨53, 1074, 2045⟩

/-- Single precision. -/
def binary32 : Format := ⟨24, 149, 253⟩

/-- The absolute value of a finite number. Only the lowest scale has short significands, so a value
has one representation. -/
structure Magnitude (f : Format) where
  /-- The significand, a whole number. -/
  significand : Nat
  /-- The power of two above the least one of the format. -/
  scale : Nat
  significand_lt : significand < 2 ^ f.precision
  scale_le : scale ≤ f.topScale
  normal : scale = 0 ∨ 2 ^ (f.precision - 1) ≤ significand
  deriving DecidableEq

/-- A number of a binary format. -/
inductive Binary (f : Format) where
  /-- Not a number. -/
  | nan
  /-- Infinity of either sign. -/
  | infinite (negative : Bool)
  /-- A finite number; zero has a sign too. -/
  | finite (negative : Bool) (magnitude : Magnitude f)
  deriving DecidableEq

/-- A number of double precision. -/
abbrev Double := Binary binary64

/-- A number of single precision. -/
abbrev Single := Binary binary32

/-- The quotient of two natural numbers, rounded to the nearest whole number, a tie to even. -/
def divideToEven (num den : Nat) : Nat :=
  let q := num / den
  let twice := 2 * (num % den)
  if den < twice ∨ (twice = den ∧ q % 2 = 1) then q + 1 else q

namespace Magnitude

variable {f : Format}

/-- The magnitude with a given significand and scale, if they are in the format's range. -/
def of? (significand scale : Nat) : Option (Magnitude f) :=
  if h : significand < 2 ^ f.precision ∧ scale ≤ f.topScale ∧
      (scale = 0 ∨ 2 ^ (f.precision - 1) ≤ significand) then
    some ⟨significand, scale, h.1, h.2.1, h.2.2⟩
  else none

/-- Zero. -/
def zero : Magnitude f := ⟨0, 0, Nat.two_pow_pos _, Nat.zero_le _, .inl rfl⟩

/-- The numerator of the exact value; its denominator is `2 ^ f.bias`. -/
def numerator (x : Magnitude f) : Nat := x.significand * 2 ^ x.scale

/-- The nearest magnitude to `num / den`, a tie to the even significand. There is none when the
quotient rounds beyond the greatest magnitude. -/
def nearest (num den : Nat) : Option (Magnitude f) :=
  let scaled := num * 2 ^ f.bias
  let scale := (scaled / den).log2 + 1 - f.precision
  let significand := divideToEven scaled (den * 2 ^ scale)
  if significand < 2 ^ f.precision then of? significand scale
  else of? (significand / 2) (scale + 1)

end Magnitude

namespace Binary

variable {f : Format}

/-- Positive zero. -/
def zero : Binary f := .finite false .zero

/-- The nearest number to `± num / den`, infinite beyond the format's range. -/
def nearest (negative : Bool) (num den : Nat) : Binary f :=
  match Magnitude.nearest num den with
  | some x => .finite negative x
  | none => .infinite negative

/-- The nearest number to a natural number. -/
def ofNat (n : Nat) : Binary f := nearest false n 1

/-- Whether the number is neither infinite nor NaN. -/
def isFinite : Binary f → Bool
  | .finite .. => true
  | _ => false

/-- The number with the opposite sign. -/
def negate : Binary f → Binary f
  | .nan => .nan
  | .infinite negative => .infinite !negative
  | .finite negative x => .finite (!negative) x

/-- The nearest number of another format. -/
def convert (g : Format) : Binary f → Binary g
  | .nan => .nan
  | .infinite negative => .infinite negative
  | .finite negative x => nearest negative x.numerator (2 ^ f.bias)

/-- The number kept between zero and one. A negative zero stays as it is. -/
def clampUnit : Binary f → Binary f
  | .nan => .nan
  | .infinite true => zero
  | .infinite false => ofNat 1
  | .finite true x => if x.numerator = 0 then .finite true x else zero
  | .finite false x => if 2 ^ f.bias < x.numerator then ofNat 1 else .finite false x

end Binary

end BlockDocument.Number
