/-!
# Digits of base sixteen

Letters count as digits in either case; written digits are in lower case.
-/

namespace BlockDocument.Number

/-- The value of a digit of base sixteen. -/
def hexValue? (c : Char) : Option Nat :=
  if c.isDigit then some (c.toNat - '0'.toNat)
  else if 'a' ≤ c ∧ c ≤ 'f' then some (c.toNat - 'a'.toNat + 10)
  else if 'A' ≤ c ∧ c ≤ 'F' then some (c.toNat - 'A'.toNat + 10)
  else none

/-- The number that digits of base sixteen denote. -/
def hexNumber? (cs : List Char) : Option Nat :=
  cs.foldlM (fun n c => (hexValue? c).map (16 * n + ·)) 0

/-- The last digit of a number in base sixteen. -/
def hexDigit (n : Nat) : Char := Nat.digitChar (n % 16)

theorem hexValue?_hexDigit (n : Nat) : hexValue? (hexDigit n) = some (n % 16) := by
  have digit : ∀ i : Fin 16, hexValue? (Nat.digitChar i.val) = some i.val := by decide
  exact digit ⟨n % 16, Nat.mod_lt n (by decide)⟩

end BlockDocument.Number
