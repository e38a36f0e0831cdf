import BlockDocument.Attribute
import BlockDocument.Proofs.Number.Decimal

/-!
# The text of a number reads back

The shortest decimal is either one that was tried, and then it was seen to read back, or the exact
expansion. The expansion always reads back: rounding meets the number itself, and its point lies
within the bound up to which decimals are rounded at all.
-/

namespace BlockDocument.Number

theorem divideToEven_one (n : Nat) : divideToEven n 1 = n := by
  simp [divideToEven, Nat.mod_one]

namespace Magnitude

variable {f : Format}

theorem ratio_exact (x : Magnitude f) :
    x.exact.ratio = (x.numerator * 5 ^ f.bias, 10 ^ f.bias) := by
  rw [exact, Decimal.ratio]
  by_cases hb : f.bias = 0
  · simp [hb]
  · rw [if_pos (by simp only; omega)]
    simp

/-- The scale is what rounding makes it. -/
theorem scale_eq (x : Magnitude f) (hp : 0 < f.precision) :
    x.numerator.log2 + 1 - f.precision = x.scale := by
  by_cases hs : x.significand = 0
  · have hscale : x.scale = 0 := by
      rcases x.normal with h | h
      · exact h
      · have := Nat.two_pow_pos (f.precision - 1)
        omega
    rw [numerator, hs, hscale, Nat.zero_mul, Nat.log2_zero]
    omega
  have hnum : x.numerator ≠ 0 := Nat.mul_ne_zero hs (Nat.two_pow_pos _).ne'
  have hlt : x.numerator < 2 ^ (f.precision + x.scale) := by
    rw [numerator, Nat.pow_add]
    exact Nat.mul_lt_mul_of_pos_right x.significand_lt (Nat.two_pow_pos _)
  have hupper : x.numerator.log2 < f.precision + x.scale := (Nat.log2_lt hnum).mpr hlt
  rcases x.normal with h | h
  · omega
  · have hle : 2 ^ (f.precision - 1 + x.scale) ≤ x.numerator := by
      rw [numerator, Nat.pow_add]
      exact Nat.mul_le_mul_right _ h
    have hlower : f.precision - 1 + x.scale ≤ x.numerator.log2 := (Nat.le_log2 hnum).mpr hle
    omega

/-- Rounding the exact value gives the number. -/
theorem nearest_exact (x : Magnitude f) (hp : 0 < f.precision) :
    nearest x.exact.ratio.1 x.exact.ratio.2 = some x := by
  have hten : 5 ^ f.bias * 2 ^ f.bias = 10 ^ f.bias := by rw [← Nat.mul_pow]
  have hpos : 0 < 10 ^ f.bias := Nat.pow_pos (by decide)
  have hsig : divideToEven (x.numerator * 10 ^ f.bias) (10 ^ f.bias * 2 ^ x.scale) =
      x.significand := by
    have hk : 0 < 10 ^ f.bias * 2 ^ x.scale := Nat.mul_pos hpos (Nat.two_pow_pos _)
    have hnum : x.numerator * 10 ^ f.bias = 10 ^ f.bias * 2 ^ x.scale * x.significand := by
      rw [numerator]
      ring
    have hden : 10 ^ f.bias * 2 ^ x.scale = 10 ^ f.bias * 2 ^ x.scale * 1 := by rw [Nat.mul_one]
    rw [hnum]
    conv_lhs => arg 2; rw [hden]
    rw [divideToEven_mul_left hk, divideToEven_one]
  rw [ratio_exact, nearest]
  simp only [Nat.mul_assoc, hten, Nat.mul_div_cancel _ hpos, x.scale_eq hp, hsig,
    x.significand_lt, if_true]
  rw [of?, dif_pos ⟨x.significand_lt, x.scale_le, x.normal⟩]

/-- Zero has one magnitude. -/
theorem eq_zero_of_significand {x : Magnitude f} (h : x.significand = 0) : x = .zero := by
  obtain ⟨significand, scale, hlt, hle, hnormal⟩ := x
  obtain rfl : significand = 0 := h
  obtain rfl : scale = 0 := by
    rcases hnormal with hs | hs
    · exact hs
    · have := Nat.two_pow_pos (f.precision - 1)
      omega
  rfl

/-- Only what reads back is taken. -/
theorem readsBack_of_candidate? {ties : TieRule} {x : Magnitude f} {point : Int} {n : Nat}
    {d : Decimal} (h : x.candidate? ties point n = some d) : x.readsBack d = true := by
  simp only [candidate?] at h
  split_ifs at h
  all_goals
    cases h
    assumption

/-! ## Double precision -/

theorem coefficient_exact (x : Magnitude binary64) :
    x.exact.coefficient = x.numerator * 5 ^ 1074 := by
  have hbias : binary64.bias = 1074 := rfl
  rw [← hbias, exact]

-- Both bounds go by powers of ten that are close to a power of two or five, since the powers
-- themselves are too long to be compared digit by digit.

/-- How long the exact expansion of a double can be. -/
theorem coefficient_exact_lt (x : Magnitude binary64) :
    x.exact.coefficient < 10 ^ (50 * 8 + 1074) := by
  have hscale : x.scale ≤ 2045 := x.scale_le
  have hpower : 2 ^ x.scale ≤ 2 ^ 2045 := pow_le_pow_right₀ one_le_two hscale
  have hnumerator : x.numerator ≤ 2 ^ 53 * 2 ^ 2045 := by
    rw [numerator]
    exact Nat.mul_le_mul (Nat.le_of_lt x.significand_lt) hpower
  have hten (k : Nat) : 2 ^ k * 5 ^ k = 10 ^ k := (mul_pow 2 5 k).symm
  have hbase : 2 ^ 128 < 10 ^ 50 := by norm_num
  have hwhole : 2 ^ (128 * 8) < 10 ^ (50 * 8) := by
    rw [Nat.pow_mul, Nat.pow_mul]
    exact Nat.pow_lt_pow_left hbase (by decide)
  calc x.exact.coefficient ≤ 2 ^ 53 * 2 ^ 2045 * 5 ^ 1074 := by
        rw [coefficient_exact]
        exact Nat.mul_le_mul_right _ hnumerator
    _ = 2 ^ (128 * 8) * 10 ^ 1074 := by
      rw [← pow_add, show 53 + 2045 = 128 * 8 + 1074 from rfl, pow_add 2 (128 * 8), Nat.mul_assoc,
        hten]
    _ < 10 ^ (50 * 8) * 10 ^ 1074 :=
      Nat.mul_lt_mul_of_pos_right hwhole (pow_pos (by norm_num) _)
    _ = 10 ^ (50 * 8 + 1074) := (pow_add 10 (50 * 8) 1074).symm

/-- How short it can be. -/
theorem le_coefficient_exact {x : Magnitude binary64} (hx : x.significand ≠ 0) :
    10 ^ 673 ≤ x.exact.coefficient := by
  have hpos : 1 ≤ x.numerator := Nat.mul_pos (Nat.pos_of_ne_zero hx) (Nat.two_pow_pos _)
  have hbase : 10 ^ 7 ≤ 5 ^ 11 := by norm_num
  calc 10 ^ 673 ≤ 10 ^ (7 * 97) := pow_le_pow_right₀ (by norm_num) (by norm_num)
    _ = (10 ^ 7) ^ 97 := pow_mul 10 7 97
    _ ≤ (5 ^ 11) ^ 97 := Nat.pow_le_pow_left hbase _
    _ = 5 ^ (11 * 97) := (pow_mul 5 11 97).symm
    _ ≤ 5 ^ 1074 := pow_le_pow_right₀ (by norm_num) (by norm_num)
    _ ≤ x.numerator * 5 ^ 1074 := Nat.le_mul_of_pos_left _ hpos
    _ = x.exact.coefficient := (coefficient_exact x).symm

/-- The exact expansion of a double has its point within the bound. -/
theorem point_exact (x : Magnitude binary64) (hx : x.significand ≠ 0) :
    x.exact.point ≤ pointBound ∧ -pointBound ≤ x.exact.point := by
  have hpoint : x.exact.point = (digits x.exact.coefficient).length + -1074 := rfl
  have hle : (digits x.exact.coefficient).length ≤ 50 * 8 + 1074 :=
    (length_digits_le_iff (by decide)).mpr (coefficient_exact_lt x)
  have hge : ¬ (digits x.exact.coefficient).length ≤ 673 := fun h =>
    absurd ((length_digits_le_iff (by decide)).mp h) (Nat.not_lt.mpr (le_coefficient_exact hx))
  rw [hpoint, show (pointBound : Int) = 400 from rfl]
  omega

theorem ofDecimal_exact (x : Magnitude binary64) (hx : x.significand ≠ 0) :
    Binary.ofDecimal false x.exact = .finite false x := by
  obtain ⟨hle, hge⟩ := x.point_exact hx
  have hne : x.exact.coefficient ≠ 0 :=
    Nat.mul_ne_zero (Nat.mul_ne_zero hx (Nat.two_pow_pos _).ne') (Nat.pow_pos (by decide)).ne'
  rw [Binary.ofDecimal, if_neg hne, if_neg (by omega), if_neg (by omega), Binary.nearest,
    x.nearest_exact (by decide)]

/-- The shortest decimal reads back, whatever the rule for ties. -/
theorem ofDecimal_shortest (ties : TieRule) (x : Magnitude binary64) :
    Binary.ofDecimal false (x.shortest ties) = .finite false x := by
  rw [shortest]
  split
  · rename_i hx
    rw [eq_zero_of_significand hx]
    rfl
  · rename_i hx
    dsimp only
    rw [Binary.ofDecimal_reduce]
    cases hd : (List.range 17).findSome? fun n => x.candidate? ties x.point (n + 1) with
    | none => exact x.ofDecimal_exact hx
    | some d =>
      obtain ⟨n, -, hn⟩ := List.exists_of_findSome?_eq_some hd
      exact of_decide_eq_true (readsBack_of_candidate? hn)

end Magnitude

/-! ## Literals -/

/-- The text of a finite number is made of digits, a point and a sign, with a digit among them. -/
theorem Binary.text_chars {f : Format} {x : Binary f} (h : x.isFinite = true) :
    (∀ c ∈ x.text, c.isDigit = true ∨ c = '.' ∨ c = '-') ∧ ∃ c ∈ x.text, c.isDigit = true := by
  cases x with
  | nan => cases h
  | infinite negative => cases h
  | finite negative m =>
    obtain ⟨hchars, c, rest, hcons, hc⟩ := (m.shortest .away).positional_chars
    have hsign : ∀ c ∈ (if negative then ['-'] else []), c = '-' := by
      cases negative <;> simp
    rw [text]
    refine ⟨fun x hx => ?_, c, List.mem_append_right _ (by simp [hcons]), hc⟩
    rcases List.mem_append.mp hx with hx | hx
    · exact .inr (.inr (hsign x hx))
    · exact (hchars x hx).imp_right .inl

/-- **Numbers survive**: the text of a finite double is a literal for it. -/
theorem Double.parse?_text {x : Double} (h : x.isFinite = true) : Double.parse? x.text = some x := by
  cases x with
  | nan => cases h
  | infinite negative => cases h
  | finite negative m =>
    obtain ⟨-, c, rest, hcons, hc⟩ := (m.shortest .away).positional_chars
    obtain ⟨d, hd, hround⟩ := (m.shortest .away).parse?_positional
    have hsplit : splitSign (Binary.text (.finite negative m)) =
        (negative, (m.shortest .away).positional []) := by
      have hplus : c ≠ '+' := by rintro rfl; cases hc
      have hminus : c ≠ '-' := by rintro rfl; cases hc
      cases negative with
      | true => rfl
      | false =>
        rw [Binary.text, hcons]
        simp [splitSign, hplus, hminus]
    rw [parse?, hsplit]
    dsimp only
    rw [hd, Option.map_some, hround, Binary.ofDecimal_eq_finite (m.ofDecimal_shortest .away)]

end BlockDocument.Number

namespace BlockDocument.Attribute

open Number

/-- A finite number is its own literal. -/
theorem ofLiteral_text {x : Double} (h : x.isFinite = true) :
    ofLiteral (String.ofList x.text) = .number x := by
  obtain ⟨hchars, c, hmem, hc⟩ := Binary.text_chars h
  have hword {s : String} (hs : s.toList.any Char.isDigit = false) : String.ofList x.text ≠ s := by
    rintro rfl
    rw [String.toList_ofList] at hs
    exact absurd (List.any_eq_false.mp hs c hmem) (by simp [hc])
  have hnumber : number? x.text = some x := by
    have hany : x.text.any Char.isDigit = true := List.any_eq_true.mpr ⟨c, hmem, hc⟩
    have hall : x.text.all isNumeralChar = true := by
      refine List.all_eq_true.mpr fun c hc => ?_
      rcases hchars c hc with h | rfl | rfl <;> simp [isNumeralChar, *]
    rw [number?, hany, hall]
    simp [Double.parse?_text h, Option.filter, h]
  rw [ofLiteral, if_neg (hword (by decide)), if_neg (hword (by decide)), String.toList_ofList,
    hnumber]

/-- A literal never denotes a number that is not finite. -/
theorem isFinite_of_ofLiteral {raw : String} {x : Double} (h : ofLiteral raw = .number x) :
    x.isFinite = true := by
  rw [ofLiteral] at h
  split at h
  · cases h
  split at h
  · cases h
  split at h
  · rename_i y hy
    cases h
    rw [number?] at hy
    split at hy
    · exact (Option.filter_eq_some_iff.mp hy).2
    · cases hy
  · cases h

end BlockDocument.Attribute
