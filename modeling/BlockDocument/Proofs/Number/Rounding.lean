import Mathlib
import BlockDocument.Number.Binary

/-!
# Rounding to the nearest number

What `Magnitude.nearest` is as a function of quotients: it answers for every quotient below the
point where the greatest number would have to be rounded up, what it answers is no farther above a
quotient than half a step of the grid, and it is monotone. All of this is about one equation,
`numerator_nearest`:
whatever the answer looks like, its value is the quotient rounded on the grid that the size of the
quotient sets.
-/

namespace BlockDocument.Number

-- Powers are those of the core library, whatever else is imported.
attribute [local instance (high)] instPowNat

/-! ## Whole numbers -/

theorem divideToEven_le_succ (num den : Nat) : divideToEven num den ≤ num / den + 1 := by
  rw [divideToEven]
  split <;> omega

theorem le_divideToEven (num den : Nat) : num / den ≤ divideToEven num den := by
  rw [divideToEven]
  split <;> omega

theorem divideToEven_mono {den num num' : Nat} (h : num ≤ num') :
    divideToEven num den ≤ divideToEven num' den := by
  rcases (Nat.div_le_div_right h : num / den ≤ num' / den).eq_or_lt with heq | hlt
  · -- the same whole part, so the remainders compare
    have hmod : num % den ≤ num' % den := by
      have h₁ := Nat.div_add_mod num den
      have h₂ := Nat.div_add_mod num' den
      rw [heq] at h₁
      omega
    simp only [divideToEven, heq]
    split <;> split <;> omega
  · exact (divideToEven_le_succ num den).trans (hlt.trans_le (le_divideToEven num' den))

/-- Rounding goes up by half a unit at most. -/
theorem le_half_divideToEven (num : Nat) {den : Nat} (hden : 0 < den) :
    2 * num ≤ (2 * divideToEven num den + 1) * den := by
  have hdiv := Nat.div_add_mod num den
  have hmod := Nat.mod_lt num hden
  have hmul : (2 * (num / den) + 1) * den = 2 * (den * (num / den)) + den := by ring
  have hmul' : (2 * (num / den + 1) + 1) * den = 2 * (den * (num / den)) + 3 * den := by ring
  simp only [divideToEven]
  split
  · omega
  · omega

/-- A quotient that is less than half a unit above a number is not rounded above it. -/
theorem divideToEven_le_of_lt {num den k : Nat} (h : 2 * num < (2 * k + 1) * den) :
    divideToEven num den ≤ k := by
  have hden : 0 < den := Nat.pos_of_mul_pos_left (Nat.zero_lt_of_lt h)
  have hdiv := Nat.div_add_mod num den
  have hle : num / den ≤ k := by
    by_contra hk
    have hmul : (k + 1) * den ≤ num / den * den := Nat.mul_le_mul_right _ (by omega)
    have : num / den * den ≤ num := Nat.div_mul_le_self num den
    have : (2 * k + 1) * den + den = 2 * ((k + 1) * den) := by ring
    omega
  rcases hle.eq_or_lt with heq | hlt
  · have hmul : (2 * k + 1) * den = 2 * (den * (num / den)) + den := by
      rw [heq]
      ring
    simp only [divideToEven]
    split <;> omega
  · exact (divideToEven_le_succ num den).trans hlt

namespace Magnitude

variable {f : Format} {num num' den : Nat}

/-- The scale of the grid on which a quotient is rounded. -/
def gridScale (f : Format) (num den : Nat) : Nat :=
  (num * 2 ^ f.bias / den).log2 + 1 - f.precision

/-- The significand on that grid; it may be too long by one bit, with zeros in all others. -/
def gridSignificand (f : Format) (num den : Nat) : Nat :=
  divideToEven (num * 2 ^ f.bias) (den * 2 ^ gridScale f num den)

theorem nearest_eq (num den : Nat) : (nearest num den : Option (Magnitude f)) =
    if gridSignificand f num den < 2 ^ f.precision then
      of? (gridSignificand f num den) (gridScale f num den)
    else of? (gridSignificand f num den / 2) (gridScale f num den + 1) := rfl

theorem of?_eq_some {significand scale : Nat} {x : Magnitude f} :
    of? significand scale = some x ↔ x.significand = significand ∧ x.scale = scale := by
  rw [of?]
  split
  · rename_i h
    constructor
    · rintro h'
      cases h'
      exact ⟨rfl, rfl⟩
    · rintro ⟨rfl, rfl⟩
      rfl
  · rename_i h
    constructor
    · rintro ⟨⟩
    · rintro ⟨rfl, rfl⟩
      exact absurd ⟨x.significand_lt, x.scale_le, x.normal⟩ h

/-- The whole part of the quotient fits the significand and a bit of room. -/
theorem gridQuotient_lt (num den : Nat) :
    num * 2 ^ f.bias / (den * 2 ^ gridScale f num den) < 2 ^ f.precision := by
  rw [← Nat.div_div_eq_div_mul, Nat.div_lt_iff_lt_mul (Nat.two_pow_pos _), ← pow_add]
  refine Nat.lt_log2_self.trans_le (Nat.pow_le_pow_right (by decide) ?_)
  rw [gridScale]
  omega

theorem gridSignificand_le (num den : Nat) : gridSignificand f num den ≤ 2 ^ f.precision :=
  (divideToEven_le_succ _ _).trans (gridQuotient_lt num den)

/-- Above the lowest scale no bit of the significand is wasted. -/
theorem le_gridSignificand (hp : 0 < f.precision) (hs : gridScale f num den ≠ 0) :
    2 ^ (f.precision - 1) ≤ gridSignificand f num den := by
  refine le_trans ?_ (le_divideToEven _ _)
  rw [← Nat.div_div_eq_div_mul, Nat.le_div_iff_mul_le (Nat.two_pow_pos _), ← pow_add]
  rw [gridScale] at hs ⊢
  have hq : num * 2 ^ f.bias / den ≠ 0 := by
    intro hzero
    rw [hzero, Nat.log2_zero] at hs
    omega
  have hlog : f.precision - 1 + ((num * 2 ^ f.bias / den).log2 + 1 - f.precision) ≤
      (num * 2 ^ f.bias / den).log2 := by
    generalize (num * 2 ^ f.bias / den).log2 = l at *
    omega
  exact (Nat.pow_le_pow_right (by decide) hlog).trans (Nat.log2_self_le hq)

/-- **Rounding in one equation**: the value of the answer is the quotient rounded on its grid. -/
theorem numerator_nearest (hp : 0 < f.precision) {x : Magnitude f} (h : nearest num den = some x) :
    x.numerator = gridSignificand f num den * 2 ^ gridScale f num den := by
  rw [nearest_eq] at h
  split at h
  · obtain ⟨hs, ht⟩ := of?_eq_some.mp h
    rw [numerator, hs, ht]
  · obtain ⟨hs, ht⟩ := of?_eq_some.mp h
    have hfull : gridSignificand f num den = 2 ^ (f.precision - 1) * 2 := by
      rw [← pow_succ, Nat.sub_add_cancel hp]
      exact (gridSignificand_le num den).antisymm (by omega)
    rw [numerator, hs, ht, hfull, Nat.mul_div_cancel _ (by decide), pow_succ', Nat.mul_assoc]

theorem gridScale_le {x : Magnitude f} (h : nearest num den = some x) :
    gridScale f num den ≤ f.topScale := by
  rw [nearest_eq] at h
  split at h
  · exact (of?_eq_some.mp h).2 ▸ x.scale_le
  · have := (of?_eq_some.mp h).2 ▸ x.scale_le
    omega

theorem gridScale_mono (h : num ≤ num') : gridScale f num den ≤ gridScale f num' den := by
  have hquotient : num * 2 ^ f.bias / den ≤ num' * 2 ^ f.bias / den :=
    Nat.div_le_div_right (Nat.mul_le_mul_right _ h)
  by_cases hzero : num * 2 ^ f.bias / den = 0
  · rw [gridScale, gridScale, hzero, Nat.log2_zero]
    omega
  · have hpos := (Nat.pos_of_ne_zero hzero).trans_le hquotient
    have hlog := (Nat.le_log2 hpos.ne').mpr ((Nat.log2_self_le hzero).trans hquotient)
    rw [gridScale, gridScale]
    omega

/-- Rounding respects the order. -/
theorem nearest_mono (hp : 0 < f.precision) (hle : num ≤ num') {x x' : Magnitude f}
    (h : nearest num den = some x) (h' : nearest num' den = some x') :
    x.numerator ≤ x'.numerator := by
  rw [numerator_nearest hp h, numerator_nearest hp h']
  have hscaled : num * 2 ^ f.bias ≤ num' * 2 ^ f.bias := Nat.mul_le_mul_right _ hle
  have hscale : gridScale f num den ≤ gridScale f num' den := gridScale_mono hle
  rcases hscale.eq_or_lt with heq | hlt
  · rw [gridSignificand, gridSignificand, heq]
    exact Nat.mul_le_mul_right _ (divideToEven_mono hscaled)
  · -- a coarser grid starts where the finer one ends
    calc gridSignificand f num den * 2 ^ gridScale f num den
        ≤ 2 ^ f.precision * 2 ^ gridScale f num den :=
          Nat.mul_le_mul_right _ (gridSignificand_le num den)
      _ = 2 ^ (f.precision - 1) * 2 ^ (gridScale f num den + 1) := by
          rw [← pow_add, ← pow_add]
          congr 1
          omega
      _ ≤ gridSignificand f num' den * 2 ^ gridScale f num' den :=
          Nat.mul_le_mul (le_gridSignificand hp (by omega)) (Nat.pow_le_pow_right (by decide) hlt)

/-- The grid of a quotient that is in range is none above the format's. -/
theorem gridScale_le_topScale (hp : 0 < f.precision)
    (h : 2 * (num * 2 ^ f.bias) < (2 ^ (f.precision + 1) - 1) * 2 ^ f.topScale * den) :
    gridScale f num den ≤ f.topScale := by
  have hden : 0 < den := Nat.pos_of_mul_pos_left (Nat.zero_lt_of_lt h)
  have hroom : (2 ^ (f.precision + 1) - 1) * 2 ^ f.topScale * den ≤
      2 * (2 ^ (f.precision + f.topScale) * den) :=
    calc (2 ^ (f.precision + 1) - 1) * 2 ^ f.topScale * den
        ≤ 2 ^ (f.precision + 1) * 2 ^ f.topScale * den :=
          Nat.mul_le_mul_right _ (Nat.mul_le_mul_right _ (Nat.sub_le _ _))
      _ = 2 * (2 ^ (f.precision + f.topScale) * den) := by
          rw [pow_succ, pow_add]
          ring
  have hquotient : num * 2 ^ f.bias / den < 2 ^ (f.precision + f.topScale) := by
    rw [Nat.div_lt_iff_lt_mul hden]
    exact Nat.lt_of_mul_lt_mul_left (h.trans_le hroom)
  by_cases hq : num * 2 ^ f.bias / den = 0
  · rw [gridScale, hq, Nat.log2_zero]
    omega
  · have hlog := (Nat.log2_lt hq).mpr hquotient
    rw [gridScale]
    omega

/-- On the format's topmost grid, what is in range is not rounded up to a bit too many. -/
theorem gridSignificand_lt_of_top
    (h : 2 * (num * 2 ^ f.bias) < (2 ^ (f.precision + 1) - 1) * 2 ^ f.topScale * den)
    (htop : gridScale f num den = f.topScale) : gridSignificand f num den < 2 ^ f.precision := by
  have hpred : 2 * (2 ^ f.precision - 1) + 1 = 2 ^ (f.precision + 1) - 1 := by
    have := Nat.two_pow_pos f.precision
    rw [pow_succ]
    omega
  refine Nat.lt_of_le_pred (Nat.two_pow_pos _) (divideToEven_le_of_lt ?_)
  rw [htop, Nat.pred_eq_sub_one, hpred]
  linarith

/-- **What is in range**: a quotient that is less than half a step above the greatest number is
rounded to a number. -/
theorem isSome_nearest (hp : 0 < f.precision)
    (h : 2 * (num * 2 ^ f.bias) < (2 ^ (f.precision + 1) - 1) * 2 ^ f.topScale * den) :
    (nearest num den : Option (Magnitude f)).isSome = true := by
  have hscale : gridScale f num den ≤ f.topScale := gridScale_le_topScale hp h
  rw [nearest_eq]
  split
  · rename_i hlt
    have hnormal : gridScale f num den = 0 ∨ 2 ^ (f.precision - 1) ≤ gridSignificand f num den :=
      (eq_or_ne _ 0).imp_right (le_gridSignificand hp)
    rw [of?, dif_pos ⟨hlt, hscale, hnormal⟩]
    rfl
  · rename_i hlong
    have hbelow : gridScale f num den ≠ f.topScale :=
      fun htop => hlong (gridSignificand_lt_of_top h htop)
    have hfull : gridSignificand f num den = 2 ^ f.precision :=
      (gridSignificand_le num den).antisymm (by omega)
    have hhalf : gridSignificand f num den / 2 = 2 ^ (f.precision - 1) := by
      rw [hfull, ← Nat.pow_div hp (by decide), Nat.pow_one]
    have hshort : 2 ^ (f.precision - 1) < 2 ^ f.precision :=
      Nat.pow_lt_pow_right (by decide) (by omega)
    rw [of?, hhalf, dif_pos ⟨hshort, by omega, .inr (Nat.le_refl _)⟩]
    rfl

/-- A quotient is at most half a step of the grid above what it is rounded to. -/
theorem le_of_nearest (hp : 0 < f.precision) (hden : 0 < den) {x : Magnitude f}
    (h : nearest num den = some x) :
    2 * (num * 2 ^ f.bias) ≤ (2 * x.numerator + 2 ^ gridScale f num den) * den := by
  rw [numerator_nearest hp h]
  have hstep : 0 < den * 2 ^ gridScale f num den := Nat.mul_pos hden (Nat.two_pow_pos _)
  calc 2 * (num * 2 ^ f.bias)
      ≤ (2 * gridSignificand f num den + 1) * (den * 2 ^ gridScale f num den) :=
        le_half_divideToEven _ hstep
    _ = _ := by ring

end Magnitude

end BlockDocument.Number
