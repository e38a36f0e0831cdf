import BlockDocument.Proofs.Json.Numeral
import BlockDocument.Proofs.Number.Rounding
import BlockDocument.Proofs.Number.Shortest

/-!
# Numbers that are written are read

The text of every number that has one denotes a number. For integers this is plain. A binary number
is read as the product of a significand of 64 bits and a power of ten, each rounded, and the product
rounded again; what has to be seen is that none of these roundings leaves the range. Except for the
greatest double, the decimal that is written is at most half a step below the greatest double
(`safeBound`), and from there on rounding never reaches the end of the range. The greatest double is
looked at by itself.
-/

namespace BlockDocument.Number

-- Powers are those of the core library, whatever else is imported.
attribute [local instance (high)] instPowNat

/-- Half a step below the greatest double. -/
def safeBound : Nat := (2 ^ 54 - 3) * 2 ^ 970

/-- Whether a decimal is at most a natural number. -/
def Decimal.AtMost (d : Decimal) (n : Nat) : Prop := d.ratio.1 ≤ n * d.ratio.2

theorem Decimal.ratio_pos (d : Decimal) : 0 < d.ratio.2 := by
  rw [ratio]
  split
  · exact Nat.pow_pos (by decide)
  · exact Nat.one_pos

/-- Dropping zeros only shortens the quotient. -/
theorem Decimal.ratio_reduce (fuel : Nat) (d : Decimal) :
    ∃ m > 0, d.ratio = (m * (d.reduce fuel).ratio.1, m * (d.reduce fuel).ratio.2) := by
  induction fuel generalizing d with
  | zero => exact ⟨1, Nat.one_pos, by simp [reduce]⟩
  | succ fuel ih =>
    rw [reduce]
    split
    · rename_i h
      have hten : d.coefficient / 10 * 10 ^ 1 = d.coefficient := by omega
      obtain ⟨m, hm, hd⟩ := ratio_mul_pow (d.coefficient / 10) 1 d.exponent
      obtain ⟨m', hm', hd'⟩ := ih ⟨d.coefficient / 10, d.exponent + 1⟩
      rw [hten, Nat.cast_one, hd'] at hd
      exact ⟨m * m', Nat.mul_pos hm hm', by rw [hd, Nat.mul_assoc, Nat.mul_assoc]⟩
    · exact ⟨1, Nat.one_pos, by simp⟩

namespace Magnitude

variable {f : Format}

/-- A decimal that reads back as a number other than zero was rounded to it. -/
theorem nearest_of_ofDecimal {x : Magnitude f} (hx : x.significand ≠ 0) {d : Decimal}
    (h : Binary.ofDecimal false d = .finite false x) : nearest d.ratio.1 d.ratio.2 = some x := by
  have hzero (h : (Binary.finite false .zero : Binary f) = .finite false x) : False := by
    cases h
    exact hx rfl
  rw [Binary.ofDecimal] at h
  split_ifs at h
  · exact (hzero h).elim
  · exact (hzero h).elim
  · rw [Binary.nearest] at h
    cases hn : (nearest d.ratio.1 d.ratio.2 : Option (Magnitude f)) with
    | none =>
      rw [hn] at h
      cases h
    | some y =>
      rw [hn] at h
      cases h
      rfl

/-- The shortest decimal is less than a step of some grid of the format above the number. -/
theorem ratio_shortest_le (hp : 0 < f.precision) (ties : TieRule) {x : Magnitude f}
    (hx : x.significand ≠ 0) : ∃ t ≤ f.topScale,
      2 * ((x.shortest ties).ratio.1 * 2 ^ f.bias) ≤
        (2 * x.numerator + 2 ^ t) * (x.shortest ties).ratio.2 := by
  -- before zeros are dropped
  have hlong (d : Decimal) (hd : Binary.ofDecimal false d = .finite false x ∨ d = x.exact) :
      ∃ t ≤ f.topScale, 2 * (d.ratio.1 * 2 ^ f.bias) ≤ (2 * x.numerator + 2 ^ t) * d.ratio.2 := by
    rcases hd with hd | rfl
    · have hn := nearest_of_ofDecimal hx hd
      exact ⟨_, gridScale_le hn, le_of_nearest hp d.ratio_pos hn⟩
    · refine ⟨0, Nat.zero_le _, ?_⟩
      have hten : 5 ^ f.bias * 2 ^ f.bias = 10 ^ f.bias := by rw [← Nat.mul_pow]
      rw [ratio_exact, Nat.mul_assoc, hten, ← Nat.mul_assoc]
      exact Nat.mul_le_mul_right _ (Nat.le_add_right _ _)
  have hreduce (fuel : Nat) (d : Decimal)
      (hd : ∃ t ≤ f.topScale, 2 * (d.ratio.1 * 2 ^ f.bias) ≤ (2 * x.numerator + 2 ^ t) * d.ratio.2) :
      ∃ t ≤ f.topScale, 2 * ((d.reduce fuel).ratio.1 * 2 ^ f.bias) ≤
        (2 * x.numerator + 2 ^ t) * (d.reduce fuel).ratio.2 := by
    obtain ⟨t, ht, hle⟩ := hd
    obtain ⟨m, hm, hratio⟩ := d.ratio_reduce fuel
    refine ⟨t, ht, Nat.le_of_mul_le_mul_left ?_ hm⟩
    rw [hratio] at hle
    dsimp only at hle
    calc m * (2 * ((d.reduce fuel).ratio.1 * 2 ^ f.bias))
        = 2 * (m * (d.reduce fuel).ratio.1 * 2 ^ f.bias) := by ring
      _ ≤ (2 * x.numerator + 2 ^ t) * (m * (d.reduce fuel).ratio.2) := hle
      _ = m * ((2 * x.numerator + 2 ^ t) * (d.reduce fuel).ratio.2) := by ring
  rw [shortest, if_neg hx]
  refine hreduce _ _ (hlong _ ?_)
  cases hd : (List.range 17).findSome? fun n => x.candidate? ties x.point (n + 1) with
  | none => exact .inr rfl
  | some d =>
    obtain ⟨n, -, hn⟩ := List.exists_of_findSome?_eq_some hd
    exact .inl (of_decide_eq_true (readsBack_of_candidate? hn))

/-- The greatest double. -/
def top : Magnitude binary64 := ⟨2 ^ 53 - 1, 2045, by decide, by decide, by decide⟩

/-- Every other double is a step below it. -/
theorem numerator_le_of_ne_top {x : Magnitude binary64} (h : x ≠ top) :
    x.numerator ≤ (2 ^ 53 - 2) * 2 ^ binary64.topScale := by
  have hs : x.significand < 2 ^ 53 := x.significand_lt
  have ht : x.scale ≤ 2045 := x.scale_le
  rcases ht.eq_or_lt with heq | hlt
  · have hne : x.significand ≠ 2 ^ 53 - 1 := by
      intro hs'
      refine h ?_
      obtain ⟨significand, scale, _, _, _⟩ := x
      obtain rfl : scale = 2045 := heq
      obtain rfl : significand = 2 ^ 53 - 1 := hs'
      rfl
    have hle : x.significand ≤ 2 ^ 53 - 2 := by omega
    exact Nat.mul_le_mul hle (Nat.pow_le_pow_right (by decide) x.scale_le)
  · have hscale : x.scale ≤ binary64.topScale - 1 := by
      rw [show binary64.topScale = 2045 from rfl]
      omega
    calc x.numerator ≤ 2 ^ 53 * 2 ^ (binary64.topScale - 1) :=
          Nat.mul_le_mul hs.le (Nat.pow_le_pow_right (by decide) hscale)
      _ ≤ (2 ^ 53 - 2) * 2 ^ binary64.topScale := by decide +kernel

/-- The shortest decimal of a number that leaves room for a step of the coarsest grid. -/
theorem atMost_shortest (hp : 0 < f.precision) (ties : TieRule) {x : Magnitude f}
    (hx : x.significand ≠ 0) {n : Nat}
    (hroom : 2 * x.numerator + 2 ^ f.topScale ≤ 2 * 2 ^ f.bias * n) :
    (x.shortest ties).AtMost n := by
  obtain ⟨t, ht, hle⟩ := ratio_shortest_le hp ties hx
  have hstep : 2 * x.numerator + 2 ^ t ≤ 2 * 2 ^ f.bias * n :=
    (Nat.add_le_add_left (Nat.pow_le_pow_right (by decide) ht) _).trans hroom
  refine Nat.le_of_mul_le_mul_left ?_ (Nat.mul_pos Nat.two_pos (Nat.two_pow_pos f.bias))
  calc 2 * 2 ^ f.bias * (x.shortest ties).ratio.1
      = 2 * ((x.shortest ties).ratio.1 * 2 ^ f.bias) := by ring
    _ ≤ (2 * x.numerator + 2 ^ t) * (x.shortest ties).ratio.2 := hle
    _ ≤ 2 * 2 ^ f.bias * n * (x.shortest ties).ratio.2 := Nat.mul_le_mul_right _ hstep
    _ = 2 * 2 ^ f.bias * (n * (x.shortest ties).ratio.2) := Nat.mul_assoc ..

theorem atMost_shortest_double (ties : TieRule) {x : Magnitude binary64} (hx : x.significand ≠ 0)
    (h : x ≠ top) : (x.shortest ties).AtMost safeBound := by
  refine atMost_shortest (by decide) ties hx ?_
  refine (Nat.add_le_add_right (Nat.mul_le_mul_left 2 (numerator_le_of_ne_top h)) _).trans ?_
  decide +kernel

/-- Singles are far below the end of the range of doubles. -/
theorem atMost_shortest_single (ties : TieRule) {x : Magnitude binary32} (hx : x.significand ≠ 0) :
    (x.shortest ties).AtMost safeBound := by
  have hle : x.numerator ≤ 2 ^ 24 * 2 ^ 253 :=
    Nat.mul_le_mul x.significand_lt.le (Nat.pow_le_pow_right (by decide) x.scale_le)
  refine atMost_shortest (by decide) ties hx ?_
  refine (Nat.add_le_add_right (Nat.mul_le_mul_left 2 hle) _).trans ?_
  decide +kernel

end Magnitude

/-! ## Products -/

end BlockDocument.Number

namespace BlockDocument.Json

open BlockDocument.Number

-- Powers are those of the core library, whatever else is imported.
attribute [local instance (high)] instPowNat

/-- The greatest significand whose product with a power of ten is looked at. -/
def topSignificand (k : Nat) : Nat := min (wordBound - 1) (safeBound / 10 ^ k)

/-- Whether a product of two doubles is less than half a step above the greatest one. -/
def ProductFits (x y : Magnitude binary64) : Prop :=
  2 * (x.numerator * y.numerator * 2 ^ binary64.bias) <
    (2 ^ (binary64.precision + 1) - 1) * 2 ^ binary64.topScale * 2 ^ (2 * binary64.bias)

instance (x y : Magnitude binary64) : Decidable (ProductFits x y) :=
  inferInstanceAs (Decidable (_ < _))

/-- Whether the product of that significand and the power stays in range through all roundings. -/
def powerFits (k : Nat) : Bool :=
  (Magnitude.nearest (topSignificand k) 1).any fun x => decide (ProductFits x (tenTo k))

/-- Up to this power every significand of 64 bits is far from the end of the range. -/
def easyTen : Nat := 288

theorem powerFits_of_le {k : Nat} (h : easyTen ≤ k) (h' : k ≤ topTen) : powerFits k = true := by
  have hall : (List.range (topTen - easyTen + 1)).all (fun i => powerFits (easyTen + i)) = true := by
    decide +kernel
  have hk := List.all_eq_true.mp hall (k - easyTen)
    (List.mem_range.mpr (Nat.lt_succ_of_le (Nat.sub_le_sub_right h' _)))
  rwa [Nat.add_sub_cancel' h] at hk

theorem le_topSignificand {s k : Nat} (hs : s < wordBound) (h : s * 10 ^ k ≤ safeBound) :
    s ≤ topSignificand (max k easyTen) := by
  refine Nat.le_min.mpr ⟨Nat.le_pred_of_lt hs, ?_⟩
  rcases le_total k easyTen with hk | hk
  · rw [max_eq_right hk]
    exact (Nat.le_pred_of_lt hs).trans (by decide +kernel)
  · rw [max_eq_left hk]
    exact (Nat.le_div_iff_mul_le (Nat.pow_pos (by decide))).mpr h

theorem isSome_nearest_of_le {n : Nat} (h : n ≤ safeBound) :
    (Magnitude.nearest n 1 : Option (Magnitude binary64)).isSome = true := by
  refine Magnitude.isSome_nearest (by decide) ?_
  refine (Nat.mul_le_mul_left 2 (Nat.mul_le_mul_right _ h)).trans_lt ?_
  decide +kernel

theorem nearest_tenTo {k : Nat} (hk : k ≤ topTen) :
    (Magnitude.nearest (10 ^ k) 1 : Option (Magnitude binary64)) = some (tenTo k) := by
  have hle : 10 ^ k ≤ safeBound :=
    (Nat.pow_le_pow_right (by decide) hk).trans (by decide +kernel)
  obtain ⟨x, hx⟩ := Option.isSome_iff_exists.mp (isSome_nearest_of_le hle)
  rw [tenTo, hx]
  rfl

theorem ProductFits.isSome {x y : Magnitude binary64} (h : ProductFits x y) :
    (Magnitude.nearest (x.numerator * y.numerator) (2 ^ (2 * binary64.bias)) :
      Option (Magnitude binary64)).isSome = true :=
  Magnitude.isSome_nearest (by decide) h

theorem ProductFits.mono {x x' y y' : Magnitude binary64} (h : ProductFits x' y')
    (hx : x.numerator ≤ x'.numerator) (hy : y.numerator ≤ y'.numerator) : ProductFits x y :=
  lt_of_le_of_lt (Nat.mul_le_mul_left 2 (Nat.mul_le_mul_right _ (Nat.mul_le_mul hx hy))) h

/-- A significand and a power of ten whose product is at most half a step below the greatest
double. -/
theorem productFits_of_le {s k : Nat} (hs : s < wordBound) (hk : k ≤ topTen)
    (h : s * 10 ^ k ≤ safeBound) {x : Magnitude binary64} (hx : Magnitude.nearest s 1 = some x) :
    ProductFits x (tenTo k) := by
  have hl : max k easyTen ≤ topTen := max_le hk (by decide)
  obtain ⟨y, hy, hfits⟩ := (Option.any_eq_true _ _).mp (powerFits_of_le (le_max_right k easyTen) hl)
  refine (of_decide_eq_true hfits).mono ?_ ?_
  · exact Magnitude.nearest_mono (by decide) (le_topSignificand hs h) hx hy
  · exact Magnitude.nearest_mono (by decide) (Nat.pow_le_pow_right (by decide) (le_max_left _ _))
      (nearest_tenTo hk) (nearest_tenTo hl)

/-- **Scaling stays in range** for every product that is at most half a step below the greatest
double before rounding. -/
theorem isSome_scale? {s : Nat} {e : Int} (hs : s < wordBound)
    (h : 0 ≤ e → s * 10 ^ e.toNat ≤ safeBound) : (scale? s e).isSome = true := by
  have hsafe : s ≤ safeBound := hs.le.trans (by decide +kernel)
  obtain ⟨x, hx⟩ := Option.isSome_iff_exists.mp (isSome_nearest_of_le hsafe)
  rw [scale?, hx, Option.bind_some]
  split
  · rfl
  · rename_i he
    specialize h (by omega)
    split
    · rename_i hk
      exact (productFits_of_le hs (by omega) h hx).isSome
    · rename_i hk
      -- beyond the powers of ten among the doubles only zero is left
      have hpower : safeBound < 10 ^ e.toNat :=
        lt_of_lt_of_le (by decide +kernel : safeBound < 10 ^ (topTen + 1))
          (Nat.pow_le_pow_right (by decide) (by omega))
      have hzero : s = 0 := by
        by_contra hne
        have := Nat.le_mul_of_pos_left (10 ^ e.toNat) (Nat.pos_of_ne_zero hne)
        omega
      rw [if_pos hzero]
      rfl

/-! ## Significands -/

theorem ofDigitChars_eq (ds : List Char) (s : Nat) :
    Nat.ofDigitChars 10 ds s = s * 10 ^ ds.length + ofDigits ds := by
  rw [Nat.ofDigitChars_eq_ofDigitChars_zero, Nat.mul_comm s]
  rfl

/-- Digits that fit 64 bits are taken whole. -/
theorem absorb_eq {s : Nat} {ds : List Char} (h : Nat.ofDigitChars 10 ds s < wordBound) :
    absorb s ds = (Nat.ofDigitChars 10 ds s, 0) := by
  induction ds generalizing s with
  | nil => rfl
  | cons d ds ih =>
    rw [Nat.ofDigitChars_cons] at h ⊢
    have hstep : s * 10 + (d.toNat - '0'.toNat) = 10 * s + (d.toNat - '0'.toNat) := by omega
    have hle : 10 * s + (d.toNat - '0'.toNat) < wordBound := by
      refine lt_of_le_of_lt ?_ h
      rw [ofDigitChars_eq]
      exact (Nat.le_mul_of_pos_right _ (Nat.pow_pos (by decide))).trans (Nat.le_add_right _ _)
    rw [absorb]
    simp only [hstep, hle, if_true]
    exact ih h

/-- What is taken of the digits, with zeros for the others, is at most what they denote. -/
theorem absorb_le {s : Nat} (hs : s < wordBound) (ds : List Char) :
    (absorb s ds).1 < wordBound ∧ (absorb s ds).2 ≤ ds.length ∧
      (absorb s ds).1 * 10 ^ (absorb s ds).2 ≤ Nat.ofDigitChars 10 ds s := by
  induction ds generalizing s with
  | nil => exact ⟨hs, Nat.le_refl _, by simp [absorb]⟩
  | cons d ds ih =>
    rw [absorb]
    split
    · rename_i hlt
      obtain ⟨hbound, hlength, hle⟩ := ih hlt
      refine ⟨hbound, hlength.trans (Nat.le_succ _), hle.trans ?_⟩
      rw [Nat.ofDigitChars_cons, Nat.mul_comm 10 s]
    · refine ⟨hs, Nat.le_refl _, ?_⟩
      rw [ofDigitChars_eq]
      exact Nat.le_add_right _ _

theorem ofDigits_lt {ds : List Char} (h : ∀ c ∈ ds, c.isDigit = true) :
    ofDigits ds < 10 ^ ds.length := by
  induction ds using List.reverseRecOn with
  | nil => decide
  | append_singleton ds c ih =>
    obtain ⟨i, hi, rfl⟩ :=
      exists_digitChar (h c (List.mem_append_right _ (List.mem_singleton_self c)))
    have hc : ofDigits [Nat.digitChar i] = i := by
      rw [← Nat.toDigits_of_lt_base (b := 10) hi]
      exact ofDigits_digits i
    have hds := ih fun a ha => h a (List.mem_append_left _ ha)
    rw [ofDigits_append, hc, List.length_append, List.length_singleton, Nat.pow_one, Nat.pow_succ]
    omega

namespace Numeral

/-- The digits of the fraction, if there is one. -/
def fractionDigits (m : Numeral) : List Char := m.fraction.getD []

/-- What is read of a numeral whose whole part fits 64 bits: some of its digits, those of the whole
part among them. -/
theorem significand_spec {m : Numeral} (h : ofDigits m.whole < wordBound) :
    ∃ s unread, m.significand = (s, -((m.fractionDigits.length - unread : Nat) : Int)) ∧
      s < wordBound ∧ unread ≤ m.fractionDigits.length ∧
      s * 10 ^ unread ≤ ofDigits (m.whole ++ m.fractionDigits) := by
  have hwhole : absorb 0 m.whole = (ofDigits m.whole, 0) := absorb_eq h
  obtain ⟨hbound, hlength, hle⟩ := absorb_le h m.fractionDigits
  refine ⟨_, _, ?_, hbound, hlength, ?_⟩
  · rw [significand, hwhole, fractionDigits]
    cases m.fraction with
    | none => rfl
    | some ds => simp
  · exact hle.trans_eq (Nat.ofDigitChars_append ..).symm

/-- A numeral without an exponent has at most 64 bits of a significand and no power of ten to
multiply with. -/
theorem isSome_double?_of_exponent_eq {m : Numeral} (h : ofDigits m.whole < wordBound)
    (he : m.exponent = none) : m.double?.isSome = true := by
  obtain ⟨s, unread, hsig, hs, -, -⟩ := significand_spec h
  have hscale : (scale? s (-((m.fractionDigits.length - unread : Nat) : Int))).isSome = true := by
    refine isSome_scale? hs fun hpower => ?_
    rw [Int.toNat_of_nonpos (by omega), Nat.pow_zero, Nat.mul_one]
    exact hs.le.trans (by decide +kernel)
  rw [double?, hsig, he, Option.isSome_map]
  exact hscale

end Numeral

end BlockDocument.Json

namespace BlockDocument.Number.Decimal

/-- What is at most the coefficient, with zeros for the digits left out, keeps the decimal's bound. -/
theorem AtMost.scaled {d : Decimal} {n s u : Nat} (h : d.AtMost n) (hs : s * 10 ^ u ≤ d.coefficient)
    (hu : 0 ≤ (u : Int) + d.exponent) : s * 10 ^ ((u : Int) + d.exponent).toNat ≤ n := by
  rw [AtMost, ratio] at h
  split at h
  · -- the power of ten is taken out of the zeros
    have hsplit : 10 ^ u = 10 ^ ((u : Int) + d.exponent).toNat * 10 ^ (-d.exponent).toNat := by
      rw [← Nat.pow_add]
      congr 1
      omega
    rw [hsplit, ← Nat.mul_assoc] at hs
    exact Nat.le_of_mul_le_mul_right (hs.trans h) (Nat.pow_pos (by decide))
  · have hsplit : ((u : Int) + d.exponent).toNat = u + d.exponent.toNat := by omega
    rw [hsplit, Nat.pow_add, ← Nat.mul_assoc]
    exact (Nat.mul_le_mul_right _ hs).trans (h.trans_eq (Nat.mul_one n))

end BlockDocument.Number.Decimal

namespace BlockDocument.Json

open BlockDocument.Number

-- Powers are those of the core library, whatever else is imported.
attribute [local instance (high)] instPowNat

theorem pow_length_digits_le {n : Nat} (hn : n ≠ 0) : 10 ^ ((digits n).length - 1) ≤ n := by
  by_cases hone : (digits n).length - 1 = 0
  · rw [hone]
    exact Nat.pos_of_ne_zero hn
  · by_contra hlt
    have := (length_digits_le_iff (by omega)).mpr (Nat.lt_of_not_le hlt)
    omega

/-- The exponent of a decimal within the range of doubles is small. -/
theorem point_le_of_atMost {d : Decimal} (hd : d.coefficient ≠ 0) (h : d.AtMost safeBound) :
    d.point - 1 ≤ topTen := by
  have hpos : 0 < (digits d.coefficient).length := List.length_pos_iff.mpr (digits_ne_nil _)
  have hpt : d.point = (digits d.coefficient).length + d.exponent := rfl
  by_contra hlt
  have hle := h.scaled (s := 1) (u := (digits d.coefficient).length - 1)
    (by rw [Nat.one_mul]; exact pow_length_digits_le hd) (by omega)
  have hpower : 10 ^ (topTen + 1) ≤ safeBound := by
    refine (Nat.pow_le_pow_right (by decide) ?_).trans ((Nat.one_mul _).symm.le.trans hle)
    omega
  exact absurd hpower (by decide +kernel)

theorem fractionDigits_scientificNumeral (negative : Bool) (d : Decimal) :
    (scientificNumeral negative d).fractionDigits = (digits d.coefficient).drop 1 := by
  rw [Numeral.fractionDigits, scientificNumeral]
  split
  · rename_i hone
    exact (List.drop_eq_nil_of_le hone).symm
  · rfl

/-- There is one digit before the point. -/
theorem ofDigits_whole_scientificNumeral_lt (negative : Bool) (d : Decimal) :
    ofDigits (scientificNumeral negative d).whole < wordBound := by
  refine (ofDigits_lt fun c hc => isDigit_of_mem_digits (List.mem_of_mem_take hc)).trans_le ?_
  exact (Nat.pow_le_pow_right (by decide) (List.length_take_le _ _)).trans (by decide +kernel)

/-- What is read of the digits of a decimal within the range of doubles is in range with the decimal's
power of ten. -/
theorem significand_scientificNumeral (negative : Bool) {d : Decimal} (h : d.AtMost safeBound) :
    ∃ s power, (scientificNumeral negative d).significand = (s, power) ∧
      (scale? s (power + (d.point - 1))).isSome = true := by
  have hpos : 0 < (digits d.coefficient).length := List.length_pos_iff.mpr (digits_ne_nil _)
  have hpt : d.point = (digits d.coefficient).length + d.exponent := rfl
  obtain ⟨s, unread, hsig, hs, hlength, hle⟩ :=
    Numeral.significand_spec (ofDigits_whole_scientificNumeral_lt negative d)
  rw [fractionDigits_scientificNumeral, List.length_drop] at hsig hlength
  rw [fractionDigits_scientificNumeral,
    show (scientificNumeral negative d).whole = (digits d.coefficient).take 1 from rfl,
    List.take_append_drop, ofDigits_digits] at hle
  refine ⟨s, _, hsig, isSome_scale? hs fun h0 => ?_⟩
  -- the digits that were not read stand for as many powers of ten
  have hpower : -(((digits d.coefficient).length - 1 - unread : Nat) : Int) + (d.point - 1) =
      unread + d.exponent := by omega
  rw [hpower] at h0 ⊢
  exact h.scaled hle h0

theorem isSome_double?_scientific (negative : Bool) {d : Decimal} (hd : d.coefficient ≠ 0)
    (h : d.AtMost safeBound) : (scientificNumeral negative d).double?.isSome = true := by
  obtain ⟨s, power, hsig, hscale⟩ := significand_scientificNumeral negative h
  have hexponent : (scientificNumeral negative d).exponent =
      some (decide (d.point - 1 < 0), digits (d.point - 1).natAbs) := rfl
  rw [Numeral.double?, hsig, hexponent, Option.isSome_map]
  dsimp only
  cases hbelow : below? exponentBound (digits (d.point - 1).natAbs) with
  | some k =>
    obtain rfl : (d.point - 1).natAbs = k := by
      rw [← ofDigits_of_below? hbelow, ofDigits_digits]
    have hsign : (if decide (d.point - 1 < 0) = true then power - ((d.point - 1).natAbs : Int)
        else power + ((d.point - 1).natAbs : Int)) = power + (d.point - 1) := by
      simp only [decide_eq_true_eq]
      split <;> omega
    rw [← hsign] at hscale
    exact hscale
  | none =>
    by_cases hneg : d.point - 1 < 0
    · dsimp only
      rw [if_pos (.inr (decide_eq_true hneg))]
      rfl
    · -- an exponent that is too long to be read belongs to no decimal in range
      have hsmall := point_le_of_atMost hd h
      have hshort : (d.point - 1).natAbs < exponentBound := by
        have : topTen < exponentBound := by decide
        omega
      rw [below?_digits hshort] at hbelow
      cases hbelow

/-! ## Numbers -/

namespace Numeral

/-- A numeral with a fraction or an exponent is read as a double. -/
theorem value?_eq_double? {m : Numeral} (h : m.fraction.isSome = true ∨ m.exponent.isSome = true) :
    m.value? = m.double?.map .double := by
  have hword : ¬ (m.fraction.isNone = true ∧ m.exponent.isNone = true) := by
    rintro ⟨hf, he⟩
    rcases h with h | h
    · rw [Option.isNone_iff_eq_none.mp hf] at h
      cases h
    · rw [Option.isNone_iff_eq_none.mp he] at h
      cases h
  rw [value?, if_neg hword]

/-- An integer of at most 64 bits is read. -/
theorem value?_whole (negative : Bool) {n : Nat} (hn : n < wordBound) :
    value? ⟨negative, digits n, none, none⟩ =
      if !negative then some (.natural n)
      else if n = 0 ∨ 2 ^ (63 : Nat) < n then some (.double (.negate (.ofNat n)))
      else some (.negative n) := by
  rw [value?]
  simp only [Option.isNone_none, and_self, if_true, below?_digits hn]

theorem value?_natural {n : Nat} (hn : n < wordBound) :
    value? ⟨false, digits n, none, none⟩ = some (.natural n) := value?_whole false hn

end Numeral

/-- The numbers that JSON values can hold: their integers have at most 64 bits. -/
def Number.Ranged : Number → Prop
  | .natural n => n < wordBound
  | .negative n => n < wordBound
  | .double _ => True
  | .single _ => True

section Binary

variable {f : Format} {layout : Layout}

theorem isSome_double?_positional (negative : Bool) {d : Decimal} (h : d.point ≤ 16) :
    (positionalNumeral negative d).double?.isSome = true := by
  have hshort {ds : List Char} (hds : ∀ c ∈ ds, c.isDigit = true) (hlength : ds.length ≤ 16) :
      ofDigits ds < wordBound :=
    (ofDigits_lt hds).trans_le ((Nat.pow_le_pow_right (by decide) hlength).trans (by decide +kernel))
  have hdigits : ∀ c ∈ digits d.coefficient, c.isDigit = true := fun _ => isDigit_of_mem_digits
  refine Numeral.isSome_double?_of_exponent_eq ?_ ?_
  · rw [positionalNumeral]
    split
    · exact hshort (fun _ => Decimal.isDigit_of_mem_zeros (n := 1)) (show 1 ≤ 16 by decide)
    · split
      · refine hshort (fun c hc => ?_) (by rw [List.length_append, List.length_replicate]; omega)
        rcases List.mem_append.mp hc with hc | hc
        · exact hdigits c hc
        · exact Decimal.isDigit_of_mem_zeros hc
      · exact hshort (fun c hc => hdigits c (List.mem_of_mem_take hc))
          (by rw [List.length_take]; omega)
  · rw [positionalNumeral]
    split
    · rfl
    · split <;> rfl

/-- The numeral of a binary number has a fraction or an exponent. -/
theorem isSome_fraction_or_exponent {x : Binary f} {m : Numeral}
    (h : binaryNumeral? layout x = some m) : m.fraction.isSome = true ∨ m.exponent.isSome = true := by
  cases x with
  | nan => cases h
  | infinite negative => cases h
  | finite negative x =>
    cases h
    split
    · exact .inl rfl
    · split
      · refine .inl ?_
        rw [positionalNumeral]
        split
        · rfl
        · split <;> rfl
      · exact .inr rfl

/-- A binary number is read back as a double if its decimal stays half a step below the greatest. -/
theorem isSome_double?_binary (hl : layout.most ≤ 16) {negative : Bool} {x : Magnitude f}
    (hsafe : x.significand ≠ 0 → (x.shortest .even).AtMost safeBound) {m : Numeral}
    (h : binaryNumeral? layout (.finite negative x) = some m) : m.double?.isSome = true := by
  cases h
  split
  · exact Numeral.isSome_double?_of_exponent_eq (show ofDigits ['0'] < wordBound by decide) rfl
  · rename_i hd
    split
    · rename_i hpositional
      exact isSome_double?_positional negative (hpositional.2.trans hl)
    · refine isSome_double?_scientific negative hd (hsafe fun hx => hd ?_)
      rw [Magnitude.shortest, if_pos hx]

/-- The greatest double is read back. -/
theorem isSome_double?_top (negative : Bool) :
    ((binaryNumeral? doubleLayout (.finite negative .top)).bind Numeral.double?).isSome = true := by
  cases negative <;> decide +kernel

end Binary

/-- **Numbers that are written are read**: the numeral of a number denotes a number. -/
theorem Number.isSome_value? {n : Number} (hn : n.Ranged) {m : Numeral} (h : n.numeral? = some m) :
    m.value?.isSome = true := by
  have hbinary {f : Format} {layout : Layout} {x : Binary f} (hx : binaryNumeral? layout x = some m)
      (hd : m.double?.isSome = true) : m.value?.isSome = true := by
    rw [Numeral.value?_eq_double? (isSome_fraction_or_exponent hx), Option.isSome_map, hd]
  cases n with
  | natural n =>
    cases h
    rw [Numeral.value?_natural hn]
    rfl
  | negative n =>
    cases h
    rw [Numeral.value?_whole true hn]
    split
    · rfl
    · split <;> rfl
  | double x =>
    refine hbinary h ?_
    cases x with
    | nan => cases h
    | infinite negative => cases h
    | finite negative x =>
      -- only the text of the greatest double is not within the safe bound
      by_cases hx : x = .top
      · subst hx
        have htop := isSome_double?_top negative
        rw [show binaryNumeral? doubleLayout (.finite negative .top) = some m from h] at htop
        exact htop
      · exact isSome_double?_binary (by decide)
          (fun hs => Magnitude.atMost_shortest_double .even hs hx) h
  | single x =>
    refine hbinary h ?_
    cases x with
    | nan => cases h
    | infinite negative => cases h
    | finite negative x =>
      exact isSome_double?_binary (by decide) (Magnitude.atMost_shortest_single .even) h

/-- A double has a numeral if it is finite. -/
theorem Number.isSome_numeral?_double (x : Double) :
    (Number.double x).numeral?.isSome = x.isFinite := by
  cases x <;> rfl

end BlockDocument.Json
