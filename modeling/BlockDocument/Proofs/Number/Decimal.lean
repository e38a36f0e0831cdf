import Mathlib
import BlockDocument.Number.Decimal

/-!
# Decimals and what they round to

Digits denote the number that they were written for, and a decimal rounds to the same binary number
in each of its forms: with a zero more or less in its coefficient, or as positional text that is read
again.
-/

namespace BlockDocument.Number

/-! ## Digits -/

theorem digits_ne_nil (n : Nat) : digits n ≠ [] := Nat.toDigits_ne_nil

theorem isDigit_of_mem_digits {n : Nat} {c : Char} (h : c ∈ digits n) : c.isDigit = true :=
  Nat.isDigit_of_mem_toDigits (by decide) (by decide) h

theorem ofDigits_digits (n : Nat) : ofDigits (digits n) = n := Nat.ofDigitChars_ten_toDigits

theorem ofDigits_append (xs ys : List Char) :
    ofDigits (xs ++ ys) = 10 ^ ys.length * ofDigits xs + ofDigits ys := by
  rw [ofDigits, Nat.ofDigitChars_append, Nat.ofDigitChars_eq_ofDigitChars_zero]
  rfl

theorem ofDigits_replicate (n : Nat) : ofDigits (List.replicate n '0') = 0 := by
  rw [ofDigits, Nat.ofDigitChars_replicate_zero, Nat.mul_zero]

/-- A number has one digit more than its tenth. -/
theorem digits_of_ten_le {n : Nat} (h : 10 ≤ n) :
    digits n = digits (n / 10) ++ [(n % 10).digitChar] :=
  Nat.toDigits_of_base_le (by decide) h

theorem exists_digitChar {c : Char} (hc : c.isDigit = true) : ∃ i < 10, c = Nat.digitChar i := by
  have hrange : 48 ≤ c.toNat ∧ c.toNat ≤ 57 := by
    simpa [Char.isDigit, UInt32.le_iff_toNat_le] using hc
  obtain ⟨hlow, hhigh⟩ := hrange
  have hdigit : ∀ i : Fin 10, Char.ofNat (48 + i.val) = Nat.digitChar i.val := by decide
  refine ⟨c.toNat - 48, by omega, ?_⟩
  rw [← hdigit ⟨c.toNat - 48, by omega⟩, Nat.add_sub_cancel' hlow, Char.ofNat_toNat]

/-- Digits that do not start with a zero are those of their number. -/
theorem digits_ofDigits {cs : List Char} (hcs : ∀ c ∈ cs, c.isDigit = true) (hne : cs ≠ [])
    (hzero : cs.head? ≠ some '0') : digits (ofDigits cs) = cs := by
  induction cs using List.reverseRecOn with
  | nil => exact absurd rfl hne
  | append_singleton xs c ih =>
    obtain ⟨i, hi, rfl⟩ : ∃ i < 10, c = Nat.digitChar i := by
      exact exists_digitChar (hcs c (List.mem_append_right _ (List.mem_singleton_self c)))
    have hc : ofDigits [Nat.digitChar i] = i := by
      rw [← Nat.toDigits_of_lt_base (b := 10) hi]
      exact ofDigits_digits i
    rw [ofDigits_append, hc, List.length_singleton, Nat.pow_one]
    by_cases hxs : xs = []
    · subst hxs
      simp [ofDigits, digits, Nat.toDigits_of_lt_base hi]
    · have hxs' : digits (ofDigits xs) = xs := by
        refine ih (fun a ha => hcs a (List.mem_append_left _ ha)) hxs ?_
        rwa [List.head?_append_of_ne_nil _ hxs] at hzero
      have hpos : 0 < ofDigits xs := by
        by_contra h
        rw [Nat.eq_zero_of_not_pos h] at hxs'
        rw [← hxs'] at hzero
        exact hzero rfl
      rw [digits_of_ten_le (by omega), Nat.mul_add_div (by decide), Nat.div_eq_of_lt hi,
        Nat.add_zero, hxs', Nat.mul_add_mod, Nat.mod_eq_of_lt hi]

theorem length_digits_le_iff {n k : Nat} (hk : 0 < k) : (digits n).length ≤ k ↔ n < 10 ^ k :=
  Nat.length_toDigits_le_iff (by decide) hk

theorem length_digits_mul_pow {n : Nat} (h : 0 < n) (k : Nat) :
    (digits (n * 10 ^ k)).length = (digits n).length + k := by
  induction k with
  | zero => simp
  | succ k ih =>
    have hpos : 0 < n * 10 ^ k := Nat.mul_pos h (Nat.pow_pos (by decide))
    rw [Nat.pow_succ, ← Nat.mul_assoc, digits_of_ten_le (by omega), Nat.mul_div_cancel _ (by decide),
      List.length_append, ih]
    rfl

/-- One step of `below?`. -/
def appendDigit (bound n : Nat) (c : Char) : Option Nat :=
  if 10 * n + (c.toNat - '0'.toNat) < bound then some (10 * n + (c.toNat - '0'.toNat)) else none

theorem below?_eq (bound : Nat) (cs : List Char) : below? bound cs = cs.foldlM (appendDigit bound) 0 :=
  rfl

/-- The digits of a number below a bound are read as this number. -/
theorem below?_digits {bound n : Nat} (h : n < bound) : below? bound (digits n) = some n := by
  induction n using Nat.strong_induction_on with
  | _ n ih =>
    by_cases hn : n < 10
    · rw [digits, Nat.toDigits_of_lt_base hn, below?_eq, List.foldlM_cons, appendDigit,
        show '0'.toNat = 48 from rfl, Nat.toNat_digitChar_sub_48_of_lt_ten hn]
      simp [h]
    · have hm : n % 10 < 10 := Nat.mod_lt _ (by decide)
      have hdiv : below? bound (digits (n / 10)) = some (n / 10) := ih _ (by omega) (by omega)
      rw [digits_of_ten_le (by omega), below?_eq, List.foldlM_append, ← below?_eq, hdiv]
      show (appendDigit bound (n / 10) (n % 10).digitChar >>= fun n => some n) = some n
      rw [appendDigit, show '0'.toNat = 48 from rfl, Nat.toNat_digitChar_sub_48_of_lt_ten hm,
        Nat.div_add_mod, if_pos h]
      rfl

/-- Digits that are read as a number denote it. -/
theorem ofDigits_of_below? {bound n : Nat} {cs : List Char} (h : below? bound cs = some n) :
    ofDigits cs = n := by
  have go (cs : List Char) (m : Nat) (h : cs.foldlM (appendDigit bound) m = some n) :
      Nat.ofDigitChars 10 cs m = n := by
    induction cs generalizing m with
    | nil => simpa using h
    | cons c cs ih =>
      rw [List.foldlM_cons, appendDigit] at h
      rw [Nat.ofDigitChars_cons]
      split at h
      · exact ih _ h
      · cases h
  exact go cs 0 h

theorem below?_lt {bound n : Nat} {cs : List Char} (hb : 0 < bound)
    (h : below? bound cs = some n) : n < bound := by
  have go : ∀ (cs : List Char) (m : Nat), m < bound → cs.foldlM (appendDigit bound) m = some n →
      n < bound := by
    intro cs
    induction cs with
    | nil =>
      intro m hm hn
      obtain rfl : m = n := by simpa using hn
      exact hm
    | cons c cs ih =>
      intro m _ hn
      rw [List.foldlM_cons, appendDigit] at hn
      split at hn
      · exact ih _ ‹_› hn
      · cases hn
  exact go cs 0 hb h

/-! ## Rounding -/

/-- Rounding a quotient looks at its value only. -/
theorem divideToEven_mul_left {k : Nat} (hk : 0 < k) (num den : Nat) :
    divideToEven (k * num) (k * den) = divideToEven num den := by
  rw [divideToEven, divideToEven, Nat.mul_div_mul_left _ _ hk, Nat.mul_mod_mul_left]
  have hlt : k * den < 2 * (k * (num % den)) ↔ den < 2 * (num % den) := by
    rw [Nat.mul_left_comm]
    exact Nat.mul_lt_mul_left hk
  have heq : 2 * (k * (num % den)) = k * den ↔ 2 * (num % den) = den := by
    rw [Nat.mul_left_comm]
    exact Nat.mul_right_inj hk.ne'
  simp only [hlt, heq]

theorem Magnitude.nearest_mul_left {f : Format} {k : Nat} (hk : 0 < k) (num den : Nat) :
    (nearest (k * num) (k * den) : Option (Magnitude f)) = nearest num den := by
  rw [nearest, nearest]
  simp only [Nat.mul_assoc, Nat.mul_div_mul_left _ _ hk, divideToEven_mul_left hk]

theorem Binary.nearest_mul_left {f : Format} {k : Nat} (hk : 0 < k) (negative : Bool)
    (num den : Nat) :
    (Binary.nearest negative (k * num) (k * den) : Binary f) = .nearest negative num den := by
  rw [nearest, Magnitude.nearest_mul_left hk, nearest]

namespace Decimal

theorem point_mul_pow {c : Nat} (hc : 0 < c) (k : Nat) (e : Int) :
    point ⟨c * 10 ^ k, e⟩ = point ⟨c, e + k⟩ := by
  rw [point, point, length_digits_mul_pow hc]
  push_cast
  omega

/-- A zero at the end of the coefficient is worth a step of the exponent. -/
theorem ratio_mul_pow (c k : Nat) (e : Int) :
    ∃ m > 0, ratio ⟨c * 10 ^ k, e⟩ = (m * (ratio ⟨c, e + k⟩).1, m * (ratio ⟨c, e + k⟩).2) := by
  by_cases he : e < 0
  · by_cases hek : e + k < 0
    · refine ⟨10 ^ k, Nat.pow_pos (by decide), ?_⟩
      simp only [ratio, he, hek, if_true]
      rw [Nat.mul_comm, ← Nat.pow_add, show k + (-(e + k)).toNat = (-e).toNat by omega]
    · refine ⟨10 ^ (-e).toNat, Nat.pow_pos (by decide), ?_⟩
      simp only [ratio, he, hek, if_true, if_false]
      rw [Nat.mul_one, Nat.mul_left_comm, ← Nat.pow_add,
        show (-e).toNat + (e + k).toNat = k by omega]
  · have hek : ¬ e + k < 0 := by omega
    refine ⟨1, Nat.one_pos, ?_⟩
    simp only [ratio, he, hek, if_false]
    rw [Nat.one_mul, Nat.one_mul, Nat.mul_assoc, ← Nat.pow_add,
      show k + e.toNat = (e + k).toNat by omega]

end Decimal

/-- Zeros at the end of the coefficient do not change what a decimal rounds to. -/
theorem Binary.ofDecimal_mul_pow {f : Format} (negative : Bool) (c k : Nat) (e : Int) :
    (Binary.ofDecimal negative ⟨c * 10 ^ k, e⟩ : Binary f) = .ofDecimal negative ⟨c, e + k⟩ := by
  by_cases hc : c = 0
  · simp [ofDecimal, hc]
  have hpos : 0 < c := Nat.pos_of_ne_zero hc
  have hne : c * 10 ^ k ≠ 0 := Nat.mul_ne_zero hc (Nat.pow_pos (by decide)).ne'
  obtain ⟨m, hm, hratio⟩ := Decimal.ratio_mul_pow c k e
  simp only [ofDecimal, Decimal.point_mul_pow hpos, hratio, nearest_mul_left hm, if_neg hne,
    if_neg hc]

theorem Binary.ofDecimal_reduce {f : Format} (negative : Bool) (fuel : Nat) (d : Decimal) :
    (Binary.ofDecimal negative (d.reduce fuel) : Binary f) = .ofDecimal negative d := by
  induction fuel generalizing d with
  | zero => rfl
  | succ fuel ih =>
    rw [Decimal.reduce]
    split
    · rename_i h
      have hten : d.coefficient / 10 * 10 ^ 1 = d.coefficient := by omega
      rw [ih, ← Nat.cast_one, ← ofDecimal_mul_pow, hten]
    · rfl

/-- The sign of a rounded decimal. -/
theorem Binary.ofDecimal_eq_finite {f : Format} {d : Decimal} {x : Magnitude f}
    (h : Binary.ofDecimal false d = .finite false x) (negative : Bool) :
    Binary.ofDecimal negative d = .finite negative x := by
  rw [ofDecimal] at h ⊢
  split at h
  · cases h
    rw [if_pos ‹_›]
  · rw [if_neg ‹_›]
    split at h
    · cases h
    · rw [if_neg ‹_›]
      split at h
      · cases h
        rw [if_pos ‹_›]
      · rw [if_neg ‹_›]
        rw [nearest] at h ⊢
        cases hn : Magnitude.nearest (f := f) d.ratio.1 d.ratio.2 with
        | none => simp [hn] at h
        | some y =>
          simp only [hn] at h ⊢
          cases h
          rfl

/-! ## Positional text -/

namespace Decimal

/-- Digits without a point. -/
theorem parse?_whole {ds : List Char} (hne : ds ≠ []) (hd : ∀ c ∈ ds, c.isDigit = true) :
    parse? ds = some ⟨ofDigits ds, 0⟩ := by
  have htake : ds.takeWhile Char.isDigit = ds := List.takeWhile_eq_self_iff.mpr hd
  have hdrop : ds.dropWhile Char.isDigit = [] := List.dropWhile_eq_nil_iff.mpr hd
  simp [parse?, htake, hdrop, hne, exponentPart?]

/-- Digits with a point between them. -/
theorem parse?_point {whole fraction : List Char} (hne : whole ≠ [])
    (hw : ∀ c ∈ whole, c.isDigit = true) (hf : ∀ c ∈ fraction, c.isDigit = true) :
    parse? (whole ++ '.' :: fraction) =
      some ⟨ofDigits (whole ++ fraction), -fraction.length⟩ := by
  have hpoint : Char.isDigit '.' = false := by decide
  have htake : (whole ++ '.' :: fraction).takeWhile Char.isDigit = whole := by
    rw [List.takeWhile_append_of_pos hw, List.takeWhile_cons_of_neg (by simp [hpoint]),
      List.append_nil]
  have hdrop : (whole ++ '.' :: fraction).dropWhile Char.isDigit = '.' :: fraction := by
    rw [List.dropWhile_append_of_pos hw, List.dropWhile_cons_of_neg (by simp [hpoint])]
  have htake' : fraction.takeWhile Char.isDigit = fraction := List.takeWhile_eq_self_iff.mpr hf
  have hdrop' : fraction.dropWhile Char.isDigit = [] := List.dropWhile_eq_nil_iff.mpr hf
  simp [parse?, htake, hdrop, htake', hdrop', hne, exponentPart?]

/-- Positional text is made of digits and at most one point, and starts with a digit. -/
theorem positional_chars (d : Decimal) :
    (∀ c ∈ d.positional [], c.isDigit = true ∨ c = '.') ∧
      ∃ c rest, d.positional [] = c :: rest ∧ c.isDigit = true := by
  have hdigits : ∀ c ∈ digits d.coefficient, c.isDigit = true := fun _ => isDigit_of_mem_digits
  obtain ⟨c, rest, hcons⟩ := List.exists_cons_of_ne_nil (digits_ne_nil d.coefficient)
  have hc : c.isDigit = true := hdigits c (by simp [hcons])
  rw [positional]
  split
  · -- below one, with a zero before the point
    refine ⟨fun x hx => ?_, '0', _, rfl, by decide⟩
    simp only [List.mem_cons, List.mem_append, List.mem_replicate] at hx
    rcases hx with rfl | rfl | ⟨-, rfl⟩ | hx
    · exact .inl (by decide)
    · exact .inr rfl
    · exact .inl (by decide)
    · exact .inl (hdigits x hx)
  · split
    · -- a whole number, with zeros behind its digits and no point
      refine ⟨fun x hx => ?_, c, _, by rw [hcons]; rfl, hc⟩
      simp only [List.append_nil, List.mem_append, List.mem_replicate] at hx
      rcases hx with hx | ⟨-, rfl⟩
      · exact .inl (hdigits x hx)
      · exact .inl (by decide)
    · rename_i hp _
      -- the point stands among the digits
      refine ⟨fun x hx => ?_, c, rest.take (d.point.toNat - 1) ++ '.' ::
        (digits d.coefficient).drop d.point.toNat, ?_, hc⟩
      · simp only [List.mem_append, List.mem_cons] at hx
        rcases hx with hx | rfl | hx
        · exact .inl (hdigits x (List.mem_of_mem_take hx))
        · exact .inr rfl
        · exact .inl (hdigits x (List.mem_of_mem_drop hx))
      · obtain ⟨k, hk⟩ : ∃ k, d.point.toNat = k + 1 := ⟨d.point.toNat - 1, by omega⟩
        simp only [hk]
        rw [hcons, List.take_succ_cons]
        rfl

theorem isDigit_of_mem_zeros {c : Char} {n : Nat} (h : c ∈ List.replicate n '0') :
    c.isDigit = true := by
  obtain ⟨-, rfl⟩ := List.mem_replicate.mp h
  decide

/-- A number below one, with zeros before its digits. -/
theorem parse?_leading_zeros {d : Decimal} (h : d.point ≤ 0) :
    parse? ('0' :: '.' :: (List.replicate (-d.point).toNat '0' ++ digits d.coefficient)) =
      some d := by
  have hpt : d.point = (digits d.coefficient).length + d.exponent := rfl
  have hvalue : ofDigits (['0'] ++ (List.replicate (-d.point).toNat '0' ++
      digits d.coefficient)) = d.coefficient := by
    rw [← List.append_assoc, ofDigits_append, ofDigits_digits, ofDigits_append,
      ofDigits_replicate, show ofDigits ['0'] = 0 from rfl]
    simp
  have hfraction : ∀ c ∈ List.replicate (-d.point).toNat '0' ++ digits d.coefficient,
      c.isDigit = true := fun c hc => by
    rcases List.mem_append.mp hc with hc | hc
    · exact isDigit_of_mem_zeros hc
    · exact isDigit_of_mem_digits hc
  refine (parse?_point (List.cons_ne_nil '0' [])
    (fun _ hc => isDigit_of_mem_zeros (n := 1) hc) hfraction).trans ?_
  rw [hvalue]
  simp only [List.length_append, List.length_replicate]
  congr 2
  push_cast
  omega

/-- A whole number that ends in zeros. -/
theorem parse?_trailing_zeros (n k : Nat) :
    parse? (digits n ++ List.replicate k '0') = some ⟨n * 10 ^ k, 0⟩ := by
  have hdigits : ∀ c ∈ digits n ++ List.replicate k '0', c.isDigit = true := fun c hc => by
    rcases List.mem_append.mp hc with hc | hc
    · exact isDigit_of_mem_digits hc
    · exact isDigit_of_mem_zeros hc
  rw [parse?_whole (by simp [digits_ne_nil]) hdigits, ofDigits_append, ofDigits_digits,
    ofDigits_replicate, List.length_replicate, Nat.add_zero, Nat.mul_comm]

/-- A number with the point among its digits. -/
theorem parse?_inner_point {d : Decimal} (h : ¬ d.point ≤ 0)
    (hlength : ¬ (digits d.coefficient).length ≤ d.point.toNat) :
    parse? ((digits d.coefficient).take d.point.toNat ++
      '.' :: (digits d.coefficient).drop d.point.toNat) = some d := by
  have hpt : d.point = (digits d.coefficient).length + d.exponent := rfl
  have hne : (digits d.coefficient).take d.point.toNat ≠ [] := by
    rw [Ne, List.take_eq_nil_iff]
    rintro (hzero | hnil)
    · omega
    · exact digits_ne_nil _ hnil
  rw [parse?_point hne (fun _ hc => isDigit_of_mem_digits (List.mem_of_mem_take hc))
    (fun _ hc => isDigit_of_mem_digits (List.mem_of_mem_drop hc)), List.take_append_drop,
    ofDigits_digits, List.length_drop]
  congr 2
  omega

/-- Positional text is read as a decimal that rounds to the same number. -/
theorem parse?_positional (d : Decimal) : ∃ d', parse? (d.positional []) = some d' ∧
    ∀ (f : Format) (negative : Bool),
      (Binary.ofDecimal negative d' : Binary f) = Binary.ofDecimal negative d := by
  rw [positional]
  split
  · rename_i hp
    exact ⟨d, parse?_leading_zeros hp, fun _ _ => rfl⟩
  · split
    · rename_i hp hlength
      have hpt : d.point = (digits d.coefficient).length + d.exponent := rfl
      refine ⟨_, by rw [List.append_nil, parse?_trailing_zeros], fun f negative => ?_⟩
      rw [Binary.ofDecimal_mul_pow, show (0 : Int) +
        (d.point.toNat - (digits d.coefficient).length : Nat) = d.exponent by omega]
    · rename_i hp hlength
      exact ⟨d, parse?_inner_point hp hlength, fun _ _ => rfl⟩

end Decimal

end BlockDocument.Number
