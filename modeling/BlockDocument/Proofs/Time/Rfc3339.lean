import BlockDocument.Proofs.Number.Decimal
import BlockDocument.Proofs.Text.Blank
import BlockDocument.Proofs.Time.Calendar
import BlockDocument.Time.Rfc3339

/-!
# Instants that are written and read

The text of an instant in range is read as that instant. A leap second that does not end a minute is
read as the second that follows.
-/

namespace BlockDocument.Time

open BlockDocument.Number BlockDocument.Text

-- Powers are those of the core library, whatever else is imported.
attribute [local instance (high)] instPowNat

/-! ## Padded numbers -/

theorem isDigit_of_mem_padded {width n : Nat} {c : Char} (h : c ∈ padded width n) :
    c.isDigit = true := by
  rcases List.mem_append.mp h with h | h
  · exact Decimal.isDigit_of_mem_zeros h
  · exact isDigit_of_mem_digits h

theorem ofDigits_padded (width n : Nat) : ofDigits (padded width n) = n := by
  rw [padded, ofDigits_append, ofDigits_replicate, ofDigits_digits, Nat.mul_zero, Nat.zero_add]

theorem length_padded {width n : Nat} (hw : 0 < width) (h : n < 10 ^ width) :
    (padded width n).length = width := by
  have := (length_digits_le_iff hw).mpr h
  rw [padded, List.length_append, List.length_replicate]
  omega

theorem padded_ne_nil (width n : Nat) : padded width n ≠ [] := by
  simp [padded, digits_ne_nil]

/-! ## Reading numbers and marks -/

theorem trimStart_cons {c : Char} (hc : isBlank c = false) (cs : List Char) :
    trimStart (c :: cs) = c :: cs := List.dropWhile_cons_of_neg (by simp [hc])

theorem trimStart_padded (width n : Nat) (rest : List Char) :
    trimStart (padded width n ++ rest) = padded width n ++ rest := by
  obtain ⟨c, cs, hcs⟩ := List.exists_cons_of_ne_nil (padded_ne_nil width n)
  have hc : c.isDigit = true := isDigit_of_mem_padded (by rw [hcs]; exact List.mem_cons_self ..)
  rw [hcs, List.cons_append, trimStart_cons (isBlank_of_isDigit hc)]

/-- A number in as many digits as are read is read whole, whatever follows. -/
theorem readNumber_padded {width n : Nat} (hw : 0 < width) (h : n < 10 ^ width) (rest : List Char) :
    readNumber width (padded width n ++ rest) = some (n, rest) := by
  have htake : ((padded width n ++ rest).take width).takeWhile Char.isDigit = padded width n := by
    rw [List.take_left' (length_padded hw h)]
    exact List.takeWhile_eq_self_iff.mpr fun _ => isDigit_of_mem_padded
  have hne : (padded width n).isEmpty = false := by simp [padded_ne_nil]
  simp only [readNumber, trimStart_padded, htake, hne, ofDigits_padded, List.drop_left,
    Bool.false_eq_true, if_false]

theorem readMark_cons {c : Char} (hc : isBlank c = false) (rest : List Char) :
    readMark c (c :: rest) = some rest := by
  rw [readMark, trimStart_cons hc]
  exact if_pos rfl

/-- Digits up to where no digit follows. -/
theorem takeWhile_padded (width n : Nat) {c : Char} (hc : c.isDigit = false) (rest : List Char) :
    (padded width n ++ c :: rest).takeWhile Char.isDigit = padded width n := by
  rw [List.takeWhile_append_of_pos fun _ => isDigit_of_mem_padded,
    List.takeWhile_cons_of_neg (by simp [hc]), List.append_nil]

/-- A year is read with its sign, if a hyphen follows. -/
theorem readYear_yearText (year : Int) (rest : List Char) :
    readYear (yearText year ++ '-' :: rest) = some (year, '-' :: rest) := by
  have hdigits := takeWhile_padded 4 year.natAbs (show Char.isDigit '-' = false from rfl) rest
  have hne : (padded 4 year.natAbs).isEmpty = false := by simp [padded_ne_nil]
  rw [yearText]
  split
  · rename_i hrange
    -- four digits without a sign, so the first one is not taken for it
    obtain ⟨c, cs, hcs⟩ := List.exists_cons_of_ne_nil (padded_ne_nil 4 year.toNat)
    have hc : c.isDigit = true := isDigit_of_mem_padded (by rw [hcs]; exact List.mem_cons_self ..)
    have hminus : c ≠ '-' := by rintro rfl; cases hc
    have hplus : c ≠ '+' := by rintro rfl; cases hc
    have hread := readNumber_padded (show 0 < 4 by decide) (show year.toNat < 10 ^ 4 by omega)
      ('-' :: rest)
    have htrim := trimStart_padded 4 year.toNat ('-' :: rest)
    rw [hcs, List.cons_append] at hread htrim ⊢
    simp only [readYear, htrim]
    simp [hminus, hplus, hread]
    omega
  · split
    · rename_i hneg
      -- a year that is negative or takes more than four digits has its sign
      simp only [readYear, List.cons_append, trimStart_cons (show isBlank '-' = false from rfl),
        hdigits, hne, ofDigits_padded, List.drop_left, Bool.false_eq_true, if_false, Option.map_some]
      congr 2
      omega
    · rename_i hneg
      simp only [readYear, List.cons_append, trimStart_cons (show isBlank '+' = false from rfl),
        hdigits, hne, ofDigits_padded, List.drop_left, Bool.false_eq_true, if_false, Option.map_some]
      congr 2
      omega

/-- The digits of a fraction are read up to the mark behind them. -/
theorem readFraction_padded {width n : Nat} (hw : 0 < width) (hw' : width ≤ 9) (h : n < 10 ^ width) :
    readFraction ('.' :: (padded width n ++ ['Z'])) = some (n * 10 ^ (9 - width), ['Z']) := by
  have hdigits := takeWhile_padded width n (show Char.isDigit 'Z' = false from rfl) []
  have hne : (padded width n).isEmpty = false := by simp [padded_ne_nil]
  have htake : (padded width n).take 9 = padded width n :=
    List.take_of_length_le ((length_padded hw h).le.trans hw')
  simp only [readFraction, hdigits, hne, htake, ofDigits_padded, List.drop_left,
    Bool.false_eq_true, if_false]
  rw [length_padded hw h]

/-- The fraction of a second is read back. -/
theorem readFraction_fractionText {nanos : Nat} (h : nanos < nanosPerSecond) :
    readFraction (fractionText nanos ++ ['Z']) = some (nanos, ['Z']) := by
  have hbound : nanosPerSecond = 1000000000 := rfl
  rw [fractionText]
  split_ifs with hzero hmilli hmicro
  · rw [hzero]
    rfl
  · rw [List.cons_append, readFraction_padded (by decide) (by decide) (by omega)]
    congr 2
    omega
  · rw [List.cons_append, readFraction_padded (by decide) (by decide) (by omega)]
    congr 2
    omega
  · rw [List.cons_append, readFraction_padded (by decide) (by decide) (by omega)]
    congr 2
    omega

/-! ## Instants -/

/-- The instants that are times: the year is one that instants can have, and there are no more
nanoseconds than a second and a leap second have. -/
structure Instant.Ranged (t : Instant) : Prop where
  year : yearInRange t.date.year = true
  nanos : t.nanos < 2 * nanosPerSecond

/-- An instant as it is read back: a leap second that does not end a minute is the next second. -/
def Instant.reread (t : Instant) : Instant :=
  if t.nanos / nanosPerSecond = 1 ∧ t.seconds % 60 ≠ 59 then
    ⟨t.seconds + 1, t.nanos % nanosPerSecond⟩
  else t

/-- The text of an instant, each part before what follows it. -/
theorem Instant.text_eq (t : Instant) : t.text =
    yearText t.date.year ++ '-' :: (padded 2 t.date.month ++ '-' :: (padded 2 t.date.day ++
      'T' :: (padded 2 (t.secondOfDay / 3600) ++ ':' :: (padded 2 (t.secondOfDay / 60 % 60) ++
        ':' :: (padded 2 (t.secondOfDay % 60 + t.nanos / nanosPerSecond) ++
          (fractionText (t.nanos % nanosPerSecond) ++ ['Z'])))))) := by
  simp only [text, List.append_assoc, List.cons_append]

theorem Instant.secondOfDay_spec (t : Instant) :
    t.seconds = t.seconds / daySeconds * daySeconds + t.secondOfDay ∧ t.secondOfDay < 86400 := by
  have hpos := Int.emod_nonneg t.seconds (show daySeconds ≠ 0 by decide)
  have hlt := Int.emod_lt_of_pos t.seconds (show 0 < daySeconds by decide)
  have hsplit := Int.ediv_mul_add_emod t.seconds daySeconds
  rw [secondOfDay]
  rw [show daySeconds = 86400 from rfl] at *
  omega

/-- Reading back keeps the day. -/
theorem Instant.date_reread (t : Instant) : t.reread.date = t.date := by
  obtain ⟨hseconds, hlt⟩ := t.secondOfDay_spec
  rw [reread, date, date]
  split
  · congr 1
    rw [show daySeconds = 86400 from rfl] at *
    dsimp only
    omega
  · rfl

/-- The instant that is put together from the parts of the text. -/
theorem Instant.reread_eq {t : Instant} (h : t.nanos < 2 * nanosPerSecond) :
    let leap := if t.secondOfDay % 60 + t.nanos / nanosPerSecond = 60 then 1 else 0
    t.reread =
      ⟨t.seconds / daySeconds * daySeconds + (t.secondOfDay / 3600 * 3600 +
          t.secondOfDay / 60 % 60 * 60 +
            (t.secondOfDay % 60 + t.nanos / nanosPerSecond - leap) : Nat) - 0,
        t.nanos % nanosPerSecond + leap * nanosPerSecond⟩ := by
  obtain ⟨hseconds, hlt⟩ := t.secondOfDay_spec
  have hday : daySeconds = 86400 := rfl
  have hsecond : nanosPerSecond = 1000000000 := rfl
  have hclock : t.secondOfDay / 3600 * 3600 + t.secondOfDay / 60 % 60 * 60 =
      t.secondOfDay - t.secondOfDay % 60 := by
    omega
  have hminute : t.seconds % 60 = (t.secondOfDay % 60 : Nat) := by
    rw [hseconds, hday]
    omega
  intro leap
  simp only [reread, leap, hclock, hminute, hsecond] at h ⊢
  obtain ⟨seconds, nanos⟩ := t
  dsimp only at h hseconds ⊢
  split_ifs
  all_goals
    congr 1 <;> omega

/-- The date and the time of day of an instant are those of the instant that is read back. -/
theorem Instant.ofLocal?_parts {t : Instant} (h : t.Ranged) :
    ofLocal? t.date (t.secondOfDay / 3600) (t.secondOfDay / 60 % 60)
      (t.secondOfDay % 60 + t.nanos / nanosPerSecond) (t.nanos % nanosPerSecond) 0 =
        some t.reread := by
  have hnanos := h.nanos
  obtain ⟨-, hlt⟩ := t.secondOfDay_spec
  have hleap : t.nanos / nanosPerSecond < 2 := Nat.div_lt_of_lt_mul (by rwa [Nat.mul_comm])
  have hday : t.date.dayNumber = t.seconds / daySeconds := Date.dayNumber_ofDayNumber _
  have hvalid : t.date.isValid = true := Date.isValid_ofDayNumber _
  have hyear : yearInRange t.reread.date.year = true := by rw [date_reread]; exact h.year
  have hreread := reread_eq hnanos
  dsimp only at hreread
  rw [ofLocal?, hday, ← hreread, hvalid, hyear, h.year, if_pos]
  simp only [Bool.and_true, Bool.true_and, Bool.and_eq_true, decide_eq_true_eq]
  refine ⟨⟨⟨?_, ?_⟩, ?_⟩, ?_⟩
  · omega
  · omega
  · omega
  · decide

/-- **Times survive**: the text of an instant is read back. -/
theorem Instant.parse?_text {t : Instant} (h : t.Ranged) : parse? t.text = some t.reread := by
  have hvalid := Date.isValid_ofDayNumber (t.seconds / daySeconds)
  rw [← Instant.date, Date.isValid, decide_eq_true_eq] at hvalid
  have hday : t.date.day < 10 ^ 2 := by
    have := hvalid.2.2.2
    rw [monthLength] at this
    split_ifs at this <;> omega
  have hnanos := h.nanos
  have hlt := t.secondOfDay_spec.2
  -- a leap second, which the nanoseconds hold, is written as one second more
  have hleap : t.nanos / nanosPerSecond < 2 := Nat.div_lt_of_lt_mul (by rwa [Nat.mul_comm])
  have hoffset : readOffset (trimStart ['Z']) = some (0, []) := by decide
  rw [text_eq, parse?]
  simp only [readYear_yearText, readMark_cons (show isBlank '-' = false from rfl),
    readMark_cons (show isBlank ':' = false from rfl),
    readNumber_padded (show 0 < 2 by decide) (show t.date.month < 10 ^ 2 by omega),
    readNumber_padded (show 0 < 2 by decide) hday,
    readNumber_padded (show 0 < 2 by decide) (show t.secondOfDay / 3600 < 10 ^ 2 by omega),
    readNumber_padded (show 0 < 2 by decide) (show t.secondOfDay / 60 % 60 < 10 ^ 2 by omega),
    readNumber_padded (show 0 < 2 by decide)
      (show t.secondOfDay % 60 + t.nanos / nanosPerSecond < 10 ^ 2 by omega),
    readFraction_fractionText (Nat.mod_lt t.nanos (show 0 < nanosPerSecond by decide)), hoffset,
    bind, Option.bind]
  exact ofLocal?_parts h

end BlockDocument.Time
