import BlockDocument.Json.Source
import BlockDocument.Proofs.Number.Decimal

/-!
# The numerals of numbers

The text of a number is taken apart into the parts that reading finds in it. `Number.numeral?` names
these parts for every number that has a text of its own, and reading the text of a number gives them
back, whatever may stand behind a number in a JSON text.
-/

namespace BlockDocument.Json

open BlockDocument.Number

/-- What may stand behind a value in the indented layout: nothing, a comma, or the end of the line. -/
def Stops (rest : List Char) : Prop := ∀ c ∈ rest.head?, c = ',' ∨ c = '\n'

theorem stops_nil : Stops [] := by rintro c ⟨⟩

theorem stops_comma (rest : List Char) : Stops (',' :: rest) := by
  rintro c ⟨⟩
  exact .inl rfl

theorem stops_newLine (rest : List Char) : Stops ('\n' :: rest) := by
  rintro c ⟨⟩
  exact .inr rfl

/-! ## Digits -/

/-- Digits end where no digit follows. -/
theorem readDigits_append {ds rest : List Char} (hne : ds ≠ []) (hds : ∀ c ∈ ds, c.isDigit = true)
    (hrest : ∀ c ∈ rest.head?, c.isDigit = false) : readDigits (ds ++ rest) = some (ds, rest) := by
  have htake : (ds ++ rest).takeWhile Char.isDigit = ds := by
    rw [List.takeWhile_append_of_pos hds]
    cases rest with
    | nil => simp
    | cons c rest => simp [hrest c rfl]
  have hdrop : (ds ++ rest).dropWhile Char.isDigit = rest := by
    rw [List.dropWhile_append_of_pos hds]
    cases rest with
    | nil => rfl
    | cons c rest => simp [hrest c rfl]
  have hnone : ds.isEmpty = false := by simp [hne]
  simp only [readDigits, htake, hdrop, hnone, Bool.false_eq_true, if_false]

theorem isDigit_eq_false_of_stops {rest : List Char} (h : Stops rest) :
    ∀ c ∈ rest.head?, c.isDigit = false := by
  intro c hc
  rcases h c hc with rfl | rfl <;> decide

/-- The digits of a positive number do not start with a zero. -/
theorem head?_digits_ne {n : Nat} (hn : n ≠ 0) : (digits n).head? ≠ some '0' := by
  induction n using Nat.strong_induction_on with
  | _ n ih =>
    by_cases hlt : n < 10
    · have hdigit : ∀ i < 10, i ≠ 0 → (Nat.digitChar i) ≠ '0' := by decide
      simpa [digits, Nat.toDigits_of_lt_base hlt] using hdigit n hlt hn
    · rw [digits_of_ten_le (by omega), List.head?_append_of_ne_nil _ (digits_ne_nil _)]
      exact ih (n / 10) (by omega) (by omega)

/-! ## Numerals and their text -/

/-- The sign of a number. -/
def signChars (negative : Bool) : List Char := if negative then ['-'] else []

namespace Numeral

/-- The characters of a fraction. -/
def fractionChars : Option (List Char) → List Char
  | some ds => '.' :: ds
  | none => []

/-- The characters of an exponent. -/
def exponentChars : Option (Bool × List Char) → List Char
  | some (negative, ds) => 'e' :: (if negative then '-' else '+') :: ds
  | none => []

/-- The characters of a numeral. -/
def chars (m : Numeral) : List Char :=
  signChars m.negative ++
    (m.whole ++ (fractionChars m.fraction ++ exponentChars m.exponent))

/-- What makes a numeral one that can be read: digits in every part, and no needless zero in front. -/
structure WellFormed (m : Numeral) : Prop where
  whole_ne : m.whole ≠ []
  whole : ∀ c ∈ m.whole, c.isDigit = true
  leading : m.whole.head? = some '0' → m.whole = ['0']
  fraction : ∀ ds ∈ m.fraction, ds ≠ [] ∧ ∀ c ∈ ds, c.isDigit = true
  exponent : ∀ e ∈ m.exponent, e.2 ≠ [] ∧ ∀ c ∈ e.2, c.isDigit = true

variable {rest : List Char}

theorem head?_exponentChars (e : Option (Bool × List Char)) (h : Stops rest) :
    ∀ c ∈ (exponentChars e ++ rest).head?, c.isDigit = false ∧ c ≠ '.' := by
  intro c hc
  cases e with
  | none => rcases h c hc with rfl | rfl <;> decide
  | some e =>
    cases hc
    decide

theorem head?_fractionChars (f : Option (List Char)) (e : Option (Bool × List Char))
    (h : Stops rest) :
    ∀ c ∈ (fractionChars f ++ (exponentChars e ++ rest)).head?, c.isDigit = false := by
  intro c hc
  cases f with
  | none => exact (head?_exponentChars e h c hc).1
  | some ds =>
    cases hc
    decide

theorem readExponent_append {e : Option (Bool × List Char)}
    (he : ∀ x ∈ e, x.2 ≠ [] ∧ ∀ c ∈ x.2, c.isDigit = true) (h : Stops rest) :
    readExponent (exponentChars e ++ rest) = some (e, rest) := by
  cases e with
  | none =>
    cases rest with
    | nil => rfl
    | cons c rest => rcases h c rfl with rfl | rfl <;> rfl
  | some e =>
    obtain ⟨negative, ds⟩ := e
    obtain ⟨hne, hds⟩ := he _ rfl
    have hread := readDigits_append hne hds (isDigit_eq_false_of_stops h)
    cases negative <;> simp [exponentChars, readExponent, splitSign, hread]

/-- Reads the fraction of a number, if it has one. -/
def readFraction : List Char → Option (Option (List Char) × List Char)
  | '.' :: rest => (readDigits rest).map fun (ds, rest) => (some ds, rest)
  | rest => some (none, rest)

/-- Reads a number after its sign. -/
def readUnsigned (negative : Bool) (cs : List Char) : Option (Numeral × List Char) :=
  match readDigits cs with
  | none => none
  | some (whole, rest) =>
    if whole.head? = some '0' ∧ whole ≠ ['0'] then none
    else match readFraction rest with
      | none => none
      | some (fraction, rest) =>
        (readExponent rest).map fun (exponent, rest) => (⟨negative, whole, fraction, exponent⟩, rest)

/-- The sign of a number and what follows it. -/
def splitMinus : List Char → Bool × List Char
  | '-' :: rest => (true, rest)
  | cs => (false, cs)

theorem readNumeral_eq (cs : List Char) :
    readNumeral cs = readUnsigned (splitMinus cs).1 (splitMinus cs).2 := rfl

theorem splitMinus_append (negative : Bool) {cs : List Char} (h : cs.head? ≠ some '-') :
    splitMinus (signChars negative ++ cs) = (negative, cs) := by
  cases negative with
  | true => rfl
  | false =>
    cases cs with
    | nil => rfl
    | cons c cs =>
      have hc : c ≠ '-' := by simpa using h
      simp [signChars, splitMinus, hc]

theorem readFraction_append {f : Option (List Char)} {e : Option (Bool × List Char)}
    (hf : ∀ ds ∈ f, ds ≠ [] ∧ ∀ c ∈ ds, c.isDigit = true) (h : Stops rest) :
    readFraction (fractionChars f ++ (exponentChars e ++ rest)) =
      some (f, exponentChars e ++ rest) := by
  have hstop := head?_exponentChars e h
  cases f with
  | none =>
    cases hcs : exponentChars e ++ rest with
    | nil => simp [fractionChars, readFraction]
    | cons c cs =>
      have hc : c ≠ '.' := (hstop c (by rw [hcs]; rfl)).2
      simp [fractionChars, readFraction, hc]
  | some ds =>
    obtain ⟨hne, hds⟩ := hf ds rfl
    have hread := readDigits_append hne hds fun c hc => (hstop c hc).1
    simp [fractionChars, readFraction, hread]

/-- **Reading gives a numeral back** from its characters. -/
theorem readNumeral_chars {m : Numeral} (hm : m.WellFormed) (h : Stops rest) :
    readNumeral (m.chars ++ rest) = some (m, rest) := by
  obtain ⟨negative, whole, fraction, exponent⟩ := m
  obtain ⟨hne, hwhole, hleading, hfraction, hexponent⟩ := hm
  dsimp only at hne hwhole hleading hfraction hexponent
  have hzero : ¬ (whole.head? = some '0' ∧ whole ≠ ['0']) := fun hz => hz.2 (hleading hz.1)
  have hminus (cs : List Char) : (whole ++ cs).head? ≠ some '-' := by
    rw [List.head?_append_of_ne_nil _ hne]
    intro hhead
    exact absurd (hwhole '-' (List.mem_of_mem_head? hhead)) (by decide)
  rw [chars, List.append_assoc, List.append_assoc, List.append_assoc, readNumeral_eq,
    splitMinus_append negative (hminus _), readUnsigned,
    readDigits_append hne hwhole (head?_fractionChars fraction exponent h)]
  dsimp only
  rw [if_neg hzero, readFraction_append hfraction h]
  dsimp only
  rw [readExponent_append hexponent h]
  rfl

end Numeral

/-! ## The numerals of decimals -/

/-- A decimal in positional form. A whole number has the fraction zero. -/
def positionalNumeral (negative : Bool) (d : Decimal) : Numeral :=
  let ds := digits d.coefficient
  let p := d.point
  if p ≤ 0 then ⟨negative, ['0'], some (List.replicate (-p).toNat '0' ++ ds), none⟩
  else if ds.length ≤ p.toNat then
    ⟨negative, ds ++ List.replicate (p.toNat - ds.length) '0', some ['0'], none⟩
  else ⟨negative, ds.take p.toNat, some (ds.drop p.toNat), none⟩

/-- A decimal in exponent form. -/
def scientificNumeral (negative : Bool) (d : Decimal) : Numeral :=
  let ds := digits d.coefficient
  let e := d.point - 1
  ⟨negative, ds.take 1, if ds.length ≤ 1 then none else some (ds.drop 1),
    some (decide (e < 0), digits e.natAbs)⟩

theorem chars_positionalNumeral (negative : Bool) (d : Decimal) :
    (positionalNumeral negative d).chars = signChars negative ++ d.positional ['.', '0'] := by
  rw [positionalNumeral, Decimal.positional]
  split
  · simp [Numeral.chars, Numeral.fractionChars, Numeral.exponentChars, signChars]
  · split
    · simp [Numeral.chars, Numeral.fractionChars, Numeral.exponentChars, signChars]
    · simp [Numeral.chars, Numeral.fractionChars, Numeral.exponentChars, signChars]

theorem chars_scientificNumeral (negative : Bool) (d : Decimal) :
    (scientificNumeral negative d).chars = signChars negative ++ d.scientific := by
  obtain ⟨c, rest, hcons⟩ := List.exists_cons_of_ne_nil (digits_ne_nil d.coefficient)
  rw [scientificNumeral, Decimal.scientific, hcons]
  cases rest with
  | nil => simp [Numeral.chars, Numeral.fractionChars, Numeral.exponentChars, signChars]
  | cons c' rest => simp [Numeral.chars, Numeral.fractionChars, Numeral.exponentChars, signChars]

theorem wellFormed_positionalNumeral (negative : Bool) {d : Decimal} (hd : d.coefficient ≠ 0) :
    (positionalNumeral negative d).WellFormed := by
  have hdigits : ∀ c ∈ digits d.coefficient, c.isDigit = true := fun _ => isDigit_of_mem_digits
  have hne := digits_ne_nil d.coefficient
  have hhead := head?_digits_ne hd
  rw [positionalNumeral]
  split
  · -- below one: a zero before the point, and zeros between it and the digits
    refine ⟨by simp, fun _ => Decimal.isDigit_of_mem_zeros (n := 1),
      fun _ => rfl, ?_, by rintro e ⟨⟩⟩
    rintro ds ⟨⟩
    refine ⟨by simp [hne], fun c hc => ?_⟩
    rcases List.mem_append.mp hc with hc | hc
    · exact Decimal.isDigit_of_mem_zeros hc
    · exact hdigits c hc
  · split
    · -- a whole number: zeros behind the digits, and a single zero behind the point
      refine ⟨by simp [hne], fun c hc => ?_, fun h => ?_, ?_, by rintro e ⟨⟩⟩
      · rcases List.mem_append.mp hc with hc | hc
        · exact hdigits c hc
        · exact Decimal.isDigit_of_mem_zeros hc
      · rw [List.head?_append_of_ne_nil _ hne] at h
        exact absurd h hhead
      · rintro ds ⟨⟩
        exact ⟨by simp, fun _ => Decimal.isDigit_of_mem_zeros (n := 1)⟩
    · rename_i hp hlength
      -- the point stands among the digits, so there are some on both sides of it
      have htake : (digits d.coefficient).take d.point.toNat ≠ [] := by
        rw [Ne, List.take_eq_nil_iff]
        rintro (hzero | hnil)
        · omega
        · exact hne hnil
      refine ⟨htake, fun c hc => hdigits c (List.mem_of_mem_take hc), fun h => ?_, ?_,
        by rintro e ⟨⟩⟩
      · rw [List.head?_take, if_neg (by omega)] at h
        exact absurd h hhead
      · rintro ds ⟨⟩
        exact ⟨by rw [Ne, List.drop_eq_nil_iff]; exact hlength,
          fun c hc => hdigits c (List.mem_of_mem_drop hc)⟩

theorem wellFormed_scientificNumeral (negative : Bool) {d : Decimal} (hd : d.coefficient ≠ 0) :
    (scientificNumeral negative d).WellFormed := by
  have hdigits : ∀ c ∈ digits d.coefficient, c.isDigit = true := fun _ => isDigit_of_mem_digits
  refine ⟨by simp [scientificNumeral, digits_ne_nil], fun c hc => hdigits c (List.mem_of_mem_take hc),
    fun h => ?_, fun ds hds => ?_, ?_⟩
  · rw [scientificNumeral, List.head?_take, if_neg (by decide)] at h
    exact absurd h (head?_digits_ne hd)
  · rw [scientificNumeral] at hds
    dsimp only at hds
    split at hds
    · cases hds
    · rename_i hlength
      cases hds
      exact ⟨by rw [Ne, List.drop_eq_nil_iff]; exact hlength,
        fun c hc => hdigits c (List.mem_of_mem_drop hc)⟩
  · rintro e ⟨⟩
    exact ⟨digits_ne_nil _, fun _ => isDigit_of_mem_digits⟩

/-! ## The numerals of numbers -/

/-- The numeral of a binary number, if it is finite. -/
def binaryNumeral? {f : Format} (layout : Layout) : Binary f → Option Numeral
  | .nan => none
  | .infinite _ => none
  | .finite negative x =>
    let d := x.shortest .even
    some <|
      if d.coefficient = 0 then ⟨negative, ['0'], some ['0'], none⟩
      else if layout.least < d.point ∧ d.point ≤ layout.most then positionalNumeral negative d
      else scientificNumeral negative d

/-- The numeral of a number, if it has one. -/
def Number.numeral? : Number → Option Numeral
  | .natural n => some ⟨false, digits n, none, none⟩
  | .negative n => some ⟨true, digits n, none, none⟩
  | .double x => binaryNumeral? doubleLayout x
  | .single x => binaryNumeral? singleLayout x

theorem binaryText_eq {f : Format} (layout : Layout) (x : Binary f) :
    binaryText layout x = ((binaryNumeral? layout x).map Numeral.chars).getD "null".toList := by
  cases x with
  | nan => rfl
  | infinite negative => rfl
  | finite negative x =>
    rw [binaryText, binaryNumeral?, Option.map_some, Option.getD_some]
    split
    · cases negative <;> rfl
    · split
      · exact (chars_positionalNumeral negative _).symm
      · exact (chars_scientificNumeral negative _).symm

theorem Number.text_eq (n : Number) :
    n.text = (n.numeral?.map Numeral.chars).getD "null".toList := by
  cases n with
  | natural n | negative n =>
    simp [text, numeral?, Numeral.chars, Numeral.fractionChars, Numeral.exponentChars, signChars]
  | double x => exact binaryText_eq doubleLayout x
  | single x => exact binaryText_eq singleLayout x

theorem wellFormed_binaryNumeral? {f : Format} {layout : Layout} {x : Binary f} {m : Numeral}
    (h : binaryNumeral? layout x = some m) : m.WellFormed := by
  cases x with
  | nan => cases h
  | infinite negative => cases h
  | finite negative x =>
    cases h
    split
    · refine ⟨by simp, fun _ => Decimal.isDigit_of_mem_zeros (n := 1), fun _ => rfl, ?_,
        by rintro e ⟨⟩⟩
      rintro ds ⟨⟩
      exact ⟨by simp, fun _ => Decimal.isDigit_of_mem_zeros (n := 1)⟩
    · rename_i hd
      split
      · exact wellFormed_positionalNumeral negative hd
      · exact wellFormed_scientificNumeral negative hd

theorem wellFormed_whole (negative : Bool) (n : Nat) :
    Numeral.WellFormed ⟨negative, digits n, none, none⟩ := by
  refine ⟨digits_ne_nil n, fun _ => isDigit_of_mem_digits, fun h => ?_, by rintro ds ⟨⟩,
    by rintro e ⟨⟩⟩
  by_cases hn : n = 0
  · rw [hn]
    rfl
  · exact absurd h (head?_digits_ne hn)

theorem Number.wellFormed_numeral? {n : Number} {m : Numeral} (h : n.numeral? = some m) :
    m.WellFormed := by
  cases n with
  | natural n =>
    cases h
    exact wellFormed_whole false n
  | negative n =>
    cases h
    exact wellFormed_whole true n
  | double x => exact wellFormed_binaryNumeral? h
  | single x => exact wellFormed_binaryNumeral? h

/-- A number without a numeral is written as null. -/
theorem Number.text_of_numeral? {n : Number} {m : Numeral} (h : n.numeral? = some m) :
    n.text = m.chars := by
  rw [text_eq, h]
  rfl

end BlockDocument.Json
