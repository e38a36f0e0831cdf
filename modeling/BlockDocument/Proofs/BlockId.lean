import Mathlib
import BlockDocument.BlockId

/-!
# The numbers of issued ids

The id with a number, up to the greatest one that an id has room for, has the form of an issued one,
and its digits denote the number again. So no two of these numbers share an id, and every id of that
form is the one with its number.
-/

namespace BlockDocument

-- Powers are those of the core library, whatever else is imported.
attribute [local instance (high)] instPowNat

namespace Number

/-- One step of `hexNumber?`. -/
def appendHexDigit (n : Nat) (c : Char) : Option Nat := (hexValue? c).map (16 * n + ·)

theorem hexNumber?_eq (cs : List Char) : hexNumber? cs = cs.foldlM appendHexDigit 0 := rfl

theorem appendHexDigit_digitChar (n : Nat) {i : Nat} (hi : i < 16) :
    appendHexDigit n (Nat.digitChar i) = some (16 * n + i) := by
  have hvalue := hexValue?_hexDigit i
  rw [hexDigit, Nat.mod_eq_of_lt hi] at hvalue
  rw [appendHexDigit, hvalue]
  rfl

theorem hexNumber?_concat (cs : List Char) (c : Char) :
    hexNumber? (cs ++ [c]) = (hexNumber? cs).bind (appendHexDigit · c) := by
  rw [hexNumber?_eq, List.foldlM_append, ← hexNumber?_eq]
  cases hexNumber? cs with
  | none => rfl
  | some n =>
    show (appendHexDigit n c >>= fun m => some m) = appendHexDigit n c
    cases appendHexDigit n c <;> rfl

/-- The digits of a number in base sixteen denote it. -/
theorem hexNumber?_toDigits (n : Nat) : hexNumber? (Nat.toDigits 16 n) = some n := by
  induction n using Nat.strong_induction_on with
  | _ n ih =>
    by_cases hn : n < 16
    · rw [Nat.toDigits_of_lt_base hn, hexNumber?_eq, List.foldlM_cons,
        appendHexDigit_digitChar 0 hn]
      simp
    · have hlast : n % 16 < 16 := Nat.mod_lt n (by decide)
      have hfirst : hexNumber? (Nat.toDigits 16 (n / 16)) = some (n / 16) := ih _ (by omega)
      rw [Nat.toDigits_of_base_le (by decide) (by omega), hexNumber?_concat, hfirst, Option.bind_some,
        appendHexDigit_digitChar _ hlast, Nat.div_add_mod]

/-- Zeros in front denote nothing. -/
theorem hexNumber?_zeros (k : Nat) (cs : List Char) :
    hexNumber? (List.replicate k '0' ++ cs) = hexNumber? cs := by
  induction k with
  | zero => rfl
  | succ k ih =>
    rw [List.replicate_succ, List.cons_append, ← ih, hexNumber?_eq, List.foldlM_cons]
    rfl

end Number

namespace BlockId

variable {n : Nat}

theorem hexNumber?_hexDigits (n : Nat) : Number.hexNumber? (hexDigits n) = some n := by
  rw [hexDigits, Number.hexNumber?_zeros, Number.hexNumber?_toDigits]

theorem length_hexDigits (h : n ≤ maxSuffix) : (hexDigits n).length = digitCount := by
  have hlength : (Nat.toDigits 16 n).length ≤ digitCount := by
    refine (Nat.length_toDigits_le_iff (by decide) (by decide)).mpr ?_
    have hmax : maxSuffix < 16 ^ digitCount := by decide
    omega
  rw [hexDigits, List.length_append, List.length_replicate]
  omega

theorem isHexDigit_digitChar {i : Nat} (hi : i < 16) : isHexDigit (Nat.digitChar i) = true := by
  have digit : ∀ i : Fin 16, isHexDigit (Nat.digitChar i.val) = true := by decide
  exact digit ⟨i, hi⟩

theorem isHexDigit_toDigits (n : Nat) : ∀ c ∈ Nat.toDigits 16 n, isHexDigit c = true := by
  induction n using Nat.strong_induction_on with
  | _ n ih =>
    intro c hc
    by_cases hn : n < 16
    · rw [Nat.toDigits_of_lt_base hn, List.mem_singleton] at hc
      rw [hc]
      exact isHexDigit_digitChar hn
    · rw [Nat.toDigits_of_base_le (by decide) (by omega), List.mem_append, List.mem_singleton] at hc
      rcases hc with hc | rfl
      · exact ih _ (by omega) c hc
      · exact isHexDigit_digitChar (Nat.mod_lt n (by decide))

theorem isHexDigit_hexDigits (n : Nat) : ∀ c ∈ hexDigits n, isHexDigit c = true := by
  intro c hc
  rcases List.mem_append.mp hc with hc | hc
  · rw [List.eq_of_mem_replicate hc]
    decide
  · exact isHexDigit_toDigits n c hc

/-- Twelve digits behind the mark make an id of the form of issued ones. -/
theorem suffixDigits?_of_digits {ds : List Char} (hlength : ds.length = digitCount)
    (hds : ∀ c ∈ ds, isHexDigit c = true) :
    (mk (String.ofList (mark ++ ds))).suffixDigits? = some ds := by
  rw [suffixDigits?, String.toList_ofList]
  exact if_pos ⟨hlength, List.all_eq_true.mpr hds⟩

theorem suffixDigits?_ofSuffix (h : n ≤ maxSuffix) :
    (ofSuffix n).suffixDigits? = some (hexDigits n) :=
  suffixDigits?_of_digits (length_hexDigits h) (isHexDigit_hexDigits n)

/-- **The number of an issued id is the one that it was issued for.** -/
theorem suffix?_ofSuffix (h : n ≤ maxSuffix) : (ofSuffix n).suffix? = some n := by
  rw [suffix?, suffixDigits?_ofSuffix h]
  exact hexNumber?_hexDigits n

theorem ofSuffix_inj {m : Nat} (hm : m ≤ maxSuffix) (hn : n ≤ maxSuffix) :
    ofSuffix m = ofSuffix n ↔ m = n := by
  refine ⟨fun h => Option.some.inj ?_, congrArg ofSuffix⟩
  rw [← suffix?_ofSuffix hm, h, suffix?_ofSuffix hn]

/-! ## Ids of the form of issued ones -/

/-- A digit of an issued id is the one that is written for its value. -/
theorem exists_of_isHexDigit {c : Char} (h : isHexDigit c = true) :
    ∃ i < 16, Number.hexValue? c = some i ∧ Nat.digitChar i = c := by
  have small : ∀ i : Fin 128, isHexDigit (Char.ofNat i.val) = true →
      ∃ j : Fin 16, Number.hexValue? (Char.ofNat i.val) = some j.val ∧
        Nat.digitChar j.val = Char.ofNat i.val := by decide +kernel
  have hlt : c.toNat < 128 := by
    rw [isHexDigit, Bool.or_eq_true, Char.isDigit, Bool.and_eq_true, Bool.and_eq_true,
      decide_eq_true_iff, decide_eq_true_iff, decide_eq_true_iff, decide_eq_true_iff] at h
    rcases h with ⟨-, h⟩ | ⟨-, h⟩
    · exact Nat.lt_of_le_of_lt (UInt32.le_iff_toNat_le.mp h) (by decide)
    · exact Nat.lt_of_le_of_lt (UInt32.le_iff_toNat_le.mp (Char.le_def.mp h)) (by decide)
  have hc : Char.ofNat c.toNat = c := Char.ofNat_toNat c
  have hsmall := small ⟨c.toNat, hlt⟩
  rw [hc] at hsmall
  obtain ⟨j, hvalue, hchar⟩ := hsmall h
  exact ⟨j.val, j.isLt, hvalue, hchar⟩

/-- The last digit is the remainder of the number that a text of digits denotes. -/
theorem exists_of_hexNumber?_concat {cs : List Char} {c : Char} {n : Nat}
    (hc : isHexDigit c = true) (h : Number.hexNumber? (cs ++ [c]) = some n) :
    ∃ m, Number.hexNumber? cs = some m ∧ n / 16 = m ∧ Nat.digitChar (n % 16) = c := by
  obtain ⟨i, hi, hvalue, hchar⟩ := exists_of_isHexDigit hc
  rw [Number.hexNumber?_concat, Option.bind_eq_some_iff] at h
  obtain ⟨m, hm, h⟩ := h
  rw [Number.appendHexDigit, hvalue, Option.map_some, Option.some_inj] at h
  refine ⟨m, hm, by omega, ?_⟩
  rw [show n % 16 = i by omega]
  exact hchar

/-- Digits of a given length denote the same number only if they are the same. -/
theorem eq_of_hexNumber?_eq {cs ds : List Char} {n : Nat} (hlength : cs.length = ds.length)
    (hcs : ∀ c ∈ cs, isHexDigit c = true) (hds : ∀ c ∈ ds, isHexDigit c = true)
    (hc : Number.hexNumber? cs = some n) (hd : Number.hexNumber? ds = some n) : cs = ds := by
  induction cs using List.reverseRecOn generalizing ds n with
  | nil => exact (List.length_eq_zero_iff.mp hlength.symm).symm
  | append_singleton cs c ih =>
    rcases List.eq_nil_or_concat' ds with rfl | ⟨ds, d, rfl⟩
    · simp at hlength
    · rw [List.forall_mem_append, List.forall_mem_singleton] at hcs hds
      obtain ⟨m, hm, hdiv, hlast⟩ := exists_of_hexNumber?_concat hcs.2 hc
      obtain ⟨m', hm', hdiv', hlast'⟩ := exists_of_hexNumber?_concat hds.2 hd
      have hfirst : cs = ds := by
        refine ih ?_ hcs.1 hds.1 hm ?_
        · simpa using hlength
        · rw [hm', ← hdiv, ← hdiv']
      rw [hfirst, ← hlast, ← hlast']

theorem lt_of_hexNumber?_eq {cs : List Char} {n : Nat} (hcs : ∀ c ∈ cs, isHexDigit c = true)
    (h : Number.hexNumber? cs = some n) : n < 16 ^ cs.length := by
  induction cs using List.reverseRecOn generalizing n with
  | nil =>
    cases h
    decide
  | append_singleton cs c ih =>
    rw [List.forall_mem_append, List.forall_mem_singleton] at hcs
    obtain ⟨m, hm, hdiv, -⟩ := exists_of_hexNumber?_concat hcs.2 h
    have hlt := ih hcs.1 hm
    rw [List.length_append, List.length_singleton, Nat.pow_succ]
    omega

/-- The form of issued ids: the prefix and the digits behind it. -/
theorem suffixDigits?_eq_some {id : BlockId} {ds : List Char} (h : id.suffixDigits? = some ds) :
    id.text.toList = 'b' :: 'l' :: 'k' :: '_' :: ds ∧ ds.length = digitCount ∧
      ∀ c ∈ ds, isHexDigit c = true := by
  rw [suffixDigits?] at h
  split at h
  · rename_i ds' htext
    split at h
    · rename_i hform
      cases h
      exact ⟨htext, hform.1, List.all_eq_true.mp hform.2⟩
    · cases h
  · cases h

/-- **An id with a number is the one that is issued for it.** -/
theorem eq_ofSuffix {id : BlockId} {n : Nat} (h : id.suffix? = some n) :
    n ≤ maxSuffix ∧ id = ofSuffix n := by
  obtain ⟨text⟩ := id
  rw [suffix?, Option.bind_eq_some_iff] at h
  obtain ⟨ds, hds, h⟩ := h
  obtain ⟨htext, hlength, hall⟩ := suffixDigits?_eq_some hds
  have hlt := lt_of_hexNumber?_eq hall h
  rw [hlength] at hlt
  have hmax : n ≤ maxSuffix := Nat.le_sub_one_of_lt hlt
  have hdigits : ds = hexDigits n :=
    eq_of_hexNumber?_eq (hlength.trans (length_hexDigits hmax).symm) hall (isHexDigit_hexDigits n) h
      (hexNumber?_hexDigits n)
  refine ⟨hmax, ?_⟩
  rw [ofSuffix, ← hdigits, mk.injEq]
  exact String.ofList_toList.symm.trans (congrArg String.ofList htext)

theorem exists_hexNumber?_eq {cs : List Char} (hcs : ∀ c ∈ cs, isHexDigit c = true) :
    ∃ n, Number.hexNumber? cs = some n := by
  induction cs using List.reverseRecOn with
  | nil => exact ⟨0, rfl⟩
  | append_singleton cs c ih =>
    rw [List.forall_mem_append, List.forall_mem_singleton] at hcs
    obtain ⟨n, hn⟩ := ih hcs.1
    obtain ⟨i, -, hvalue, -⟩ := exists_of_isHexDigit hcs.2
    rw [Number.hexNumber?_concat, hn, Option.bind_some, Number.appendHexDigit, hvalue]
    exact ⟨_, rfl⟩

/-- The ids of the form of issued ones are those with a number. -/
theorem isWellFormed_iff {id : BlockId} :
    id.isWellFormed = true ↔ ∃ n, id.suffix? = some n := by
  rw [isWellFormed, Option.isSome_iff_exists]
  constructor
  · rintro ⟨ds, hds⟩
    rw [suffix?, hds, Option.bind_some]
    exact exists_hexNumber?_eq (suffixDigits?_eq_some hds).2.2
  · rintro ⟨n, hn⟩
    obtain ⟨ds, hds, -⟩ := Option.bind_eq_some_iff.mp hn
    exact ⟨ds, hds⟩

end BlockId

end BlockDocument
