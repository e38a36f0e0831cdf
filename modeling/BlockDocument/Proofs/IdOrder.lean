import Mathlib
import BlockDocument.Proofs.Allocator
import BlockDocument.Proofs.BlockId

/-!
# The order of issued ids

Ids are sorted by their texts, character by character, and that is the order of their bytes in UTF-8
(`BlockId.compare_eq_lt_iff`). The digits of an issued id fill a fixed number of places and stand in
the order of their values, so issued ids are sorted by their numbers.
-/

namespace BlockDocument

/-! ## Texts and their bytes -/

/-- The bytes of characters are in the order of the characters, whatever follows them. -/
theorem utf8EncodeChar_append_lt {c d : Char} (h : c < d) (us vs : List UInt8) :
    String.utf8EncodeChar c ++ us < String.utf8EncodeChar d ++ vs := by
  have hlt : c.val.toNat < d.val.toNat := h
  have hbound : d.val.toNat < 2097152 := by
    rcases d.valid with h | ⟨-, h⟩
    · exact Nat.lt_trans h (by decide)
    · exact Nat.lt_trans h (by decide)
  simp only [String.utf8EncodeChar]
  generalize c.val.toNat = m at hlt ⊢
  generalize d.val.toNat = n at hlt hbound ⊢
  by_cases hm : m ≤ 65535
  · split_ifs <;>
    · simp only [List.cons_append, List.nil_append, List.cons_lt_cons_iff, UInt8.lt_iff_toNat_lt,
        UInt8.toNat_ofNat', ← UInt8.toNat_inj]
      omega
  · -- both take four bytes, and the first digit of base 64 that differs decides
    have hdigit (k : Nat) : m / k < n / k ∨ m / k = n / k :=
      (Nat.div_le_div_right hlt.le).lt_or_eq
    rw [if_neg (by omega), if_neg (by omega), if_neg hm, if_neg (by omega), if_neg (by omega),
      if_neg (by omega)]
    simp only [List.cons_append, List.nil_append, List.cons_lt_cons_iff, UInt8.lt_iff_toNat_lt,
      UInt8.toNat_ofNat', ← UInt8.toNat_inj]
    rcases hdigit 262144 with h3 | h3
    · omega
    rcases hdigit 4096 with h2 | h2
    · omega
    rcases hdigit 64 with h1 | h1
    · omega
    · omega

theorem utf8_eq_flatMap (s : String) : utf8 s = s.toList.flatMap String.utf8EncodeChar := by
  obtain ⟨cs, rfl⟩ : ∃ cs, s = String.ofList cs := ⟨s.toList, String.ofList_toList.symm⟩
  rw [utf8_eq, String.toByteArray_ofList, String.toList_ofList, List.utf8Encode,
    List.toList_data_toByteArray]

theorem flatMap_utf8EncodeChar_lt {cs ds : List Char} (h : cs < ds) :
    cs.flatMap String.utf8EncodeChar < ds.flatMap String.utf8EncodeChar := by
  induction h with
  | nil =>
    rw [List.flatMap_nil, List.flatMap_cons]
    obtain ⟨b, bs, hbytes⟩ := List.exists_cons_of_ne_nil String.utf8EncodeChar_ne_nil
    rw [hbytes]
    exact List.nil_lt_cons b _
  | rel h =>
    rw [List.flatMap_cons, List.flatMap_cons]
    exact utf8EncodeChar_append_lt h _ _
  | cons _ ih =>
    rw [List.flatMap_cons, List.flatMap_cons]
    exact List.append_left_lt ih

/-- **Texts are in the order of their bytes.** -/
theorem utf8_lt_iff {s t : String} : utf8 s < utf8 t ↔ s < t := by
  have hmono {s t : String} (h : s < t) : utf8 s < utf8 t := by
    rw [utf8_eq_flatMap, utf8_eq_flatMap]
    exact flatMap_utf8EncodeChar_lt (String.lt_iff.mp h)
  refine ⟨fun h => ?_, hmono⟩
  rcases lt_trichotomy s t with hlt | rfl | hgt
  · exact hlt
  · exact absurd h (List.lt_irrefl _)
  · exact absurd (hmono hgt) (List.lt_asymm h)

/-! ## Digits and their values -/

/-- Behind texts of one length nothing counts. -/
theorem append_lt_append {cs ds : List Char} (h : cs < ds) (hlength : cs.length = ds.length)
    (us vs : List Char) : cs ++ us < ds ++ vs := by
  induction h with
  | nil => cases hlength
  | rel h => exact .rel h
  | cons _ ih => exact .cons (ih (Nat.succ.inj hlength))

theorem digitChar_lt {i j : Nat} (h : i < j) (hj : j < 16) : Nat.digitChar i < Nat.digitChar j := by
  have hall : ∀ j : Fin 16, ∀ i : Fin j.val, Nat.digitChar i.val < Nat.digitChar j.val := by decide
  exact hall ⟨j, hj⟩ ⟨i, h⟩

namespace BlockId

/-- Digits in as many places are in the order of the numbers that they denote. -/
theorem lt_of_hexNumber?_lt {cs ds : List Char} {m n : Nat} (hlength : cs.length = ds.length)
    (hcs : ∀ c ∈ cs, isHexDigit c = true) (hds : ∀ c ∈ ds, isHexDigit c = true)
    (hc : Number.hexNumber? cs = some m) (hd : Number.hexNumber? ds = some n) (hlt : m < n) :
    cs < ds := by
  induction cs using List.reverseRecOn generalizing ds m n with
  | nil =>
    obtain rfl : ds = [] := List.length_eq_zero_iff.mp hlength.symm
    cases hc.symm.trans hd
    exact absurd hlt (Nat.lt_irrefl _)
  | append_singleton cs c ih =>
    rcases List.eq_nil_or_concat' ds with rfl | ⟨ds, d, rfl⟩
    · simp at hlength
    rw [List.forall_mem_append, List.forall_mem_singleton] at hcs hds
    obtain ⟨m', hm, hdiv, hlast⟩ := exists_of_hexNumber?_concat hcs.2 hc
    obtain ⟨n', hn, hdiv', hlast'⟩ := exists_of_hexNumber?_concat hds.2 hd
    have hlength : cs.length = ds.length := by simpa using hlength
    rcases (show m' ≤ n' by omega).lt_or_eq with hfirst | rfl
    · exact append_lt_append (ih hlength hcs.1 hds.1 hm hn hfirst) hlength _ _
    · obtain rfl : cs = ds := eq_of_hexNumber?_eq hlength hcs.1 hds.1 hm hn
      rw [← hlast, ← hlast']
      exact List.append_left_lt (.rel (digitChar_lt (by omega) (Nat.mod_lt _ (by decide))))

theorem hexDigits_lt {m n : Nat} (hlt : m < n) (hn : n ≤ maxSuffix) : hexDigits m < hexDigits n := by
  have hlength : (hexDigits m).length = (hexDigits n).length := by
    rw [length_hexDigits (by omega), length_hexDigits hn]
  exact lt_of_hexNumber?_lt hlength (isHexDigit_hexDigits m) (isHexDigit_hexDigits n)
    (hexNumber?_hexDigits m) (hexNumber?_hexDigits n) hlt

/-! ## Ids -/

/-- Ids are sorted by the bytes of their texts. -/
theorem compare_eq_lt_iff {a b : BlockId} : compare a b = .lt ↔ utf8 a.text < utf8 b.text := by
  rw [utf8_lt_iff]
  exact compareOfLessAndEq_eq_lt

theorem compare_ofSuffix_of_lt {m n : Nat} (hlt : m < n) (hn : n ≤ maxSuffix) :
    compare (ofSuffix m) (ofSuffix n) = .lt := by
  rw [compare_eq_lt_iff, utf8_lt_iff, String.lt_iff]
  simp only [ofSuffix, String.toList_ofList]
  exact List.append_left_lt (hexDigits_lt hlt hn)

theorem compare_ofSuffix {m n : Nat} (hm : m ≤ maxSuffix) (hn : n ≤ maxSuffix) :
    compare (ofSuffix m) (ofSuffix n) = compare m n := by
  rcases Nat.lt_trichotomy m n with hlt | rfl | hgt
  · rw [compare_ofSuffix_of_lt hlt hn, Nat.compare_eq_lt.mpr hlt]
  · have hself : compare (ofSuffix m) (ofSuffix m) = .eq := Std.ReflCmp.compare_self
    rw [hself, Nat.compare_eq_eq.mpr rfl]
  · have hswap : compare (ofSuffix m) (ofSuffix n) = (compare (ofSuffix n) (ofSuffix m)).swap :=
      Std.OrientedCmp.eq_swap
    rw [hswap, compare_ofSuffix_of_lt hgt hm, Nat.compare_eq_gt.mpr hgt]
    rfl

/-- Beyond the greatest number there is no room for the digits. -/
theorem isWellFormed_ofSuffix_iff {n : Nat} : (ofSuffix n).isWellFormed = true ↔ n ≤ maxSuffix := by
  constructor
  · intro h
    obtain ⟨m, hm⟩ := isWellFormed_iff.mp h
    obtain ⟨hmax, hid⟩ := eq_ofSuffix hm
    -- the digits are those of a number that is not too great, and so is the number
    have htext := congrArg String.toList (congrArg text hid)
    rw [ofSuffix, ofSuffix, String.toList_ofList, String.toList_ofList] at htext
    have hdigits : hexDigits n = hexDigits m := List.append_cancel_left htext
    have hsame : some n = some m := by
      rw [← hexNumber?_hexDigits n, hdigits, hexNumber?_hexDigits]
    cases hsame
    exact hmax
  · intro h
    exact isWellFormed_iff.mpr ⟨n, suffix?_ofSuffix h⟩

/-- **Issued ids are an order-preserving code of their numbers.** The id with a number has the form of
an issued one if the number is not too great, and then the number comes back from it; an id of that
form is the one with its number; and ids are sorted by their numbers, in the order of their bytes. -/
theorem ofSuffix_encodes :
    (∀ n, (ofSuffix n).isWellFormed = true ↔ n ≤ maxSuffix) ∧
    (∀ n ≤ maxSuffix, (ofSuffix n).suffix? = some n) ∧
    (∀ id : BlockId, id.isWellFormed = true → ∃ n, id.suffix? = some n ∧ ofSuffix n = id) ∧
    ∀ m n, m ≤ maxSuffix → n ≤ maxSuffix →
      compare (ofSuffix m) (ofSuffix n) = compare m n ∧
      (utf8 (ofSuffix m).text < utf8 (ofSuffix n).text ↔ m < n) := by
  refine ⟨fun n => isWellFormed_ofSuffix_iff, fun n hn => suffix?_ofSuffix hn, fun id h => ?_,
    fun m n hm hn => ⟨compare_ofSuffix hm hn, ?_⟩⟩
  · obtain ⟨n, hn⟩ := isWellFormed_iff.mp h
    exact ⟨n, hn, (eq_ofSuffix hn).2.symm⟩
  · rw [← compare_eq_lt_iff, compare_ofSuffix hm hn, Nat.compare_eq_lt]

/-- The greatest number, the one after it, and two numbers whose ids differ first in a figure and a
letter. -/
theorem ofSuffix_encodes_greatest :
    maxSuffix = 281474976710655 ∧ (ofSuffix maxSuffix).suffix? = some maxSuffix ∧
      (ofSuffix (maxSuffix + 1)).isWellFormed = false ∧
      (∃ n, (⟨"blk_00000000beef"⟩ : BlockId).suffix? = some n ∧ ofSuffix n = ⟨"blk_00000000beef"⟩) ∧
      compare (ofSuffix 0x9f) (ofSuffix 0xa0) = .lt := by
  obtain ⟨hform, hsuffix, hid, horder⟩ := ofSuffix_encodes
  refine ⟨by decide, hsuffix _ (Nat.le_refl _), ?_, hid _ (by decide +kernel), ?_⟩
  · rw [← Bool.not_eq_true, hform]
    exact Nat.not_succ_le_self _
  · rw [(horder _ _ (by decide) (by decide)).1]
    decide

end BlockId

end BlockDocument
