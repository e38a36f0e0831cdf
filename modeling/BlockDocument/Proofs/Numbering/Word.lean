import Mathlib
import BlockDocument.Command.Parse
import BlockDocument.Proofs.Numbering.Relabel
import BlockDocument.Proofs.Numbering.Replacement
import BlockDocument.Proofs.Numbering.Scan
import BlockDocument.Proofs.Text.Name

/-!
# Words of commands with ids for numbers

What becomes of the words that a reader of commands meets when ids are put for numbers: keywords and
names of kinds and relations stay, since no number is part of them; a reference among words is the
reference to the same block by its id; a position stays, since it follows its keyword.
-/

namespace BlockDocument

open Command (isWordChar)
open Reference (isIdChar)

/-! ## Letters in either case -/

theorem isIdChar_of_toLower {c : Char} (h : isIdChar c.toLower = true) : isIdChar c = true := by
  by_cases hc : 65 ≤ c.toNat ∧ c.toNat ≤ 90
  · have hupper : c.isUpper = true := by
      rw [Char.isUpper, decide_eq_true_eq]
      exact hc
    rw [Reference.isIdChar, Char.isAlphanum, Char.isAlpha, hupper]
    rfl
  · have hlower : c.toLower = c := by
      rw [Char.toLower, dif_neg]
      exact hc
    rwa [hlower] at h

theorem toLower_eq_self_of_isDigit {c : Char} (hc : c.isDigit = true) : c.toLower = c := by
  obtain ⟨i, hi, rfl⟩ := Number.exists_digitChar hc
  have hall : ∀ i : Fin 10, (Nat.digitChar i.val).toLower = Nat.digitChar i.val := by decide
  exact hall ⟨i, hi⟩

/-! ## Keywords -/

/-- Whether a keyword is made of letters and underscores. -/
def isLettered (keyword : String) : Bool :=
  !keyword.toList.isEmpty &&
    (keyword.toList.map Char.toLower).all fun c => isIdChar c && !c.isDigit

theorem toLower_mem {word keyword : String} (h : Text.sameName word keyword = true) {c : Char}
    (hc : c ∈ word.toList) : c.toLower ∈ keyword.toList.map Char.toLower := by
  rw [← String.ofList_toList (s := word)] at h
  exact toLower_mem_of_sameName h hc

/-- A keyword is a word without digits. -/
theorem isName_of_sameName {word keyword : String} (hk : isLettered keyword = true)
    (h : Text.sameName word keyword = true) :
    IsName word.toList ∧ ∀ c ∈ word.toList, c.isDigit = false := by
  rw [isLettered, Bool.and_eq_true, Bool.not_eq_true', List.isEmpty_eq_false_iff,
    List.all_eq_true] at hk
  obtain ⟨hne, hletters⟩ := hk
  have hchar : ∀ c ∈ word.toList, isIdChar c.toLower = true ∧ c.toLower.isDigit = false := by
    intro c hc
    have hletter := hletters _ (toLower_mem h hc)
    rwa [Bool.and_eq_true, Bool.not_eq_true'] at hletter
  refine ⟨⟨fun hnil => hne ?_, fun c hc => isIdChar_of_toLower (hchar c hc).1⟩, fun c hc => ?_⟩
  · rw [Text.sameName, beq_iff_eq, Text.lower, Text.lower, hnil] at h
    have hsame := congrArg String.toList h
    simpa using hsame.symm
  · by_contra hdigit
    rw [Bool.not_eq_false] at hdigit
    have hnot := (hchar c hc).2
    rw [toLower_eq_self_of_isDigit hdigit, hdigit] at hnot
    cases hnot

/-! ## Words in a stance -/

variable {f : List Char → Option (List Char)}

/-- The stance behind a word that may be one that a position follows. -/
def Stance.past (positional : Bool) : Stance → Stance
  | free _ => free positional
  | tail p => tail p

theorem reword_whole {w : List Char} (hw : IsName w) (hwith : isWith w = false) (p : Bool) :
    reword f (.free p) w = (if p then w else (f w).getD w, .free (isPositional w)) := by
  have hreword := reword_name (f := f) hw hwith (rfl : ([] : List Char).head?.any isIdChar = false) p
  rwa [List.append_nil, reword_nil, List.append_nil] at hreword

theorem reword_whole_with {w : List Char} (hw : IsName w) (hwith : isWith w = true) (p : Bool) :
    reword f (.free p) w = (w, .tail p) := by
  have hreword := reword_with (f := f) hw hwith (rfl : ([] : List Char).head?.any isIdChar = false) p
  rwa [List.append_nil] at hreword

namespace Numbering

variable {n : Numbering}

theorem longWord_eq_none {w : List Char} (hne : w ≠ []) (hw : ∀ c ∈ w, c.isDigit = false) :
    n.longWord w = none := by
  obtain ⟨c, hc⟩ := List.exists_mem_of_ne_nil w hne
  refine if_neg fun hall => ?_
  have hdigit := List.all_eq_true.mp hall c hc
  rw [hw c hc] at hdigit
  cases hdigit

/-- A keyword other than `WITH` stays. -/
theorem reword_keyword {word keyword : String} (hk : isLettered keyword = true)
    (h : Text.sameName word keyword = true) (hwith : Text.sameName keyword "WITH" = false)
    (st : Stance) :
    reword n.longWord st word.toList =
      (word.toList, st.past (Text.sameName keyword "INDEX" || Text.sameName keyword "AT")) := by
  obtain ⟨hname, hdigits⟩ := isName_of_sameName hk h
  cases st with
  | tail p => exact reword_tail p _
  | free p =>
    have hwith' : isWith word.toList = false := by
      rw [isWith, String.ofList_toList, sameName_congr h, hwith]
    rw [reword_whole hname hwith', longWord_eq_none hname.ne_nil hdigits, Option.getD_none, ite_self,
      isPositional, String.ofList_toList, sameName_congr h, sameName_congr h]
    rfl

/-- The keyword `WITH` stays, and so does what follows it. -/
theorem reword_keyword_with {word : String} (h : Text.sameName word "WITH" = true) (st : Stance) :
    ∃ p, reword n.longWord st word.toList = (word.toList, .tail p) := by
  obtain ⟨hname, -⟩ := isName_of_sameName (by decide) h
  cases st with
  | tail p => exact ⟨p, reword_tail p _⟩
  | free p =>
    refine ⟨p, reword_whole_with hname ?_ p⟩
    rwa [isWith, String.ofList_toList]

/-- A word that does not stay had a digit and holds an id afterwards. -/
theorem reword_eq_or (hn : n.Issued) (st : Stance) (w : List Char) :
    (reword n.longWord st w).1 = w ∨
      (∃ c ∈ w, c.isDigit = true) ∧ 'k' ∈ (reword n.longWord st w).1 := by
  induction st, w using word_induction with
  | nil st => exact .inl (by rw [reword_nil])
  | tail p w => exact .inl (by rw [reword_tail])
  | keyword p w rest hname hwith hstop => exact .inl (by rw [reword_with hname hwith hstop])
  | name p w rest hname hwith hstop ih =>
    -- a name that is replaced is a number, and what stands for it is an id
    have hpart : (if p then w else (n.longWord w).getD w) = w ∨
        (∃ c ∈ w, c.isDigit = true) ∧ 'k' ∈ (if p then w else (n.longWord w).getD w) := by
      cases p with
      | true => exact .inl rfl
      | false =>
        cases h : n.longWord w with
        | none => exact .inl rfl
        | some w' =>
          obtain ⟨hdigits, id, k, -, hlong, rfl⟩ := longWord_eq_some h
          obtain ⟨c, hc⟩ := List.exists_mem_of_ne_nil w hname.ne_nil
          exact .inr ⟨⟨c, hc, hdigits c hc⟩,
            (BlockId.isName_of_isWellFormed (hn id (mem_of_long? hlong).1)).2⟩
    rw [reword_name hname hwith hstop]
    rcases hpart with hpart | ⟨⟨c, hc, hdigit⟩, hk⟩
    · rcases ih with ih | ⟨⟨c, hc, hdigit⟩, hk⟩
      · exact .inl (by rw [hpart, ih])
      · exact .inr ⟨⟨c, List.mem_append_right _ hc, hdigit⟩, List.mem_append_right _ hk⟩
    · exact .inr ⟨⟨c, List.mem_append_left _ hc, hdigit⟩, List.mem_append_left _ hk⟩
  | other p c cs hc ih =>
    rw [reword_other hc]
    rcases ih with ih | ⟨⟨a, ha, hdigit⟩, hk⟩
    · exact .inl (by rw [ih])
    · exact .inr ⟨⟨a, List.mem_cons_of_mem _ ha, hdigit⟩, List.mem_cons_of_mem _ hk⟩

/-- No word turns into a keyword or is one no more. -/
theorem sameName_reword (hn : n.Issued) {keyword : String} (hk : isLettered keyword = true)
    (hid : 'k' ∉ keyword.toList.map Char.toLower) (st : Stance) (word : String) :
    Text.sameName (String.ofList (reword n.longWord st word.toList).1) keyword =
      Text.sameName word keyword := by
  rcases reword_eq_or hn st word.toList with h | ⟨⟨c, hc, hdigit⟩, hmem⟩
  · rw [h, String.ofList_toList]
  · have hbefore : Text.sameName word keyword = false := by
      by_contra h
      rw [Bool.not_eq_false] at h
      rw [(isName_of_sameName hk h).2 c hc] at hdigit
      cases hdigit
    rw [hbefore]
    by_contra h
    rw [Bool.not_eq_false] at h
    exact hid (toLower_mem_of_sameName h hmem)

/-! ## Positions, paths and references -/

/-- A position is made of digits, maybe behind a plus sign. -/
theorem digits_of_positionOf? {w : List Char} {i : Nat}
    (h : Command.Reader.positionOf? w = some i) :
    ∃ ds, (w = ds ∨ w = '+' :: ds) ∧ ds ≠ [] ∧ ∀ c ∈ ds, c.isDigit = true := by
  have hall (ds : List Char) (h : (if !ds.isEmpty && ds.all Char.isDigit then
      Number.below? Command.Reader.positionBound ds else none) = some i) :
      ds ≠ [] ∧ ∀ c ∈ ds, c.isDigit = true := by
    split at h
    · rename_i hds
      rwa [Bool.and_eq_true, Bool.not_eq_true', List.isEmpty_eq_false_iff, List.all_eq_true] at hds
    · cases h
  by_cases hplus : ∃ ds, w = '+' :: ds
  · obtain ⟨ds, rfl⟩ := hplus
    exact ⟨ds, .inr rfl, hall ds h⟩
  · refine ⟨w, .inl rfl, hall w ?_⟩
    rwa [Command.Reader.positionOf?] at h
    exact fun ds hds => hplus ⟨ds, hds⟩

/-- A position stays behind its keyword. -/
theorem reword_position {w : List Char} {i : Nat} (h : Command.Reader.positionOf? w = some i)
    {st : Stance} (hst : st = .free true ∨ ∃ p, st = .tail p) :
    (reword n.longWord st w).1 = w := by
  rcases hst with rfl | ⟨p, rfl⟩
  · obtain ⟨ds, hw, hne, hds⟩ := digits_of_positionOf? h
    obtain ⟨hname, hwith, -⟩ := isName_of_isDigit hne hds
    have hdigits : (reword n.longWord (.free true) ds).1 = ds := by
      rw [reword_whole hname hwith]
      rfl
    rcases hw with rfl | rfl
    · exact hdigits
    · rw [reword_other (by decide), hdigits]
  · rw [reword_tail]

/-- A path without numbers stays. -/
theorem reword_path {path : String} (hpath : ∀ c ∈ path.toList, isWordChar c = true)
    (h : n.expand path = path) : (reword n.longWord (.free false) path.toList).1 = path.toList := by
  have hstop : ([] : List Char).head?.any isIdChar = false := rfl
  have htext := (passes_reword (f := n.longWord) hpath hstop 0 (.free false)).text
  rw [List.append_nil, replaceFrom_nil, List.append_nil] at htext
  rw [← htext]
  have hexpand := congrArg String.toList h
  rw [expand, String.toList_ofList, replaceWords_eq] at hexpand
  exact hexpand

theorem isName_of_ofWord? {w : List Char} {r : Reference} (h : Reference.ofWord? w = some r) :
    IsName w := by
  rw [Reference.ofWord?] at h
  split at h
  · cases h
  · rename_i hw
    rw [Bool.or_eq_true, not_or, List.isEmpty_iff, Bool.not_eq_true, Bool.not_eq_false',
      List.all_eq_true] at hw
    exact ⟨hw.1, hw.2⟩

/-- An id of the issued form is a reference by an id. -/
theorem ofWord?_text_of_long? (hn : n.Issued) {id : BlockId} {k : Nat} (h : n.long? k = some id) :
    Reference.ofWord? id.text.toList = some (.long id.text) := by
  obtain ⟨⟨hne, hchars⟩, hk⟩ := BlockId.isName_of_isWellFormed (hn id (mem_of_long? h).1)
  have hempty : id.text.toList.isEmpty = false := List.isEmpty_eq_false_iff.mpr hne
  have hdigits : id.text.toList.all Char.isDigit = false :=
    List.all_eq_false.mpr ⟨'k', hk, by decide⟩
  rw [Reference.ofWord?, hempty, List.all_eq_true.mpr hchars, hdigits, String.ofList_toList]
  rfl

/-- The word of a reference is replaced by that of the relabelled one. -/
theorem ofWord?_longWord (hn : n.Issued) {w : List Char} {r : Reference}
    (h : Reference.ofWord? w = some r) :
    Reference.ofWord? ((n.longWord w).getD w) = some (r.relabel n) := by
  have hparse := h
  rw [Reference.ofWord?] at h
  split at h
  · cases h
  split at h
  · rename_i hdigits
    obtain ⟨k, hk, rfl⟩ := Option.map_eq_some_iff.mp h
    rw [longWord, if_pos hdigits, hk, Option.bind_some, Reference.relabel]
    cases hlong : n.long? k with
    | none => exact hparse
    | some id => exact ofWord?_text_of_long? hn hlong
  · rename_i hdigits
    cases h
    rw [longWord, if_neg hdigits]
    exact hparse

theorem text_of_isWith {w : List Char} {r : Reference} (h : Reference.ofWord? w = some r)
    (hwith : BlockDocument.isWith w = true) : r.text = w := by
  have hname := isName_of_ofWord? h
  rw [Reference.ofWord?] at h
  split at h
  · cases h
  split at h
  · rename_i hdigits
    rw [(isName_of_isDigit hname.ne_nil (List.all_eq_true.mp hdigits)).2.1] at hwith
    cases hwith
  · cases h
    exact String.toList_ofList

/-- A reference among words is the relabelled one, and words follow it unless it is `WITH`. -/
theorem reword_reference (hn : n.Issued) {w : List Char} {r : Reference}
    (h : Reference.ofWord? w = some r) (st : Stance) :
    ∃ r', Reference.ofWord? (reword n.longWord st w).1 = some r' ∧
      (st = .free false → r.isWith = false →
        r' = r.relabel n ∧ ∃ p, (reword n.longWord st w).2 = .free p) := by
  have hname := isName_of_ofWord? h
  cases st with
  | tail p =>
    rw [reword_tail]
    exact ⟨r, h, fun hst => nomatch hst⟩
  | free p =>
    cases hwith : BlockDocument.isWith w with
    | true =>
      rw [reword_whole_with hname hwith]
      refine ⟨r, h, fun _ hr => ?_⟩
      rw [Reference.isWith, text_of_isWith h hwith, hwith] at hr
      cases hr
    | false =>
      rw [reword_whole hname hwith]
      cases p with
      | true => exact ⟨r, h, fun hst => nomatch hst⟩
      | false => exact ⟨r.relabel n, ofWord?_longWord hn h, fun _ _ => ⟨rfl, _, rfl⟩⟩

end Numbering

end BlockDocument
