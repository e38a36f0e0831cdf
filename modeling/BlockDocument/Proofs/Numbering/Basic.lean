import Mathlib
import BlockDocument.Numbering.Replacement
import BlockDocument.Proofs.BlockId
import BlockDocument.Proofs.Document.Walk
import BlockDocument.Proofs.Number.Decimal
import BlockDocument.Proofs.Numbering.Cut

/-!
# Numbers and ids as words

A numbering lists every block of its document once, so a number and the id that it stands for
determine each other. Ids of the issued form are words, and so are numbers; none of them is a
keyword, and a text in which one stands for the other keeps its shape.
-/

namespace BlockDocument

open Reference (isIdChar)

/-! ## Numberings -/

namespace Numbering

theorem long?_of_short? {n : Numbering} {id : BlockId} {k : Nat} (h : n.short? id = some k) :
    n.long? k = some id := by
  rw [short?, Option.map_eq_some_iff] at h
  obtain ⟨i, hi, rfl⟩ := h
  obtain ⟨hlt, hid, -⟩ := List.idxOf?_eq_some_iff.mp hi
  exact List.getElem?_eq_some_iff.mpr ⟨hlt, hid⟩

theorem short?_of_long? {n : Numbering} (hn : n.ids.Nodup) {id : BlockId} {k : Nat}
    (h : n.long? k = some id) : n.short? id = some k := by
  cases k with
  | zero => cases h
  | succ i =>
    obtain ⟨hlt, hid⟩ := List.getElem?_eq_some_iff.mp h
    have hi : n.ids.idxOf? id = some i := by
      refine List.idxOf?_eq_some_iff.mpr ⟨hlt, hid, fun j hj hsame => ?_⟩
      have : j = i := hn.getElem_inj_iff.mp (hsame.trans hid.symm)
      omega
    rw [short?, hi]
    rfl

/-- The number and the block that it stands for determine each other. -/
theorem short?_eq_some_iff {n : Numbering} (hn : n.ids.Nodup) {id : BlockId} {k : Nat} :
    n.short? id = some k ↔ n.long? k = some id :=
  ⟨long?_of_short?, short?_of_long? hn⟩

theorem short?_eq_none_iff {n : Numbering} {id : BlockId} : n.short? id = none ↔ id ∉ n.ids := by
  rw [short?, Option.map_eq_none_iff, List.idxOf?_eq_none_iff]

theorem mem_of_long? {n : Numbering} {id : BlockId} {k : Nat} (h : n.long? k = some id) :
    id ∈ n.ids ∧ 0 < k ∧ k ≤ n.size := by
  cases k with
  | zero => cases h
  | succ i =>
    obtain ⟨hlt, hid⟩ := List.getElem?_eq_some_iff.mp h
    exact ⟨List.mem_of_getElem? h, Nat.succ_pos i, hlt⟩

theorem mem_ids_ofDocument {d : Document} {id : BlockId} :
    id ∈ (ofDocument d).ids ↔ d.contains id = true := by
  have hkeys : id ∈ d.blocks.keys ↔ d.contains id = true := by
    rw [Std.ExtTreeMap.mem_keys, Document.contains, Std.ExtTreeMap.contains_iff_mem]
  have hmet : d.reachable.contains id = false ↔ id ∉ d.order := by
    rw [← Bool.not_eq_true, Std.ExtTreeSet.contains_iff_mem, Document.mem_reachable,
      Document.mem_order]
  have horder : id ∈ d.order → d.contains id = true := fun h => (Document.mem_order.mp h).2
  simp only [ofDocument, List.mem_append, List.mem_filter, Bool.not_eq_true', hmet, hkeys]
  tauto

theorem nodup_ids_ofDocument (d : Document) : (ofDocument d).ids.Nodup := by
  have horder : d.order.Nodup := (d.subtree_walked d.root).nodup.filter _
  have hkeys : d.blocks.keys.Nodup := Std.ExtTreeMap.nodup_keys
  refine horder.append (hkeys.filter _) fun id hmem hrest => ?_
  have hnot := (List.mem_filter.mp hrest).2
  rw [Bool.not_eq_true', ← Bool.not_eq_true, Std.ExtTreeSet.contains_iff_mem] at hnot
  exact hnot (Document.mem_reachable.mpr (Document.mem_order.mp hmem))

theorem size_ofDocument (d : Document) : (ofDocument d).size = d.size := by
  have hperm : (ofDocument d).ids.Perm d.blocks.keys := by
    refine (List.perm_ext_iff_of_nodup (nodup_ids_ofDocument d) Std.ExtTreeMap.nodup_keys).mpr ?_
    intro id
    rw [mem_ids_ofDocument, Std.ExtTreeMap.mem_keys, Document.contains,
      Std.ExtTreeMap.contains_iff_mem]
  rw [size, hperm.length_eq, Std.ExtTreeMap.length_keys]
  rfl

end Numbering

/-! ## Ids and numbers as words -/

theorem toLower_mem_of_sameName {w : List Char} {name : String}
    (h : Text.sameName (String.ofList w) name = true) {c : Char} (hc : c ∈ w) :
    c.toLower ∈ name.toList.map Char.toLower := by
  rw [Text.sameName, beq_iff_eq, Text.lower, Text.lower, String.toList_ofList] at h
  have hsame := congrArg String.toList h
  rw [String.toList_ofList, String.toList_ofList] at hsame
  rw [← hsame]
  exact List.mem_map_of_mem hc

/-- A word with a character that no keyword for positions or properties has is none of them. -/
theorem not_keyword_of_mem {w : List Char} {c : Char} (hc : c ∈ w)
    (hletter : c.toLower ∉ "withindexat".toList) : isWith w = false ∧ isPositional w = false := by
  have hnot (name : String) (letters : List Char) (hname : name.toList.map Char.toLower = letters)
      (hletters : letters ⊆ "withindexat".toList) :
      Text.sameName (String.ofList w) name = false := by
    by_contra h
    rw [Bool.not_eq_false] at h
    have hmem := toLower_mem_of_sameName h hc
    rw [hname] at hmem
    exact hletter (hletters hmem)
  have hwith := hnot "WITH" ['w', 'i', 't', 'h'] (by decide) (by decide)
  have hindex := hnot "INDEX" ['i', 'n', 'd', 'e', 'x'] (by decide) (by decide)
  have hat := hnot "AT" ['a', 't'] (by decide) (by decide)
  rw [isWith, isPositional, hwith, hindex, hat]
  exact ⟨rfl, rfl⟩

theorem toLower_of_isDigit {c : Char} (hc : c.isDigit = true) :
    isIdChar c = true ∧ c.toLower ∉ "withindexat".toList := by
  obtain ⟨i, hi, rfl⟩ := Number.exists_digitChar hc
  have hall : ∀ i : Fin 10, isIdChar (Nat.digitChar i.val) = true ∧
      (Nat.digitChar i.val).toLower ∉ "withindexat".toList := by decide
  exact hall ⟨i, hi⟩

/-- Digits make a word that is no keyword. -/
theorem isName_of_isDigit {w : List Char} (hne : w ≠ []) (hw : ∀ c ∈ w, c.isDigit = true) :
    IsName w ∧ isWith w = false ∧ isPositional w = false := by
  obtain ⟨c, hc⟩ := List.exists_mem_of_ne_nil w hne
  exact ⟨⟨hne, fun c hc => (toLower_of_isDigit (hw c hc)).1⟩,
    not_keyword_of_mem hc (toLower_of_isDigit (hw c hc)).2⟩

theorem isIdChar_of_isHexDigit {c : Char} (hc : BlockId.isHexDigit c = true) :
    isIdChar c = true := by
  rw [BlockId.isHexDigit, Bool.or_eq_true, Bool.and_eq_true, decide_eq_true_eq,
    decide_eq_true_eq] at hc
  rw [Reference.isIdChar, Char.isAlphanum, Char.isAlpha, Char.isLower]
  rcases hc with hdigit | ⟨hlow, hhigh⟩
  · simp [hdigit]
  · have hlow : (97 : UInt32) ≤ c.val := hlow
    have hhigh : c.val ≤ (122 : UInt32) := UInt32.le_trans hhigh (by decide)
    simp [hlow, hhigh]

/-- An id of the issued form is a word that is no keyword, and not one of digits only. -/
theorem BlockId.isName_of_isWellFormed {id : BlockId} (h : id.isWellFormed = true) :
    IsName id.text.toList ∧ 'k' ∈ id.text.toList := by
  rw [isWellFormed, Option.isSome_iff_exists] at h
  obtain ⟨ds, hds⟩ := h
  obtain ⟨htext, -, hhex⟩ := BlockId.suffixDigits?_eq_some hds
  have hdigits : ∀ c ∈ ds, isIdChar c = true := fun c hc => isIdChar_of_isHexDigit (hhex c hc)
  rw [htext]
  refine ⟨⟨List.cons_ne_nil _ _, ?_⟩, by simp⟩
  simpa [List.forall_mem_cons, Reference.isIdChar] using hdigits

/-- The root of a new document has an id of the issued form. -/
theorem Document.isWellFormed_create (id : BlockId)
    (h : (Document.create ⟨.sequential, 1⟩).contains id = true) : id.isWellFormed = true := by
  have hkeys : (Document.create ⟨.sequential, 1⟩).blocks.keys = [⟨"blk_000000000001"⟩] := by
    decide +kernel
  have hkey : id ∈ (Document.create ⟨.sequential, 1⟩).blocks.keys := by
    rwa [Std.ExtTreeMap.mem_keys, ← Std.ExtTreeMap.contains_iff_mem]
  rw [hkeys] at hkey
  rw [List.mem_singleton.mp hkey]
  decide +kernel

/-- All blocks have ids of the issued form. -/
def Numbering.Issued (n : Numbering) : Prop := ∀ id ∈ n.ids, id.isWellFormed = true

theorem Numbering.Issued.isName {n : Numbering} (hn : n.Issued) {id : BlockId} {k : Nat}
    (h : n.long? k = some id) :
    IsName id.text.toList ∧ isWith id.text.toList = false ∧
      isPositional id.text.toList = false := by
  obtain ⟨hname, hk⟩ := BlockId.isName_of_isWellFormed (hn id (mem_of_long? h).1)
  exact ⟨hname, not_keyword_of_mem hk (by decide)⟩

end BlockDocument
