import Mathlib
import BlockDocument.Numbering.Replacement
import BlockDocument.Proofs.Numbering.Basic

/-!
# Ids and numbers in texts are inverse

Both replacements put words for words and cut a text at the same places, so one undoes the other as
soon as it does so word by word. An id comes back from its number always. A number comes back from
its id if it is written as numbers are written here.
-/

namespace BlockDocument

namespace Numbering

theorem shortWord_eq_some {n : Numbering} {w w' : List Char} (h : n.shortWord w = some w') :
    ∃ id k, id.text.toList = w ∧ n.long? k = some id ∧ w' = Number.digits k := by
  rw [shortWord, Option.map_eq_some_iff] at h
  obtain ⟨k, hk, rfl⟩ := h
  exact ⟨⟨String.ofList w⟩, k, String.toList_ofList, long?_of_short? hk, rfl⟩

theorem longWord_eq_some {n : Numbering} {w w' : List Char} (h : n.longWord w = some w') :
    (∀ c ∈ w, c.isDigit = true) ∧ ∃ id k, Number.below? Reference.bound w = some k ∧
      n.long? k = some id ∧ w' = id.text.toList := by
  rw [longWord] at h
  split at h
  · rename_i hw
    rw [Option.map_eq_some_iff] at h
    obtain ⟨id, hid, rfl⟩ := h
    obtain ⟨k, hk, hlong⟩ := Option.bind_eq_some_iff.mp hid
    exact ⟨List.all_eq_true.mp hw, id, k, hk, hlong, rfl⟩
  · cases h

/-- A number that stands for a block has digits. -/
theorem ne_nil_of_longWord {n : Numbering} {w w' : List Char} (h : n.longWord w = some w') :
    w ≠ [] := by
  rintro rfl
  obtain ⟨-, id, k, hk, hlong, -⟩ := longWord_eq_some h
  cases hk
  cases hlong

theorem keepsPlaces_shortWord {n : Numbering} (hn : n.Issued) : KeepsPlaces n.shortWord := by
  have hnumber {w w' : List Char} (h : n.shortWord w = some w') :
      IsName w' ∧ isWith w' = false ∧ isPositional w' = false := by
    obtain ⟨id, k, -, -, rfl⟩ := shortWord_eq_some h
    exact isName_of_isDigit (Number.digits_ne_nil k) fun c hc => Number.isDigit_of_mem_digits hc
  refine ⟨fun h => (hnumber h).1, fun h => (hnumber h).2.1, fun {w w'} h => ?_⟩
  rw [(hnumber h).2.2]
  obtain ⟨id, k, rfl, hlong, -⟩ := shortWord_eq_some h
  exact ((hn.isName hlong).2.2).symm

theorem keepsPlaces_longWord {n : Numbering} (hn : n.Issued) : KeepsPlaces n.longWord := by
  have hid {w w' : List Char} (h : n.longWord w = some w') :
      IsName w' ∧ isWith w' = false ∧ isPositional w' = false := by
    obtain ⟨-, id, k, -, hlong, rfl⟩ := longWord_eq_some h
    exact hn.isName hlong
  refine ⟨fun h => (hid h).1, fun h => (hid h).2.1, fun {w w'} h => ?_⟩
  rw [(hid h).2.2, (isName_of_isDigit (ne_nil_of_longWord h) (longWord_eq_some h).1).2.2]

/-! ## Words back from words -/

/-- An id comes back from its number. -/
theorem longWord_of_shortWord {n : Numbering} (hsize : n.size < Reference.bound)
    {w w' : List Char} (h : n.shortWord w = some w') : n.longWord w' = some w := by
  obtain ⟨id, k, rfl, hlong, rfl⟩ := shortWord_eq_some h
  have hk := (mem_of_long? hlong).2.2
  have hdigits : (Number.digits k).all Char.isDigit = true :=
    List.all_eq_true.mpr fun c hc => Number.isDigit_of_mem_digits hc
  rw [longWord, if_pos hdigits, Number.below?_digits (by omega), Option.bind_some, hlong]
  rfl

/-- A number without zeros before it comes back from its id. -/
theorem shortWord_of_longWord {n : Numbering} (hn : n.ids.Nodup) {w w' : List Char}
    (h : n.longWord w = some w') (hzero : w.head? ≠ some '0') : n.shortWord w' = some w := by
  obtain ⟨hw, id, k, hk, hlong, rfl⟩ := longWord_eq_some h
  rw [shortWord, String.ofList_toList, short?_of_long? hn hlong, ← Number.ofDigits_of_below? hk,
    Option.map_some, Number.digits_ofDigits hw (ne_nil_of_longWord h) hzero]

/-! ## Texts back from texts -/

/-- **Ids and numbers are inverse on every text**: in a document whose ids have the issued form, ids
come back from numbers if the text names no block by its number and numbers have room for every
block, and numbers come back from ids if the text names no block by its id and each number that it
names a block by is written without zeros before it. -/
theorem expand_shorten_and_shorten_expand (d : Document)
    (hd : ∀ id, d.contains id = true → id.isWellFormed = true) (text : String) :
    let n := ofDocument d
    (d.size < Reference.bound → (∀ w, .word w ∈ segments text.toList → n.longWord w = none) →
      n.expand (n.shorten text) = text) ∧
    ((∀ w, .word w ∈ segments text.toList → ¬ d.contains ⟨String.ofList w⟩ = true ∧
        (n.longWord w ≠ none → w.head? ≠ some '0')) →
      n.shorten (n.expand text) = text) := by
  intro n
  have hn : n.Issued := fun id hid => hd id (mem_ids_ofDocument.mp hid)
  constructor
  · intro hsize hnumbers
    rw [← size_ofDocument] at hsize
    rw [expand, shorten, String.toList_ofList,
      replaceWords_replaceWords (keepsPlaces_shortWord hn), String.ofList_toList]
    intro w hw
    -- a word that an id does not stand for is not to be taken for a number now
    cases h : n.shortWord w with
    | none => rw [Option.getD_none, hnumbers w hw, Option.getD_none]
    | some w' => rw [Option.getD_some, longWord_of_shortWord hsize h, Option.getD_some]
  · intro hids
    rw [shorten, expand, String.toList_ofList,
      replaceWords_replaceWords (keepsPlaces_longWord hn), String.ofList_toList]
    intro w hw
    obtain ⟨hunknown, hzero⟩ := hids w hw
    cases h : n.longWord w with
    | none =>
      have hnone : n.shortWord w = none := by
        rw [shortWord, Option.map_eq_none_iff, short?_eq_none_iff, mem_ids_ofDocument]
        exact hunknown
      rw [Option.getD_none, hnone, Option.getD_none]
    | some w' =>
      have hback := shortWord_of_longWord (nodup_ids_ofDocument d) h (hzero (by simp [h]))
      rw [Option.getD_some, hback, Option.getD_some]

/-- The root of a new document, in texts with a comment that names it the other way. -/
theorem expand_shorten_create :
    let n := ofDocument (Document.create ⟨.sequential, 1⟩)
    n.expand (n.shorten "DELETE blk_000000000001 // 1") = "DELETE blk_000000000001 // 1" ∧
      n.shorten (n.expand "DELETE 1 // blk_000000000001") = "DELETE 1 // blk_000000000001" := by
  let d := Document.create ⟨.sequential, 1⟩
  have hids : segments "DELETE blk_000000000001 // 1".toList =
      [.word "DELETE".toList, .verbatim [' '], .word "blk_000000000001".toList, .verbatim [' '],
        .verbatim "// 1".toList] := by decide +kernel
  have hnumbers : segments "DELETE 1 // blk_000000000001".toList =
      [.word "DELETE".toList, .verbatim [' '], .word ['1'], .verbatim [' '],
        .verbatim "// blk_000000000001".toList] := by decide +kernel
  have hd := Document.isWellFormed_create
  refine ⟨(expand_shorten_and_shorten_expand d hd _).1 (by decide +kernel) fun w hw => ?_,
    (expand_shorten_and_shorten_expand d hd _).2 fun w hw => ?_⟩
  · rw [hids] at hw
    simp only [List.mem_cons, Segment.word.injEq, List.not_mem_nil, or_false, reduceCtorEq,
      false_or] at hw
    rcases hw with rfl | rfl <;> decide +kernel
  · rw [hnumbers] at hw
    simp only [List.mem_cons, Segment.word.injEq, List.not_mem_nil, or_false, reduceCtorEq,
      false_or] at hw
    rcases hw with rfl | rfl <;> decide +kernel

end Numbering

end BlockDocument
