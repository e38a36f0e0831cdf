import Mathlib
import BlockDocument.BlockId

/-!
# Sorting by ids

Lists that are ordered by an id which each item carries. Items with one id keep their order when a
list is sorted, so a list in order is fixed by what it holds for each id (`eq_mergeSort`).
-/

namespace BlockDocument

variable {α : Type}

/-- Whether an item may stand before another one in the order of a key. -/
def keyLE (key : α → BlockId) (a b : α) : Bool := (compare (key a) (key b)).isLE

theorem keyLE_trans (key : α → BlockId) (a b c : α) (hab : keyLE key a b = true)
    (hbc : keyLE key b c = true) : keyLE key a c = true :=
  Std.TransCmp.isLE_trans hab hbc

theorem keyLE_total (key : α → BlockId) (a b : α) : (keyLE key a b || keyLE key b a) = true := by
  have hswap : compare (key b) (key a) = (compare (key a) (key b)).swap := Std.OrientedCmp.eq_swap
  rw [keyLE, keyLE, hswap]
  cases compare (key a) (key b) <;> rfl

variable {key : α → BlockId}

theorem keyLE_of_eq {a b : α} (h : key a = key b) : keyLE key a b = true := by
  have hself : compare (key b) (key b) = .eq := Std.ReflCmp.compare_self
  rw [keyLE, h, hself]
  rfl

theorem key_eq_of_keyLE {a b : α} (hab : keyLE key a b = true) (hba : keyLE key b a = true) :
    key a = key b :=
  Std.LawfulEqCmp.compare_eq_iff_eq.mp (Std.OrientedCmp.isLE_antisymm hab hba)

/-- Lists in the order of a key are the same if they have the same items of each key, in the same
order. -/
theorem eq_of_filter_eq {l l' : List α} (h : l.Pairwise (keyLE key · ·))
    (h' : l'.Pairwise (keyLE key · ·))
    (hf : ∀ k, l.filter (key · = k) = l'.filter (key · = k)) : l = l' := by
  induction l generalizing l' with
  | nil =>
    cases l' with
    | nil => rfl
    | cons b l' => simpa using hf (key b)
  | cons a l ih =>
    cases l' with
    | nil => simpa using hf (key a)
    | cons b l' =>
      rw [List.pairwise_cons] at h h'
      -- each head is in the other list, so neither key is the greater one
      have hab : keyLE key a b = true := by
        have hb : b ∈ (a :: l).filter (key · = key b) := by
          rw [hf]
          simp
        rcases List.mem_cons.mp (List.mem_of_mem_filter hb) with rfl | hb
        · exact keyLE_of_eq rfl
        · exact h.1 b hb
      have hba : keyLE key b a = true := by
        have ha : a ∈ (b :: l').filter (key · = key a) := by
          rw [← hf]
          simp
        rcases List.mem_cons.mp (List.mem_of_mem_filter ha) with rfl | ha
        · exact keyLE_of_eq rfl
        · exact h'.1 a ha
      have hk := key_eq_of_keyLE hab hba
      obtain rfl : a = b := by
        have := hf (key b)
        rw [List.filter_cons_of_pos (by simpa using hk), List.filter_cons_of_pos (by simp)] at this
        exact (List.cons.inj this).1
      refine congrArg (a :: ·) (ih h.2 h'.2 fun k => ?_)
      have := hf k
      rw [List.filter_cons, List.filter_cons] at this
      split at this
      · exact (List.cons.inj this).2
      · exact this

/-- Sorting does not change the order of items with one key. -/
theorem filter_mergeSort (l : List α) (k : BlockId) :
    (l.mergeSort (keyLE key)).filter (key · = k) = l.filter (key · = k) := by
  have hordered : (l.filter (key · = k)).Pairwise (keyLE key · ·) := by
    refine List.pairwise_of_forall_mem_list fun a ha b hb => keyLE_of_eq ?_
    have ha := List.of_mem_filter ha
    have hb := List.of_mem_filter hb
    simp only [decide_eq_true_eq] at ha hb
    rw [ha, hb]
  have hsub := List.sublist_mergeSort (keyLE_trans key) (keyLE_total key) hordered
    List.filter_sublist
  have hfilter := hsub.filter (key · = k)
  rw [List.filter_filter] at hfilter
  simp only [Bool.and_self] at hfilter
  exact (hfilter.eq_of_length ((List.mergeSort_perm l (keyLE key)).filter _).length_eq.symm).symm

/-- A list in the order of a key is another one sorted if it has the same items of each key, in the
same order. -/
theorem eq_mergeSort {l l' : List α} (h : l.Pairwise (keyLE key · ·))
    (hf : ∀ k, l.filter (key · = k) = l'.filter (key · = k)) : l = l'.mergeSort (keyLE key) := by
  refine eq_of_filter_eq h (List.pairwise_mergeSort (keyLE_trans key) (keyLE_total key) l') fun k => ?_
  rw [hf, filter_mergeSort]

/-- Where keys differ, an item is the only one with its key. -/
theorem filter_key_eq_singleton {l : List α} (h : (l.map key).Nodup) {a : α} (ha : a ∈ l) :
    l.filter (key · = key a) = [a] := by
  induction l with
  | nil => cases ha
  | cons b l ih =>
    obtain ⟨hb, hl⟩ := List.nodup_cons.mp h
    rcases List.mem_cons.mp ha with rfl | ha
    · have hrest : l.filter (key · = key a) = [] := by
        refine List.filter_eq_nil_iff.mpr fun c hc => ?_
        simpa using fun hk : key c = key a => hb (hk ▸ List.mem_map_of_mem hc)
      rw [List.filter_cons_of_pos (by simp), hrest]
    · have hne : key b ≠ key a := fun hk => hb (hk ▸ List.mem_map_of_mem ha)
      rw [List.filter_cons_of_neg (by simpa using hne), ih hl ha]

end BlockDocument
