import Mathlib
import BlockDocument.BlockId

/-!
# Sorted maps

Facts about `Std.ExtTreeMap` that the standard library leaves open: the values are the second
components of the entries, in the same order, and erasing many keys is erasing one after the other.
-/

namespace BlockDocument.Map

open Std

variable {α β : Type} {cmp : α → α → Ordering} [TransCmp cmp]

/-- The values, in the order of the keys. -/
theorem values_eq_map_toList (m : ExtTreeMap α β cmp) : m.values = m.toList.map Prod.snd := by
  obtain ⟨⟨q⟩⟩ := m
  induction q using Quotient.ind with
  | _ t =>
    show t.inner.values = (DTreeMap.Internal.Impl.Const.toList t.inner).map Prod.snd
    rw [DTreeMap.Internal.Impl.values_eq_map_snd,
      DTreeMap.Internal.Impl.Const.toList_eq_toListModel_map]
    simp

/-- A fold over a subtype, read in the type itself. -/
theorem val_foldl {γ δ : Type} {p : γ → Prop} {f : γ → δ → γ} {g : Subtype p → δ → Subtype p}
    (h : ∀ s a, (g s a).val = f s.val a) (xs : List δ) (s : Subtype p) :
    (xs.foldl g s).val = xs.foldl f s.val := by
  induction xs generalizing s with
  | nil => rfl
  | cons x xs ih => rw [List.foldl_cons, List.foldl_cons, ih, h]

theorem eraseMany_eq_foldl (m : ExtTreeMap α β cmp) (ks : List α) :
    m.eraseMany ks = ks.foldl (fun m k => m.erase k) m := by
  simp only [ExtTreeMap.eraseMany, ExtDTreeMap.eraseMany, List.forIn_pure_yield_eq_foldl,
    Id.run_bind, Id.run_pure]
  rw [val_foldl (f := fun m k => m.erase k) (fun _ _ => rfl)]
  exact (List.foldl_hom ExtTreeMap.mk fun _ _ => rfl).symm

variable [LawfulEqCmp cmp]

theorem getElem?_eraseMany [DecidableEq α] (m : ExtTreeMap α β cmp) (ks : List α) (k : α) :
    (m.eraseMany ks)[k]? = if k ∈ ks then none else m[k]? := by
  rw [eraseMany_eq_foldl]
  induction ks generalizing m with
  | nil => simp
  | cons x ks ih =>
    rw [List.foldl_cons, ih, ExtTreeMap.getElem?_erase]
    by_cases hx : x = k
    · simp [hx]
    · simp [hx, Ne.symm hx]

/-- An entry of a map is a key with its value. -/
theorem mem_values {m : ExtTreeMap α β cmp} {v : β} : v ∈ m.values ↔ ∃ k : α, m[k]? = some v := by
  simp [values_eq_map_toList, ExtTreeMap.mem_toList_iff_getElem?_eq_some]

/-- A map is made of its entries. -/
theorem ofList_toList [DecidableEq α] (m : ExtTreeMap α β cmp) :
    ExtTreeMap.ofList m.toList cmp = m := by
  apply ExtTreeMap.ext_getElem?
  intro k
  cases hk : m[k]? with
  | some v =>
    exact ExtTreeMap.getElem?_ofList_of_mem ReflCmp.compare_self ExtTreeMap.distinct_keys_toList
      (ExtTreeMap.mem_toList_iff_getElem?_eq_some.mpr hk)
  | none =>
    refine ExtTreeMap.getElem?_ofList_of_contains_eq_false (Bool.eq_false_iff.mpr fun hc => ?_)
    obtain ⟨⟨k', v⟩, he, rfl⟩ := List.mem_map.mp (List.contains_iff_mem.mp hc)
    rw [ExtTreeMap.mem_toList_iff_getElem?_eq_some.mp he] at hk
    cases hk

/-- Two maps with the same keys list them in the same order. -/
theorem keys_eq_keys {γ : Type} {m : ExtTreeMap α β cmp} {m' : ExtTreeMap α γ cmp}
    (h : ∀ k, k ∈ m ↔ k ∈ m') : m.keys = m'.keys := by
  have hirrefl : Std.Irrefl fun a b : α => cmp a b = .lt := ⟨fun a ha => by
    simp [ReflCmp.compare_self] at ha⟩
  have hanti : Std.Antisymm fun a b : α => cmp a b = .lt := ⟨fun a b hab hba => by
    have hswap : cmp a b = (cmp b a).swap := OrientedCmp.eq_swap
    rw [hswap, hba] at hab
    cases hab⟩
  exact ExtTreeMap.ordered_keys.eq_of_mem_iff ExtTreeMap.ordered_keys fun k => by
    rw [ExtTreeMap.mem_keys, ExtTreeMap.mem_keys, h k]

end BlockDocument.Map
