import Mathlib
import BlockDocument.Text.Name

/-!
# Names in either case

Two names differ at most in the case of their letters if they are the same in upper case, which is
how keywords are compared.
-/

namespace BlockDocument

theorem toLower_toUpper (c : Char) : c.toUpper.toLower = c.toLower := by
  by_cases hc : 97 ≤ c.toNat ∧ c.toNat ≤ 122
  · obtain ⟨n, hn⟩ : ∃ n, c.toNat = n := ⟨_, rfl⟩
    rw [← Char.ofNat_toNat c, hn]
    rw [hn] at hc
    obtain ⟨hlow, hhigh⟩ := hc
    interval_cases n <;> rfl
  · have h : c.toUpper = c := by
      rw [Char.toUpper, dif_neg]
      exact hc
    rw [h]

theorem toUpper_toLower (c : Char) : c.toLower.toUpper = c.toUpper := by
  by_cases hc : 65 ≤ c.toNat ∧ c.toNat ≤ 90
  · obtain ⟨n, hn⟩ : ∃ n, c.toNat = n := ⟨_, rfl⟩
    rw [← Char.ofNat_toNat c, hn]
    rw [hn] at hc
    obtain ⟨hlow, hhigh⟩ := hc
    interval_cases n <;> rfl
  · have h : c.toLower = c := by
      rw [Char.toLower, dif_neg]
      exact hc
    rw [h]

theorem sameName_of_upper {a b : String} (h : Text.upper a = Text.upper b) :
    Text.sameName a b = true := by
  have hchars : Char.toLower ∘ Char.toUpper = Char.toLower := funext toLower_toUpper
  have hlower (s : String) : Text.lower (Text.upper s) = Text.lower s := by
    rw [Text.lower, Text.upper, String.toList_ofList, List.map_map, hchars, Text.lower]
  rw [Text.sameName, beq_iff_eq, ← hlower a, ← hlower b, h]

theorem upper_of_sameName {a b : String} (h : Text.sameName a b = true) :
    Text.upper a = Text.upper b := by
  have hchars : Char.toUpper ∘ Char.toLower = Char.toUpper := funext toUpper_toLower
  have hupper (s : String) : Text.upper (Text.lower s) = Text.upper s := by
    rw [Text.upper, Text.lower, String.toList_ofList, List.map_map, hchars, Text.upper]
  rw [Text.sameName, beq_iff_eq] at h
  rw [← hupper a, ← hupper b, h]

theorem sameName_comm (a b : String) : Text.sameName a b = Text.sameName b a := by
  rw [Text.sameName, Text.sameName, Bool.eq_iff_iff, beq_iff_eq, beq_iff_eq]
  exact eq_comm

theorem sameName_congr {a b : String} (h : Text.sameName a b = true) (name : String) :
    Text.sameName a name = Text.sameName b name := by
  rw [Text.sameName, beq_iff_eq] at h
  rw [Text.sameName, Text.sameName, h]

end BlockDocument
