import BlockDocument.Inspection.Level
import BlockDocument.Proofs.Document.View

/-!
# Levels are distances

The rows of the walk that notes levels are the sets of ids at one distance from the root: the row
after the ids at distance `k` holds every id at distance `k + 1`, and what else it holds has a level
already (`spreadLevels_spec`). So the level of an id is the least number of steps from the root down
to it, on any document, whether its tree branches, shares children or runs in circles
(`Document.getElem?_levels`).
-/

namespace BlockDocument

open Std (ExtTreeMap ExtTreeSet)

/-- A number of steps from parents to children lead from a start to an id. -/
inductive Steps (children : BlockId → List BlockId) (start : BlockId) : Nat → BlockId → Prop where
  | start : Steps children start 0 start
  | down {n : Nat} {p c : BlockId} (h : Steps children start n p) (hc : c ∈ children p) :
      Steps children start (n + 1) c

/-- The least number of steps that lead from a start to an id. -/
def Distance (children : BlockId → List BlockId) (start id : BlockId) (n : Nat) : Prop :=
  IsLeast {k | Steps children start k id} n

section

variable {children : BlockId → List BlockId} {start id : BlockId} {m n : Nat}

theorem Distance.eq (h : Distance children start id m) (h' : Distance children start id n) :
    m = n :=
  h.unique h'

/-- Whatever steps lead to has a distance, which is no greater. -/
theorem Steps.distance (h : Steps children start n id) :
    ∃ k ≤ n, Distance children start id k := by
  classical
  have hex : ∃ k, Steps children start k id := ⟨n, h⟩
  exact ⟨Nat.find hex, Nat.find_min' hex h, Nat.find_spec hex, fun k hk => Nat.find_min' hex hk⟩

/-- An id at a distance is the child of one that is a step nearer. -/
theorem Distance.parent (h : Distance children start id (n + 1)) :
    ∃ p, Distance children start p n ∧ id ∈ children p := by
  obtain ⟨hsteps, hleast⟩ := h
  cases hsteps with
  | @down _ p _ hp hc =>
    refine ⟨p, ⟨hp, ?_⟩, hc⟩
    intro k hk
    have := hleast (Steps.down hk hc)
    omega

/-- On the way down to an id every smaller distance is met. -/
theorem Distance.nearer (h : Distance children start id n) (hmn : m ≤ n) :
    ∃ x, Distance children start x m := by
  induction n generalizing id with
  | zero =>
    obtain rfl : m = 0 := by omega
    exact ⟨id, h⟩
  | succ n ih =>
    by_cases hm : m = n + 1
    · subst hm
      exact ⟨id, h⟩
    · obtain ⟨p, hp, -⟩ := h.parent
      exact ih hp (by omega)

/-- Steps lead only to ids of a class that holds the start and is closed under children. -/
theorem Steps.mem {P : BlockId → Prop} (hstart : P start)
    (hdown : ∀ p, ∀ c ∈ children p, P c) (h : Steps children start n id) : P id := by
  cases h with
  | start => exact hstart
  | down _ hc => exact hdown _ _ hc

end

/-! ## The walk, row by row -/

/-- What holds before a row: the levels noted are the distances below its own, the row holds every
id at that distance, and steps of that number lead to whatever it holds. -/
structure AtRow (children : BlockId → List BlockId) (start : BlockId) (level : Nat)
    (row : ExtTreeSet BlockId) (levels : ExtTreeMap BlockId Nat) : Prop where
  noted : ∀ id k, levels[id]? = some k ↔ k < level ∧ Distance children start id k
  reached : ∀ id ∈ row, Steps children start level id
  complete : ∀ id, Distance children start id level → id ∈ row

namespace AtRow

variable {children : BlockId → List BlockId} {start : BlockId} {level : Nat}
  {row : ExtTreeSet BlockId} {levels : ExtTreeMap BlockId Nat}

theorem contains_iff (h : AtRow children start level row levels) {id : BlockId} :
    levels.contains id = true ↔ ∃ k < level, Distance children start id k := by
  rw [ExtTreeMap.contains_eq_isSome_getElem?, Option.isSome_iff_exists]
  exact exists_congr fun k => h.noted id k

/-- The ids of the row without a level are those at its distance. -/
theorem mem_fresh (h : AtRow children start level row levels) {id : BlockId} :
    id ∈ row.toList.filter (fun id => !levels.contains id) ↔
      Distance children start id level := by
  rw [List.mem_filter, ExtTreeSet.mem_toList, Bool.not_eq_true', Bool.eq_false_iff, ne_eq,
    h.contains_iff]
  constructor
  · rintro ⟨hrow, hnew⟩
    obtain ⟨k, hk, hd⟩ := (h.reached id hrow).distance
    by_cases hlt : k < level
    · exact absurd ⟨k, hlt, hd⟩ hnew
    · obtain rfl : k = level := by omega
      exact hd
  · intro hd
    refine ⟨h.complete id hd, ?_⟩
    rintro ⟨k, hk, hd'⟩
    have := hd.eq hd'
    omega

/-- With every level noted the walk is at an end. -/
theorem done (h : AtRow children start level row levels)
    (hnone : ∀ id, ¬ Distance children start id level) (id : BlockId) (k : Nat) :
    levels[id]? = some k ↔ Distance children start id k := by
  rw [h.noted]
  refine ⟨fun hk => hk.2, fun hd => ⟨?_, hd⟩⟩
  by_contra hle
  obtain ⟨x, hx⟩ := hd.nearer (Nat.not_lt.mp hle)
  exact hnone x hx

theorem getElem?_insertMany (fresh : List BlockId) (id : BlockId) :
    (levels.insertMany (fresh.map (·, level)))[id]? =
      if id ∈ fresh then some level else levels[id]? := by
  induction fresh generalizing levels with
  | nil => simp
  | cons x fresh ih =>
    rw [List.map_cons, ExtTreeMap.insertMany_cons, ih, ExtTreeMap.getElem?_insert]
    by_cases hx : x = id
    · simp [hx]
    · simp [hx, Ne.symm hx]

/-- The next row: the children of the ids at one distance. -/
theorem next (h : AtRow children start level row levels) :
    AtRow children start (level + 1)
      (.ofList ((row.toList.filter fun id => !levels.contains id).flatMap children))
      (levels.insertMany ((row.toList.filter fun id => !levels.contains id).map (·, level))) where
  noted id k := by
    rw [getElem?_insertMany]
    split
    · rename_i hid
      have hd := h.mem_fresh.mp hid
      constructor
      · intro hk
        obtain rfl : level = k := Option.some.inj hk
        exact ⟨by omega, hd⟩
      · intro hk
        rw [hd.eq hk.2]
    · rename_i hid
      have hd : ¬ Distance children start id level := fun hd => hid (h.mem_fresh.mpr hd)
      rw [h.noted]
      refine and_congr_left fun hk => ⟨fun hlt => by omega, fun hlt => ?_⟩
      -- an id at this distance would be in the row
      by_contra hge
      obtain rfl : k = level := by omega
      exact hd hk
  reached id hid := by
    rw [ExtTreeSet.mem_ofList, List.contains_iff_mem, List.mem_flatMap] at hid
    obtain ⟨p, hp, hc⟩ := hid
    exact .down (h.mem_fresh.mp hp).1 hc
  complete id hd := by
    -- the parent on a shortest chain is one step nearer, so it is in this row
    obtain ⟨p, hp, hc⟩ := hd.parent
    rw [ExtTreeSet.mem_ofList, List.contains_iff_mem, List.mem_flatMap]
    exact ⟨p, h.mem_fresh.mpr hp, hc⟩

end AtRow

/-- Where a test that is stricter turns an item down, fewer items pass. -/
theorem length_filter_lt {α : Type} {p q : α → Bool} {xs : List α} {x : α} (hx : x ∈ xs)
    (hqp : ∀ a, q a = true → p a = true) (hp : p x = true) (hq : q x = false) :
    (xs.filter q).length < (xs.filter p).length := by
  have hfilter : xs.filter q = (xs.filter p).filter q := by
    rw [List.filter_filter]
    refine List.filter_congr fun a _ => ?_
    cases hqa : q a with
    | false => rfl
    | true => rw [hqp a hqa, Bool.and_self]
  rw [hfilter, List.length_filter_lt_length_iff_exists]
  exact ⟨x, List.mem_filter.mpr ⟨hx, hp⟩, by simp [hq]⟩

/-- The levels that are noted are the distances. The fuel is not used up: each row that is not the
last notes an id of a list that holds them all. -/
theorem spreadLevels_spec {children : BlockId → List BlockId} {start : BlockId} {ids : List BlockId}
    (hids : ∀ id n, Steps children start n id → id ∈ ids) (fuel level : Nat)
    (row : ExtTreeSet BlockId) (levels : ExtTreeMap BlockId Nat)
    (h : AtRow children start level row levels)
    (hfuel : (ids.filter fun id => !levels.contains id).length < fuel) (id : BlockId) (k : Nat) :
    (spreadLevels children fuel level row levels)[id]? = some k ↔ Distance children start id k := by
  induction fuel generalizing level row levels with
  | zero => omega
  | succ fuel ih =>
    simp only [spreadLevels]
    split
    · rename_i hempty
      refine h.done (fun x hx => ?_) id k
      rw [List.isEmpty_iff] at hempty
      have := h.mem_fresh.mpr hx
      rw [hempty] at this
      cases this
    · rename_i hne
      refine ih _ _ _ h.next (Nat.lt_of_lt_of_le ?_ (Nat.le_of_lt_succ hfuel))
      -- some id of the row is noted now and was not before
      obtain ⟨x, hx⟩ := List.exists_mem_of_ne_nil _ (mt List.isEmpty_iff.mpr hne)
      have hd := h.mem_fresh.mp hx
      refine length_filter_lt (hids x level hd.1) (fun id hid => ?_) ?_ ?_
      · rw [Bool.not_eq_true', Bool.eq_false_iff, ne_eq, h.contains_iff]
        rw [Bool.not_eq_true', Bool.eq_false_iff, ne_eq, h.next.contains_iff] at hid
        exact fun ⟨k, hk, hdk⟩ => hid ⟨k, by omega, hdk⟩
      · exact (List.mem_filter.mp hx).2
      · rw [Bool.not_eq_false', h.next.contains_iff]
        exact ⟨level, by omega, hd⟩

namespace Document

variable (d : Document)

theorem mem_presentChildren {p c : BlockId} :
    c ∈ d.presentChildren p ↔ c ∈ d.childrenOf p ∧ d.contains c = true := by
  rw [presentChildren, List.mem_filter]

/-- Without a root no id has a level. -/
theorem levels_of_rootless (h : ¬ d.contains d.root = true) : d.levels = ∅ := by
  have hrow : [d.root].filter d.contains = [] := by simp [h]
  rw [levels, hrow, spreadLevels]
  simp

/-- **The level of an id is its distance from the root**, along children that are blocks. -/
theorem getElem?_levels (h : d.contains d.root = true) (id : BlockId) (k : Nat) :
    d.levels[id]? = some k ↔ Distance d.presentChildren d.root id k := by
  have hrow : [d.root].filter d.contains = [d.root] := by simp [h]
  have hmem (id : BlockId) (n : Nat) (hs : Steps d.presentChildren d.root n id) :
      id ∈ d.blocks.keys :=
    ExtTreeMap.mem_keys.mpr (hs.mem (P := (· ∈ d.blocks)) h fun p c hc =>
      (d.mem_presentChildren.mp hc).2)
  rw [levels, hrow]
  refine spreadLevels_spec hmem _ _ _ _ ⟨by simp, ?_, ?_⟩ ?_ id k
  · intro id hid
    obtain rfl : d.root = id := by simpa [ExtTreeSet.mem_ofList] using hid
    exact .start
  · rintro id ⟨hs, -⟩
    cases hs
    simp
  · refine Nat.lt_succ_of_le (Nat.le_trans (List.length_filter_le _ _) ?_)
    rw [ExtTreeMap.length_keys, size]

end Document

end BlockDocument
