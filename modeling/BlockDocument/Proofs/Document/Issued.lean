import BlockDocument.Proofs.Document.Success
import BlockDocument.Proofs.Document.Supply

/-!
# Ids that are counted off

Where ids are counted, a step from one document to the next takes new blocks from the supply only: the
ids that it issues are the numbers that the counter has passed, in that order, and the counter never
goes back (`Document.Issued`). Such steps compose. Since the counter is beyond the numbers of all
blocks before the step, an id that it issues is that of no block before, and of none that was deleted
since the counter passed it.
-/

namespace BlockDocument.Document

variable {d d' d'' : Document} {ids ids' : List BlockId}

/-- A document whose ids are counted, with a counter beyond the numbers of all blocks. -/
structure Counts (d : Document) : Prop where
  policy_eq : d.allocator.policy = .sequential
  ahead : d.Ahead

theorem Counts.lt_next (h : d.Counts) {id : BlockId} (hid : d.contains id = true) {n : Nat}
    (hn : id.suffix? = some n) : n < d.allocator.next := by
  obtain ⟨hmax, rfl⟩ := BlockId.eq_ofSuffix hn
  by_contra hge
  have hfree := h.ahead h.policy_eq n (Nat.le_of_not_lt hge) hmax
  rw [hid] at hfree
  cases hfree

theorem Counts.shrinks (h : d.Counts) (hs : d.Shrinks d') : d'.Counts :=
  ⟨by rw [hs.allocator_eq, h.policy_eq], h.ahead.shrinks hs⟩

/-- A step that issues ids, and has a counted document for its end. -/
structure Issued (d d' : Document) (ids : List BlockId) : Prop where
  counts : d'.Counts
  next_le : d.allocator.next ≤ d'.allocator.next
  /-- The numbers of the ids are counted off in order. -/
  numbers : ∃ ns : List Nat, ids = ns.map .ofSuffix ∧ ns.Pairwise (· < ·) ∧
    ∀ n ∈ ns, d.allocator.next ≤ n ∧ n < d'.allocator.next ∧ n ≤ BlockId.maxSuffix
  /-- Every new block has one of the ids. -/
  mem_of_new : ∀ id, d'.contains id = true → d.contains id = true ∨ id ∈ ids

namespace Issued

theorem of_shrinks (h : d.Counts) (hs : d.Shrinks d') : d.Issued d' [] where
  counts := h.shrinks hs
  next_le := by rw [hs.allocator_eq]
  numbers := ⟨[], rfl, .nil, by rintro n ⟨⟩⟩
  mem_of_new id hid := .inl (hs.contains_of_contains id hid)

theorem refl (h : d.Counts) : d.Issued d [] := of_shrinks h (.refl d)

theorem trans (h : d.Issued d' ids) (h' : d'.Issued d'' ids') : d.Issued d'' (ids ++ ids') where
  counts := h'.counts
  next_le := Nat.le_trans h.next_le h'.next_le
  numbers := by
    obtain ⟨ns, rfl, hns, hall⟩ := h.numbers
    obtain ⟨ns', rfl, hns', hall'⟩ := h'.numbers
    refine ⟨ns ++ ns', List.map_append.symm, List.pairwise_append.mpr ⟨hns, hns', ?_⟩, ?_⟩
    · intro n hn n' hn'
      exact Nat.lt_of_lt_of_le (hall n hn).2.1 (hall' n' hn').1
    · intro n hn
      rcases List.mem_append.mp hn with hn | hn
      · obtain ⟨hle, hlt, hmax⟩ := hall n hn
        exact ⟨hle, Nat.lt_of_lt_of_le hlt h'.next_le, hmax⟩
      · obtain ⟨hle, hlt, hmax⟩ := hall' n hn
        exact ⟨Nat.le_trans h.next_le hle, hlt, hmax⟩
  mem_of_new id hid := by
    rcases h'.mem_of_new id hid with hid | hid
    · exact (h.mem_of_new id hid).imp_right (List.mem_append_left ids')
    · exact .inr (List.mem_append_right ids hid)

/-- An id that is issued has a number that the counter passes. -/
theorem exists_of_mem (h : d.Issued d' ids) {id : BlockId} (hid : id ∈ ids) :
    ∃ n, id.suffix? = some n ∧ d.allocator.next ≤ n ∧ n < d'.allocator.next := by
  obtain ⟨ns, rfl, -, hall⟩ := h.numbers
  obtain ⟨n, hn, rfl⟩ := List.mem_map.mp hid
  obtain ⟨hle, hlt, hmax⟩ := hall n hn
  exact ⟨n, BlockId.suffix?_ofSuffix hmax, hle, hlt⟩

theorem pairwise_suffix? (h : d.Issued d' ids) :
    (ids.filterMap BlockId.suffix?).Pairwise (· < ·) := by
  obtain ⟨ns, rfl, hns, hall⟩ := h.numbers
  have hsuffix : (ns.map BlockId.ofSuffix).filterMap BlockId.suffix? = ns := by
    rw [List.filterMap_map]
    refine (List.filterMap_congr fun n hn => ?_).trans List.filterMap_some
    exact BlockId.suffix?_ofSuffix (hall n hn).2.2
  rwa [hsuffix]

/-- A counter beyond the last number issues nothing more. -/
theorem eq_nil_of_exhausted (h : d.Issued d' ids) (hnext : BlockId.maxSuffix < d.allocator.next) :
    ids = [] := by
  refine List.eq_nil_iff_forall_not_mem.mpr fun id hid => ?_
  obtain ⟨n, hn, hle, -⟩ := h.exists_of_mem hid
  have hmax := (BlockId.eq_ofSuffix hn).1
  omega

end Issued

/-- The addition of a block counts off its id. -/
theorem Counts.issued_add (h : d.Counts) {parent id : BlockId} {content : Content}
    {role : Option Role} {label : Option String} {position : Option Nat}
    (he : Edit.add parent content role label position d = .ok id d') : d.Issued d' [id] := by
  have hahead : d'.Ahead := by
    have hafter := h.ahead.after_add parent content role label position
    rwa [Edit.after, he] at hafter
  obtain ⟨-, a, ha, rfl⟩ := Edit.add_eq_ok he
  rw [Allocator.Ahead.allocate_eq h.ahead h.policy_eq] at ha
  split at ha
  · rename_i hroom
    obtain ⟨hid, hcounted⟩ := Prod.mk.inj ha
    obtain rfl : BlockId.ofSuffix d.allocator.next = id := Option.some.inj hid
    subst hcounted
    refine ⟨⟨h.policy_eq, hahead⟩, Nat.le_succ _,
      ⟨[d.allocator.next], rfl, List.pairwise_singleton .., ?_⟩, fun x hx => ?_⟩
    · rintro n hn
      obtain rfl := List.mem_singleton.mp hn
      exact ⟨Nat.le_refl _, Nat.lt_succ_self _, hroom⟩
    · rw [contains_withChildren, contains_withLeaf, Bool.or_eq_true, decide_eq_true_iff] at hx
      rcases hx with rfl | hx
      · exact .inr (List.mem_singleton_self _)
      · exact .inl hx
  · cases ha

/-- A block is added if its parent is a block and there is a number left. -/
theorem Counts.add_succeeds (h : d.Counts) {parent : BlockId} (hparent : d.contains parent = true)
    (hroom : d.allocator.next ≤ BlockId.maxSuffix) (content : Content) (role : Option Role)
    (label : Option String) (position : Option Nat) :
    ∃ d', Edit.add parent content role label position d = .ok (.ofSuffix d.allocator.next) d' ∧
      d'.allocator.next = d.allocator.next + 1 := by
  obtain ⟨b, hb⟩ := contains_iff.mp hparent
  have hallocate : d.allocator.allocate content role d.contains =
      (some (.ofSuffix d.allocator.next),
        { d.allocator with next := d.allocator.next + 1 }) := by
    rw [Allocator.Ahead.allocate_eq h.ahead h.policy_eq, if_pos hroom]
  have hget : (get : Edit Document) d = .ok d d := rfl
  rw [Edit.add, Edit.bind_of_ok (Edit.require_of_block? hb), Edit.bind_of_ok hget, hallocate]
  exact ⟨_, rfl, rfl⟩

end BlockDocument.Document
