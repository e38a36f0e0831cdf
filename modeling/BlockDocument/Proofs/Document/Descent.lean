import BlockDocument.Proofs.Document.Restored
import BlockDocument.Proofs.Document.Traversal

/-!
# Walks down from an id

A walk comes to an end by itself, on any document: its fuel is enough, and more of it changes nothing
(`preorderWalk_add` and its likes). Until then it has listed what chains of children lead to. Where
an inspection finds no error it lists this in the order of the recursion on the tree, and the number
of levels that it finds is the length of the longest chain down.
-/

namespace BlockDocument

open Std (ExtTreeSet)

/-! ## The end of a walk -/

section ends

variable {children : BlockId → List BlockId} {keys : List BlockId}

theorem preorderWalk_add (hk : keys.Nodup) (hc : ∀ x ∉ keys, children x = []) (extra fuel : Nat)
    (work : List BlockId) (met : ExtTreeSet BlockId) (listed : List BlockId)
    (hf : work.length + pending children keys met.contains ≤ fuel) :
    preorderWalk children (fuel + extra) work met listed =
      preorderWalk children fuel work met listed := by
  -- the work that is left bounds the steps, so the extra fuel is never drawn on
  fun_induction preorderWalk children fuel work met listed with
  | case1 work met listed =>
    obtain rfl : work = [] := List.length_eq_zero_iff.mp (by omega)
    exact preorderWalk_done ..
  | case2 => exact preorderWalk_done ..
  | case3 fuel id work met listed hid ih =>
    rw [List.length_cons] at hf
    rw [Nat.succ_add, preorderWalk, if_pos hid]
    exact ih (by omega)
  | case4 fuel id work met listed hid ih =>
    have hmiss : met.contains id = false := Bool.eq_false_of_not_eq_true hid
    have hpend := pending_meet hk hc hmiss (contains_insert_met met id)
    rw [List.length_cons] at hf
    rw [Nat.succ_add, preorderWalk, if_neg hid]
    apply ih
    rw [List.length_append]
    omega

theorem postorderWalk_add (hk : keys.Nodup) (hc : ∀ x ∉ keys, children x = []) (extra fuel : Nat)
    (work : List (BlockId × Bool)) (met : ExtTreeSet BlockId) (left : List BlockId)
    (hf : workLoad work + 2 * pending children keys met.contains ≤ fuel) :
    postorderWalk children (fuel + extra) work met left =
      postorderWalk children fuel work met left := by
  fun_induction postorderWalk children fuel work met left with
  | case1 work met left =>
    cases work with
    | nil => exact postorderWalk_done ..
    | cons w work => rw [workLoad_cons] at hf; split at hf <;> omega
  | case2 => exact postorderWalk_done ..
  | case3 fuel id work met left ih =>
    rw [workLoad_cons, if_pos rfl] at hf
    rw [Nat.succ_add, postorderWalk]
    exact ih (by omega)
  | case4 fuel id work met left hid ih =>
    rw [workLoad_cons] at hf
    rw [Nat.succ_add, postorderWalk, if_pos hid]
    apply ih
    simp only [Bool.false_eq_true, if_false] at hf
    omega
  | case5 fuel id work met left hid ih =>
    have hmiss : met.contains id = false := Bool.eq_false_of_not_eq_true hid
    have hpend := pending_meet hk hc hmiss (contains_insert_met met id)
    rw [workLoad_cons] at hf
    rw [Nat.succ_add, postorderWalk, if_neg hid]
    apply ih
    -- an id that is met comes back marked, one unit lighter, behind its children, two units each
    rw [workLoad_new, workLoad_cons]
    simp only [Bool.false_eq_true, if_false, if_true] at hf ⊢
    omega

theorem heightWalk_done (fuel : Nat) (met : ExtTreeSet BlockId) (height : Nat) :
    heightWalk children fuel [] met height = height := by
  cases fuel <;> rfl

theorem heightWalk_add (hk : keys.Nodup) (hc : ∀ x ∉ keys, children x = []) (extra fuel : Nat)
    (work : List (BlockId × Nat)) (met : ExtTreeSet BlockId) (height : Nat)
    (hf : work.length + pending children keys met.contains ≤ fuel) :
    heightWalk children (fuel + extra) work met height = heightWalk children fuel work met height := by
  fun_induction heightWalk children fuel work met height with
  | case1 work met height =>
    obtain rfl : work = [] := List.length_eq_zero_iff.mp (by omega)
    exact heightWalk_done ..
  | case2 => exact heightWalk_done ..
  | case3 fuel id level work met height hid ih =>
    rw [List.length_cons] at hf
    rw [Nat.succ_add, heightWalk, if_pos hid]
    exact ih (by omega)
  | case4 fuel id level work met height hid ih =>
    have hmiss : met.contains id = false := Bool.eq_false_of_not_eq_true hid
    have hpend := pending_meet hk hc hmiss (contains_insert_met met id)
    rw [List.length_cons] at hf
    rw [Nat.succ_add, heightWalk, if_neg hid]
    apply ih
    rw [List.length_append, List.length_map, List.length_reverse]
    omega

end ends

/-! ## The recursion, row by row -/

/-- A row is traversed by traversing its ids one after the other. -/
theorem Traversed.flatMap {place : BlockId → List BlockId → List BlockId}
    {children : BlockId → List BlockId} {walk : BlockId → List BlockId}
    (h : ∀ id, Traversed place children [id] (walk id)) (row : List BlockId) :
    Traversed place children row (row.flatMap walk) := by
  induction row with
  | nil => exact .nil
  | cons id row ih => exact (h id).append ih

/-- A walk that traverses every id puts an id in its place among the walks from its children. -/
theorem Traversed.eq_place {place : BlockId → List BlockId → List BlockId}
    {children : BlockId → List BlockId} {walk : BlockId → List BlockId}
    (h : ∀ id, Traversed place children [id] (walk id)) (id : BlockId) :
    walk id = place id ((children id).flatMap walk) := by
  have hid := Traversed.cons (Traversed.flatMap h (children id)) .nil
  rw [List.append_nil] at hid
  exact (h id).unique hid

namespace Document

variable {d : Document}

theorem IsForest.subtree_eq (h : d.IsForest) (id : BlockId) :
    d.subtree id = id :: (d.childrenOf id).flatMap d.subtree :=
  Traversed.eq_place h.preordered_subtree id

theorem IsForest.postorder_eq (h : d.IsForest) (id : BlockId) :
    d.postorder id = (d.childrenOf id).flatMap d.postorder ++ [id] :=
  Traversed.eq_place h.postordered_postorder id

/-- The walks of a document have come to their end: with more fuel they list the same. -/
theorem walks_end (d : Document) (id : BlockId) (extra : Nat) :
    preorderWalk d.childrenOf (d.listedCount + 1 + extra) [id] ∅ [] = d.subtree id ∧
      postorderWalk d.childrenOf (2 * (d.listedCount + 1) + extra) [(id, false)] ∅ [] =
        d.postorder id ∧
      heightWalk d.childrenOf (d.listedCount + 1 + extra) [(id, 0)] ∅ 0 = d.height id := by
  have hk := d.nodup_keys_tree
  have hc := d.childrenOf_eq_nil_of_not_mem_keys
  have hpend : pending d.childrenOf d.tree.keys (∅ : ExtTreeSet BlockId).contains = d.listedCount := by
    rw [contains_empty_met, pending_eq_listedCount]
  refine ⟨preorderWalk_add hk hc extra _ _ _ _ ?_, postorderWalk_add hk hc extra _ _ _ _ ?_,
    heightWalk_add hk hc extra _ _ _ _ ?_⟩
  · simp [hpend, Nat.add_comm]
  · simp [hpend, workLoad]
    omega
  · simp [hpend, Nat.add_comm]

/-- **Walks are the recursions that they stand for**: on any document a walk down from an id comes to
an end, having listed the id first and then, once each, what chains of children lead to; the walk that
leaves ids after their children lists the same in another order. Where an inspection finds no error,
the one lists an id and then what the walks from its children list, the other lists this before the
id, and the height of an id is the length of the longest chain down from it. -/
theorem walks_descend (d : Document) (id : BlockId) :
    (d.subtree id).Nodup ∧ (d.subtree id).head? = some id ∧
      (∀ x, x ∈ d.subtree id ↔ Leads d.childrenOf id x) ∧
      (d.postorder id).Perm (d.subtree id) ∧
      (∀ extra,
        preorderWalk d.childrenOf (d.listedCount + 1 + extra) [id] ∅ [] = d.subtree id ∧
          postorderWalk d.childrenOf (2 * (d.listedCount + 1) + extra) [(id, false)] ∅ [] =
            d.postorder id ∧
          heightWalk d.childrenOf (d.listedCount + 1 + extra) [(id, 0)] ∅ 0 = d.height id) ∧
      ∀ i : Inspector, (i.inspect d).errors = [] →
        d.subtree id = id :: (d.childrenOf id).flatMap d.subtree ∧
          d.postorder id = (d.childrenOf id).flatMap d.postorder ++ [id] ∧
          IsGreatest {n | ∃ x, Steps d.childrenOf id n x} (d.height id) := by
  have hsubtree := d.subtree_walked id
  have hpostorder := d.postorder_walked id
  have hhead : (d.subtree id).head? = some id := by
    obtain ⟨more, hmore⟩ := d.exists_subtree_eq id
    simp [hmore]
  have hperm : (d.postorder id).Perm (d.subtree id) := by
    apply (List.perm_ext_iff_of_nodup hpostorder.nodup hsubtree.nodup).mpr
    intro x
    rw [mem_postorder, mem_subtree]
  refine ⟨hsubtree.nodup, hhead, fun _ => mem_subtree, hperm, d.walks_end id, fun i herrors => ?_⟩
  -- the walks read the tree only, which is that of a forest
  have h := isForest_restored herrors
  exact ⟨h.subtree_eq id, h.postorder_eq id, h.isGreatest_height id⟩

/-- Wherever the blocks are stored, the walks follow the tree. -/
theorem walks_descend_misfiled :
    (Inspector.inspect {} misfiled).errors = [] ∧
      misfiled.subtree ⟨"a"⟩ = ⟨"a"⟩ :: (misfiled.subtree ⟨"b"⟩ ++ misfiled.subtree ⟨"c"⟩) ∧
      misfiled.postorder ⟨"a"⟩ = misfiled.postorder ⟨"b"⟩ ++ misfiled.postorder ⟨"c"⟩ ++ [⟨"a"⟩] ∧
      IsGreatest {n | ∃ x, Steps misfiled.childrenOf ⟨"a"⟩ n x} 2 := by
  obtain ⟨-, -, -, -, -, hclean⟩ := walks_descend misfiled ⟨"a"⟩
  obtain ⟨hsubtree, hpostorder, hheight⟩ := hclean {} errors_misfiled
  have hchildren : misfiled.childrenOf ⟨"a"⟩ = [⟨"b"⟩, ⟨"c"⟩] := by decide +kernel
  have htwo : misfiled.height ⟨"a"⟩ = 2 := by decide +kernel
  rw [hchildren] at hsubtree hpostorder
  rw [htwo] at hheight
  simp only [List.flatMap_cons, List.flatMap_nil, List.append_nil] at hsubtree hpostorder
  exact ⟨errors_misfiled, hsubtree, hpostorder, hheight⟩

end Document

end BlockDocument
