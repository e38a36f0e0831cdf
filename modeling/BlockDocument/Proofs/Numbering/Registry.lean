import Mathlib
import BlockDocument.Proofs.Numbering.Basic

/-!
# Numberings as two tables

A numbering can be looked up through two tables, from blocks to numbers and back, that are filled
block by block: from the walk through the document first, and then from the blocks that have no
number yet. On any document, however damaged, the tables are those of its numbering, as long as
there are numbers enough.
-/

namespace BlockDocument

open Std (ExtTreeMap)

-- Powers are those of the core library, whatever else is imported.
attribute [local instance (high)] instPowNat

/-- Two tables, from blocks to numbers and back. -/
structure Registry where
  shorts : ExtTreeMap BlockId Nat := ∅
  longs : ExtTreeMap Nat BlockId := ∅

/-- A block that is not numbered comes last. -/
theorem Numbering.short?_concat {ids : List BlockId} {id : BlockId} (hid : id ∉ ids) (x : BlockId) :
    short? ⟨ids ++ [id]⟩ x = if x = id then some (ids.length + 1) else short? ⟨ids⟩ x := by
  simp only [short?, List.idxOf?, List.findIdx?_append]
  by_cases hx : x = id
  · subst hx
    have hnone : ids.findIdx? (· == x) = none := List.idxOf?_eq_none_iff.mpr hid
    simp [hnone, List.findIdx?_cons]
  · have hx' : (id == x) = false := beq_eq_false_iff_ne.mpr (Ne.symm hx)
    simp [hx, hx', List.findIdx?_cons]

namespace Registry

/-- Numbers are words of 32 bits, and counting stops at the greatest of them. -/
def maxNumber : Nat := 2 ^ (32 : Nat) - 1

/-- Gives a block the next number. -/
def register (r : Registry) (id : BlockId) : Registry :=
  let short := min (r.longs.size + 1) maxNumber
  { shorts := r.shorts.insert id short, longs := r.longs.insert short id }

/-- Gives a block the next number unless it has one. -/
def registerNew (r : Registry) (id : BlockId) : Registry :=
  if id ∈ r.shorts then r else r.register id

/-- The tables of a document: first what a walk from the root meets, then the other blocks. -/
def ofDocument (d : Document) : Registry :=
  d.blocks.keys.foldl registerNew (d.order.foldl register {})

/-! ## Tables of a list -/

/-- The tables number the blocks of a list, in its order. -/
structure Lists (r : Registry) (ids : List BlockId) : Prop where
  short (id : BlockId) : r.shorts[id]? = Numbering.short? ⟨ids⟩ id
  long (k : Nat) : r.longs[k]? = Numbering.long? ⟨ids⟩ k
  size : r.longs.size = ids.length

theorem lists_empty : Lists {} [] where
  short id := ExtTreeMap.getElem?_empty
  long k := by cases k <;> exact ExtTreeMap.getElem?_empty
  size := ExtTreeMap.size_empty

namespace Lists

variable {r : Registry} {ids more : List BlockId} {id : BlockId}

theorem mem_iff (h : r.Lists ids) : id ∈ r.shorts ↔ id ∈ ids := by
  rw [ExtTreeMap.mem_iff_isSome_getElem?, h.short, ← Option.ne_none_iff_isSome, ne_eq,
    Numbering.short?_eq_none_iff, not_not]

/-- A block that is not listed comes last, under a number that no other block has. -/
theorem register (h : r.Lists ids) (hid : id ∉ ids) (hsize : ids.length < maxNumber) :
    (r.register id).Lists (ids ++ [id]) := by
  -- as long as there is room the next number is one more than the entries, and so it is free
  have hnext : min (r.longs.size + 1) maxNumber = ids.length + 1 := by
    rw [h.size]
    exact Nat.min_eq_left hsize
  have hfree : ids.length + 1 ∉ r.longs := by
    rw [ExtTreeMap.mem_iff_isSome_getElem?, h.long, Numbering.long?]
    simp
  simp only [Registry.register, hnext]
  refine ⟨fun x => ?_, fun k => ?_, ?_⟩
  · rw [ExtTreeMap.getElem?_insert, h.short, Numbering.short?_concat hid]
    simp only [Std.LawfulEqCmp.compare_eq_iff_eq, eq_comm (a := id)]
  · rw [ExtTreeMap.getElem?_insert, h.long]
    cases k with
    | zero => simp [Numbering.long?]
    | succ i =>
      rw [Numbering.long?, Numbering.long?, List.getElem?_append]
      rcases Nat.lt_trichotomy i ids.length with hi | rfl | hi
      · simp [hi, Nat.ne_of_gt hi]
      · simp
      · have hlast : [id][i - ids.length]? = none := List.getElem?_eq_none (by simp; omega)
        simp [Nat.ne_of_lt hi, Nat.not_lt.mpr (Nat.le_of_lt hi), hlast]
  · rw [ExtTreeMap.size_insert, if_neg (by simpa using hfree), h.size, List.length_append,
      List.length_singleton]

theorem foldl_register (h : r.Lists ids) (hnd : (ids ++ more).Nodup)
    (hsize : (ids ++ more).length ≤ maxNumber) :
    (more.foldl Registry.register r).Lists (ids ++ more) := by
  induction more generalizing r ids with
  | nil => rwa [List.append_nil]
  | cons id more ih =>
    have hid : id ∉ ids := fun hmem =>
      (List.nodup_append.mp hnd).2.2 id hmem id (List.mem_cons_self ..) rfl
    have hlt : ids.length < maxNumber := by
      rw [List.length_append, List.length_cons] at hsize
      omega
    rw [List.append_cons] at hnd hsize ⊢
    exact ih (h.register hid hlt) hnd hsize

/-- Blocks that are listed already are passed over. -/
theorem foldl_registerNew (h : r.Lists ids) (hnd : more.Nodup)
    (hsize : (ids ++ more.filter (· ∉ ids)).length ≤ maxNumber) :
    (more.foldl registerNew r).Lists (ids ++ more.filter (· ∉ ids)) := by
  induction more generalizing r ids with
  | nil => rwa [List.filter_nil, List.append_nil]
  | cons id more ih =>
    obtain ⟨hid, hnd⟩ := List.nodup_cons.mp hnd
    rw [List.foldl_cons, registerNew]
    by_cases hmem : id ∈ ids
    · rw [List.filter_cons_of_neg (by simpa using hmem)] at hsize ⊢
      rw [if_pos (h.mem_iff.mpr hmem)]
      exact ih h hnd hsize
    · rw [List.filter_cons_of_pos (by simpa using hmem)] at hsize ⊢
      rw [if_neg (mt h.mem_iff.mp hmem)]
      have hlt : ids.length < maxNumber := by
        rw [List.length_append, List.length_cons] at hsize
        omega
      -- The block that was just listed does not come again.
      have hrest : more.filter (· ∉ ids ++ [id]) = more.filter (· ∉ ids) := by
        refine List.filter_congr fun x hx => ?_
        have hne : x ≠ id := fun he => hid (he ▸ hx)
        simp [hne]
      rw [List.append_cons, ← hrest] at hsize ⊢
      exact ih (h.register hmem hlt) hnd hsize

end Lists

/-- The tables of a document are those of its numbering. -/
theorem lists_ofDocument {d : Document} (h : d.size ≤ maxNumber) :
    (ofDocument d).Lists (Numbering.ofDocument d).ids := by
  have hrest : d.blocks.keys.filter (fun id => !d.reachable.contains id) =
      d.blocks.keys.filter (· ∉ d.order) := by
    refine List.filter_congr fun id _ => ?_
    have hmet : d.reachable.contains id = true ↔ id ∈ d.order := by
      rw [Std.ExtTreeSet.contains_iff_mem, Document.mem_reachable, Document.mem_order]
    by_cases hid : id ∈ d.order
    · simp [hid, hmet.mpr hid]
    · simp [hid, Bool.eq_false_iff.mpr (mt hmet.mp hid)]
  -- what was met is in the order, so the rest of the keys are the same as in the numbering
  have hids : (Numbering.ofDocument d).ids = d.order ++ d.blocks.keys.filter (· ∉ d.order) := by
    rw [← hrest]
    rfl
  have hlength : (Numbering.ofDocument d).ids.length ≤ maxNumber := by
    rw [← Numbering.size, Numbering.size_ofDocument]
    exact h
  have hnd := Numbering.nodup_ids_ofDocument d
  rw [hids] at hlength hnd ⊢
  have horder : (d.order.foldl Registry.register {}).Lists d.order := by
    refine lists_empty.foldl_register hnd.of_append_left ?_
    rw [List.length_append] at hlength
    rw [List.nil_append]
    omega
  exact horder.foldl_registerNew ExtTreeMap.nodup_keys hlength

end Registry

/-! ## The order of numbers -/

namespace Document

variable {d : Document}

/-- The root comes first in document order, if it is a block. -/
theorem exists_order_eq (h : d.contains d.root = true) : ∃ more, d.order = d.root :: more := by
  obtain ⟨more, hmore⟩ := d.exists_subtree_eq d.root
  exact ⟨more.filter d.contains, by rw [order, hmore, List.filter_cons_of_pos h]⟩

end Document

namespace Numbering

variable {d : Document}

theorem long?_of_order {i : Nat} {id : BlockId} (h : d.order[i]? = some id) :
    (ofDocument d).long? (i + 1) = some id := by
  obtain ⟨hlt, -⟩ := List.getElem?_eq_some_iff.mp h
  exact (List.getElem?_append_left hlt).trans h

theorem long?_root (h : d.contains d.root = true) :
    (ofDocument d).long? 1 = some d.root := by
  obtain ⟨more, hmore⟩ := Document.exists_order_eq h
  exact long?_of_order (i := 0) (by rw [hmore, List.getElem?_cons_zero])

/-- Behind the blocks of the walk the others follow in the order of ids. -/
theorem compare_of_long? {i j : Nat} {a b : BlockId} (hi : d.order.length < i) (hij : i < j)
    (ha : (ofDocument d).long? i = some a) (hb : (ofDocument d).long? j = some b) :
    compare a b = .lt := by
  have hsorted : (d.blocks.keys.filter fun id => !d.reachable.contains id).Pairwise
      (compare · · = .lt) := ExtTreeMap.ordered_keys.filter _
  obtain ⟨i, rfl⟩ : ∃ n, i = d.order.length + n + 1 := ⟨i - d.order.length - 1, by omega⟩
  obtain ⟨j, rfl⟩ : ∃ n, j = d.order.length + n + 1 := ⟨j - d.order.length - 1, by omega⟩
  rw [long?, ofDocument, List.getElem?_append_right (Nat.le_add_right ..),
    Nat.add_sub_cancel_left] at ha hb
  obtain ⟨hi', rfl⟩ := List.getElem?_eq_some_iff.mp ha
  obtain ⟨hj', rfl⟩ := List.getElem?_eq_some_iff.mp hb
  exact List.pairwise_iff_getElem.mp hsorted i j hi' hj' (by omega)

theorem isSome_long?_iff {k : Nat} :
    ((ofDocument d).long? k).isSome = true ↔ 1 ≤ k ∧ k ≤ d.size := by
  rw [← size_ofDocument, size]
  cases k with
  | zero => simp [long?]
  | succ i => simp [long?]

theorem isSome_short?_iff {id : BlockId} :
    ((ofDocument d).short? id).isSome = true ↔ d.contains id = true := by
  rw [← mem_ids_ofDocument, ← Option.ne_none_iff_isSome, ne_eq, short?_eq_none_iff, not_not]

/-- **Blocks and numbers determine each other**, on any document that numbers are enough for. The two
tables, filled one block after the other, are those of the numbering: they hold the blocks and the
numbers from one to the number of blocks, each is the inverse of the other, the walk through the
document comes first, starting with the root, and the other blocks follow in the order of ids. -/
theorem tables_ofDocument {d : Document} (h : d.size ≤ Registry.maxNumber) :
    let n := ofDocument d
    let r := Registry.ofDocument d
    (∀ id, r.shorts[id]? = n.short? id) ∧ (∀ k, r.longs[k]? = n.long? k) ∧
      (∀ id, (n.short? id).isSome = true ↔ d.contains id = true) ∧
      (∀ k, (n.long? k).isSome = true ↔ 1 ≤ k ∧ k ≤ d.size) ∧
      (∀ id k, n.short? id = some k ↔ n.long? k = some id) ∧
      (∀ i id, d.order[i]? = some id → n.short? id = some (i + 1)) ∧
      (d.contains d.root = true → n.short? d.root = some 1) ∧
      ∀ i j a b, d.order.length < i → i < j → n.long? i = some a → n.long? j = some b →
        compare a b = .lt := by
  intro n r
  have hlists := Registry.lists_ofDocument h
  have hiff (id : BlockId) (k : Nat) : n.short? id = some k ↔ n.long? k = some id :=
    short?_eq_some_iff (nodup_ids_ofDocument d)
  exact ⟨hlists.short, hlists.long, fun _ => isSome_short?_iff, fun _ => isSome_long?_iff, hiff,
    fun i id hi => (hiff id _).mpr (long?_of_order hi),
    fun hroot => (hiff _ _).mpr (long?_root hroot), fun _ _ _ _ => compare_of_long?⟩

/-- A root and its child that are children of each other, with a child listed twice, one that is no
block, and two blocks that no walk meets. -/
def circular : Document :=
  let block (id : BlockId) : BlockId × Block := (id, { id, content := .text "" })
  let tree : List (BlockId × List BlockId) := [(⟨"m"⟩, [⟨"z"⟩, ⟨"x"⟩, ⟨"z"⟩]), (⟨"z"⟩, [⟨"m"⟩])]
  .ofParts ⟨"m"⟩ (.ofList [block ⟨"z"⟩, block ⟨"m"⟩, block ⟨"c"⟩, block ⟨"a"⟩]) (.ofList tree)
    { policy := .sequential }

/-- The tables number the walk first and then the orphans. -/
theorem tables_circular :
    circular.size ≤ Registry.maxNumber ∧
      (Registry.ofDocument circular).shorts[circular.root]? = some 1 ∧
      (Registry.ofDocument circular).longs[2]? = some ⟨"z"⟩ ∧
      (Registry.ofDocument circular).shorts[(⟨"c"⟩ : BlockId)]? = some 4 ∧
      (Registry.ofDocument circular).longs[5]? = none := by
  have hsize : circular.size ≤ Registry.maxNumber := by decide +kernel
  obtain ⟨hshort, hlong, -, hrange, hiff, horder, hroot, -⟩ := tables_ofDocument hsize
  refine ⟨hsize, ?_, ?_, ?_, ?_⟩
  · rw [hshort]
    exact hroot (by decide +kernel)
  · rw [hlong, ← hiff]
    exact horder 1 ⟨"z"⟩ (by decide +kernel)
  · rw [hshort, hiff]
    decide +kernel
  · rw [hlong, ← Option.not_isSome_iff_eq_none, hrange]
    decide +kernel

end Numbering

end BlockDocument
