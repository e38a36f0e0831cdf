import BlockDocument.Inspection.Inspector
import BlockDocument.Proofs.Inspection.Cycle

/-!
# Forests

A document is a forest if its tree keeps the rules: the root is there, every parent and every child
is a block, no child has two parents, blocks and tree agree, and nothing circles. Orphans are
allowed, so there may be several roots, of which one is *the* root.

`IsForest` says this through the readings of a document. `treeIssues_eq_nil_iff` ties it to what an
inspection reports.
-/

namespace BlockDocument

open Std (ExtTreeMap)

namespace Document

/-- Every block is stored under its own id. -/
def Stored (d : Document) : Prop := ∀ id b, d.block? id = some b → b.id = id

/-- The rules of a tree, for documents that may have orphans. -/
structure IsForest (d : Document) : Prop where
  stored : d.Stored
  root_mem : d.contains d.root = true
  parent_mem : ∀ p ∈ d.tree, d.contains p = true
  child_mem : ∀ p, ∀ c ∈ d.childrenOf p, d.contains c = true
  root_unlisted : ∀ p, d.root ∉ d.childrenOf p
  nodup : ∀ p, (d.childrenOf p).Nodup
  parent_unique : ∀ p q, ∀ c ∈ d.childrenOf p, c ∈ d.childrenOf q → p = q
  lockstep : ∀ id b, d.block? id = some b → b.children = d.childrenOf id
  acyclic : ∀ id, ¬ Circles d.childrenOf id

/-! ## Counting the parents of a child -/

theorem getElem?_foldl_tally (ids : List BlockId) (counts : ExtTreeMap BlockId Nat) (c : BlockId) :
    (ids.foldl (fun counts id => counts.insert id (counts.getD id 0 + 1)) counts)[c]? =
      if c ∈ ids then some (counts.getD c 0 + ids.count c) else counts[c]? := by
  induction ids generalizing counts with
  | nil => simp
  | cons id ids ih =>
    rw [List.foldl_cons, ih, ExtTreeMap.getD_insert, ExtTreeMap.getElem?_insert]
    by_cases hc : id = c
    · subst hc
      by_cases hm : id ∈ ids
      · simp only [hm, List.mem_cons, true_or, if_true, List.count_cons_self]
        simp only [Std.ReflCmp.compare_self, if_true]
        rw [Nat.add_assoc, Nat.add_comm 1]
      · simp [hm, List.count_eq_zero_of_not_mem hm]
    · have hce : c ≠ id := Ne.symm hc
      by_cases hm : c ∈ ids <;> simp [hm, hc, hce]

theorem getElem?_tally (ids : List BlockId) (c : BlockId) :
    (tally ids)[c]? = if c ∈ ids then some (ids.count c) else none := by
  rw [tally, getElem?_foldl_tally]
  simp

theorem mem_listed {d : Document} {c : BlockId} : c ∈ d.listed ↔ ∃ p, c ∈ d.childrenOf p := by
  simp only [listed, List.mem_flatten, Map.mem_values]
  constructor
  · rintro ⟨cs, ⟨p, hp⟩, hc⟩
    exact ⟨p, by rwa [childrenOf_eq, hp]⟩
  · rintro ⟨p, hc⟩
    obtain ⟨cs, hcs⟩ := Option.isSome_iff_exists.mp
      (ExtTreeMap.mem_iff_isSome_getElem?.mp (mem_tree_of_mem_childrenOf hc))
    exact ⟨cs, ⟨p, hcs⟩, by rwa [childrenOf_eq, hcs] at hc⟩

theorem childrenOf_of_mem_toList {d : Document} {e : BlockId × List BlockId}
    (he : e ∈ d.tree.toList) : d.childrenOf e.1 = e.2 := by
  rw [childrenOf_eq, ExtTreeMap.mem_toList_iff_getElem?_eq_some.mp he, Option.getD_some]

theorem mem_toList_of_mem_tree {d : Document} {p : BlockId} (hp : p ∈ d.tree) :
    (p, d.childrenOf p) ∈ d.tree.toList := by
  obtain ⟨cs, hcs⟩ := Option.isSome_iff_exists.mp (ExtTreeMap.mem_iff_isSome_getElem?.mp hp)
  rw [childrenOf_eq, hcs]
  exact ExtTreeMap.mem_toList_iff_getElem?_eq_some.mpr hcs

/-- No child is listed twice exactly if no list repeats one and no two lists share one. -/
theorem nodup_listed_iff {d : Document} :
    d.listed.Nodup ↔ (∀ p, (d.childrenOf p).Nodup) ∧
      ∀ p q, ∀ c ∈ d.childrenOf p, c ∈ d.childrenOf q → p = q := by
  -- a parent without an entry lists nothing, so the entries are all the lists there are
  have entryOf {p c : BlockId} (hc : c ∈ d.childrenOf p) : (p, d.childrenOf p) ∈ d.tree.toList :=
    mem_toList_of_mem_tree (mem_tree_of_mem_childrenOf hc)
  rw [listed, Map.values_eq_map_toList, List.nodup_flatten, List.pairwise_map]
  constructor
  · rintro ⟨hnd, hdis⟩
    refine ⟨fun p => ?_, fun p q c hp hq => ?_⟩
    · by_cases hp : ∃ c, c ∈ d.childrenOf p
      · obtain ⟨c, hc⟩ := hp
        exact hnd _ (List.mem_map_of_mem (f := Prod.snd) (entryOf hc))
      · rw [List.eq_nil_iff_forall_not_mem.mpr fun c hc => hp ⟨c, hc⟩]
        exact List.nodup_nil
    · by_contra hpq
      have hne : (p, d.childrenOf p) ≠ (q, d.childrenOf q) := fun h => hpq (congrArg Prod.fst h)
      have : Std.Symm fun a b : BlockId × List BlockId => a.2.Disjoint b.2 :=
        ⟨fun _ _ h => h.symm⟩
      exact hdis.forall (entryOf hp) (entryOf hq) hne hp hq
  · rintro ⟨hnd, hun⟩
    refine ⟨fun cs hcs => ?_, ?_⟩
    · obtain ⟨e, he, rfl⟩ := List.mem_map.mp hcs
      exact childrenOf_of_mem_toList he ▸ hnd e.1
    · refine ExtTreeMap.distinct_keys_toList.imp_of_mem fun {a b} ha hb hab => ?_
      intro c hca hcb
      rw [← childrenOf_of_mem_toList ha] at hca
      rw [← childrenOf_of_mem_toList hb] at hcb
      exact hab (Std.LawfulEqCmp.compare_eq_iff_eq.mpr (hun a.1 b.1 c hca hcb))

/-! ## What an inspection reports -/

theorem rootIssues_eq_nil {d : Document} : d.rootIssues = [] ↔ d.contains d.root = true := by
  rw [rootIssues]
  split <;> simp_all

theorem absenceIssues_eq_nil {d : Document} :
    d.absenceIssues = [] ↔ (∀ p ∈ d.tree, d.contains p = true) ∧
      ∀ p, ∀ c ∈ d.childrenOf p, d.contains c = true := by
  have entry : (∀ e ∈ d.tree.toList, d.contains e.1 = true ∧ ∀ c ∈ e.2, d.contains c = true) ↔
      (∀ p ∈ d.tree, d.contains p = true) ∧
        ∀ p, ∀ c ∈ d.childrenOf p, d.contains c = true := by
    constructor
    · intro h
      exact ⟨fun p hp => (h _ (mem_toList_of_mem_tree hp)).1, fun p c hc =>
        (h _ (mem_toList_of_mem_tree (mem_tree_of_mem_childrenOf hc))).2 c hc⟩
    · rintro ⟨hp, hc⟩ ⟨p, cs⟩ he
      have hcs := ExtTreeMap.mem_toList_iff_getElem?_eq_some.mp he
      refine ⟨hp p (ExtTreeMap.mem_iff_isSome_getElem?.mpr (by rw [hcs]; rfl)), fun c hcc => hc p c ?_⟩
      rwa [childrenOf_eq, hcs]
  rw [← entry, absenceIssues, List.flatMap_eq_nil_iff]
  refine forall_congr' fun e => imp_congr_right fun _ => ?_
  simp [List.filter_eq_nil_iff]

theorem parentIssue?_eq_none {d : Document} {c : BlockId} {times : Nat} :
    d.parentIssue? c times = none ↔ c ≠ d.root ∧ times ≤ 1 := by
  rw [parentIssue?]
  split
  · simp [*]
  · split
    · simp [*]
    · simp [*]
      omega

/-- The tally holds each id that is listed, with how often it is. -/
theorem parentIssues_eq_nil_iff_count {d : Document} :
    d.parentIssues = [] ↔ ∀ c ∈ d.listed, c ≠ d.root ∧ d.listed.count c ≤ 1 := by
  rw [parentIssues, List.filterMap_eq_nil_iff]
  constructor
  · intro h c hc
    have he : (tally d.listed)[c]? = some (d.listed.count c) := by rw [getElem?_tally, if_pos hc]
    exact parentIssue?_eq_none.mp (h (c, _) (ExtTreeMap.mem_toList_iff_getElem?_eq_some.mpr he))
  · rintro h ⟨c, times⟩ he
    have ht := ExtTreeMap.mem_toList_iff_getElem?_eq_some.mp he
    rw [getElem?_tally] at ht
    split at ht
    · rename_i hc
      obtain rfl : d.listed.count c = times := by simpa using ht
      exact parentIssue?_eq_none.mpr (h c hc)
    · simp at ht

theorem parentIssues_eq_nil {d : Document} :
    d.parentIssues = [] ↔ (∀ p, d.root ∉ d.childrenOf p) ∧ d.listed.Nodup := by
  rw [parentIssues_eq_nil_iff_count, List.nodup_iff_count_le_one]
  constructor
  · intro h
    refine ⟨fun p hp => (h _ (mem_listed.mpr ⟨p, hp⟩)).1 rfl, fun c => ?_⟩
    by_cases hc : c ∈ d.listed
    · exact (h c hc).2
    · rw [List.count_eq_zero_of_not_mem hc]
      exact Nat.zero_le 1
  · rintro ⟨hr, hn⟩ c hc
    refine ⟨fun hcr => ?_, hn c⟩
    obtain ⟨p, hp⟩ := mem_listed.mp hc
    exact hr p (hcr ▸ hp)

theorem childrenIssues_eq_nil {d : Document} (h : d.Stored) :
    d.childrenIssues = [] ↔ ∀ id b, d.block? id = some b → b.children = d.childrenOf id := by
  have each : d.childrenIssues = [] ↔ ∀ b ∈ d.blocks.values, b.children = d.childrenOf b.id := by
    simp [childrenIssues, List.filter_eq_nil_iff]
  rw [each]
  constructor
  · intro hb id b hid
    rw [hb b (Map.mem_values.mpr ⟨id, hid⟩), h id b hid]
  · intro hb b hv
    obtain ⟨id, hid⟩ := Map.mem_values.mp hv
    rw [hb id b hid, h id b hid]

theorem cycleIssues_eq_nil {d : Document} :
    d.cycleIssues = [] ↔ ∀ id, ¬ Circles d.childrenOf id := by
  rw [cycleIssues, List.map_eq_nil_iff, cycleEntries_eq_nil_iff]

/-- **The inspection of the tree is exact**: it reports nothing exactly on forests. -/
theorem treeIssues_eq_nil_iff {d : Document} (h : d.Stored) : d.treeIssues = [] ↔ d.IsForest := by
  simp only [treeIssues, List.append_eq_nil_iff, rootIssues_eq_nil, absenceIssues_eq_nil,
    parentIssues_eq_nil, childrenIssues_eq_nil h, cycleIssues_eq_nil, nodup_listed_iff]
  constructor
  · rintro ⟨⟨⟨⟨hr, hp, hc⟩, hu, hn, hq⟩, hl⟩, ha⟩
    exact ⟨h, hr, hp, hc, hu, hn, hq, hl, ha⟩
  · intro f
    exact ⟨⟨⟨⟨f.root_mem, f.parent_mem, f.child_mem⟩, f.root_unlisted, f.nodup, f.parent_unique⟩,
      f.lockstep⟩, f.acyclic⟩

/-- What an issue of the tree reports. What it reports as absent is no block. -/
inductive Reports (d : Document) : Issue → Prop where
  | rootMissing (h : d.contains d.root = false) :
      Reports d (.error (.rootMissing d.root) (some d.root))
  | parentMissing {parent : BlockId} (h : d.contains parent = false) :
      Reports d (.error (.parentMissing parent) (some parent))
  | childMissing {parent child : BlockId} (h : d.contains child = false) :
      Reports d (.error (.childMissing parent child) (some child))
  | rootListed {child : BlockId} : Reports d (.error .rootListed (some child))
  | manyParents {child : BlockId} {times : Nat} :
      Reports d (.error (.manyParents times) (some child))
  | childrenDiffer {id : BlockId} : Reports d (.error .childrenDiffer (some id))
  | cycle {id : BlockId} : Reports d (.error .cycle (some id))

theorem reports_of_mem_treeIssues {d : Document} {i : Issue} (h : i ∈ d.treeIssues) :
    d.Reports i := by
  simp only [treeIssues, List.mem_append] at h
  -- one case for each part of the inspection, in its order
  rcases h with (((h | h) | h) | h) | h
  · rw [rootIssues] at h
    split at h
    · cases h
    · rename_i hroot
      obtain rfl := List.mem_singleton.mp h
      exact .rootMissing (Bool.eq_false_iff.mpr hroot)
  · simp only [absenceIssues, List.mem_flatMap, List.mem_append, List.mem_map] at h
    obtain ⟨entry, -, h | ⟨c, hc, rfl⟩⟩ := h
    · split at h
      · cases h
      · rename_i hparent
        obtain rfl := List.mem_singleton.mp h
        exact .parentMissing (Bool.eq_false_iff.mpr hparent)
    · exact .childMissing (by simpa using (List.mem_filter.mp hc).2)
  · simp only [parentIssues, List.mem_filterMap, parentIssue?] at h
    obtain ⟨entry, -, h⟩ := h
    split at h
    · cases h
      exact .rootListed
    · split at h
      · cases h
        exact .manyParents
      · cases h
  · obtain ⟨b, -, rfl⟩ := List.mem_map.mp h
    exact .childrenDiffer
  · obtain ⟨id, -, rfl⟩ := List.mem_map.mp h
    exact .cycle

/-- Whatever breaks the rules of a tree is an error. -/
theorem isError_of_mem_treeIssues {d : Document} {i : Issue} (h : i ∈ d.treeIssues) :
    i.isError = true := by
  cases reports_of_mem_treeIssues h <;> rfl

theorem not_isError_of_mem_orphanIssues {d : Document} {i : Issue} (h : i ∈ d.orphanIssues) :
    i.isError = false := by
  obtain ⟨id, -, rfl⟩ := List.mem_map.mp h
  rfl

theorem not_isError_of_mem_danglingIssues {d : Document} {s : Severity} (hs : s ≠ .error)
    {i : Issue} (h : i ∈ d.danglingIssues s) : i.isError = false := by
  obtain ⟨b, -, hb⟩ := List.mem_flatMap.mp h
  obtain ⟨e, -, rfl⟩ := List.mem_map.mp hb
  exact beq_eq_false_iff_ne.mpr hs

theorem issues_no_limits (d : Document) : ({} : Limits).issues d = [] := by
  have hb (b : Block) : ({} : Limits).blockIssues b = [] := rfl
  have hd : (d.deepest?.bind fun e => ({} : Limits).depthIssue e.2 e.1) = none := by
    cases d.deepest? <;> rfl
  have hs : d.blocks.values.flatMap ({} : Limits).blockIssues = [] :=
    List.flatMap_eq_nil_iff.mpr fun b _ => hb b
  simp only [Limits.issues, hd, hs]
  rfl

/-- An inspection without limits finds the errors of the tree and no others. -/
theorem errors_inspect_of_no_limits (d : Document) (i : Inspector) (h : i.limits = {}) :
    (i.inspect d).errors = d.treeIssues := by
  have htree : d.treeIssues.filter Issue.isError = d.treeIssues :=
    List.filter_eq_self.mpr fun _ hi => isError_of_mem_treeIssues hi
  have horphan : d.orphanIssues.filter Issue.isError = [] :=
    List.filter_eq_nil_iff.mpr fun _ hi => by simp [not_isError_of_mem_orphanIssues hi]
  have hdangling : (d.danglingIssues i.dangling).filter Issue.isError = [] :=
    List.filter_eq_nil_iff.mpr fun _ hi => by
      simp [not_isError_of_mem_danglingIssues i.dangling_ne_error hi]
  rw [Report.errors, Inspector.inspect, h, issues_no_limits]
  simp [htree, horphan, hdangling]

/-- A document is clean if every block is stored under its own id and an inspection without limits
reports no error. -/
def Clean (d : Document) : Prop := d.Stored ∧ (Inspector.inspect {} d).errors = []

theorem clean_iff {d : Document} : d.Clean ↔ d.IsForest := by
  rw [Clean, errors_inspect_of_no_limits d {} rfl]
  exact ⟨fun h => (treeIssues_eq_nil_iff h.1).mp h.2,
    fun h => ⟨h.stored, (treeIssues_eq_nil_iff h.stored).mpr h⟩⟩

end Document

end BlockDocument
