import BlockDocument.Proofs.Document.Depth
import BlockDocument.Proofs.Document.Success
import BlockDocument.Proofs.Inspection.Validity

/-!
# Orphans

A prune and an inspection look for what the root does not lead to, each in its own way: the prune
walks along all that the tree lists and keeps the blocks that it meets, the inspection walks along
blocks only. The two find the same orphans exactly on documents where no chain of children leaves
the blocks and comes back to them (`Document.Unbroken`); the rules of a tree rule that out, and a
prune leaves no such chain behind.
-/

namespace BlockDocument

open Std (ExtTreeMap)

/-- The blocks that a report names under a code, in the order of its issues. -/
def Report.reported (r : Report) (code : String) : List BlockId :=
  (r.issues.filter (·.finding.code == code)).filterMap Issue.block

namespace Document

variable {d : Document} {id : BlockId}

/-- The root leads to an id along blocks, from the first one on. -/
def Attached (d : Document) (id : BlockId) : Prop :=
  d.contains d.root = true ∧ Leads d.presentChildren d.root id

/-- Whatever block the root leads to, it leads there along blocks. -/
def Unbroken (d : Document) : Prop :=
  ∀ id, d.contains id = true → Leads d.childrenOf d.root id → d.Attached id

/-! ## What the inspection calls an orphan -/

/-- The ids with a level are those that the root leads to along blocks. -/
theorem contains_levels_iff : d.levels.contains id = true ↔ d.Attached id := by
  by_cases hroot : d.contains d.root = true
  · rw [ExtTreeMap.contains_eq_isSome_getElem?, Option.isSome_iff_exists, Attached]
    constructor
    · rintro ⟨k, hk⟩
      exact ⟨hroot, ((d.getElem?_levels hroot id k).mp hk).1.leads⟩
    · rintro ⟨-, hl⟩
      obtain ⟨n, hn⟩ := hl.steps
      obtain ⟨k, -, hk⟩ := hn.distance
      exact ⟨k, (d.getElem?_levels hroot id k).mpr hk⟩
  · simp [d.levels_of_rootless hroot, Attached, hroot]

theorem code_ne_of_mem_treeIssues {i : Issue} (h : i ∈ d.treeIssues) :
    i.finding.code ≠ "E203" := by
  cases reports_of_mem_treeIssues h <;> simp [Issue.error, Finding.code]

theorem code_ne_of_mem_danglingIssues {s : Severity} {i : Issue} (h : i ∈ d.danglingIssues s) :
    i.finding.code ≠ "E203" := by
  obtain ⟨b, -, hb⟩ := List.mem_flatMap.mp h
  obtain ⟨e, -, rfl⟩ := List.mem_map.mp hb
  simp [Finding.code]

theorem code_ne_of_mem_limitIssues {l : Limits} {i : Issue} (h : i ∈ l.issues d) :
    i.finding.code ≠ "E203" := by
  cases Limits.reports_of_mem_issues h <;> simp [Issue.error, Finding.code]

/-- The orphans that an inspection reports are the blocks without a level, in the order of ids. -/
theorem reported_orphans (i : Inspector) (d : Document) :
    (i.inspect d).reported "E203" = d.blocks.keys.filter fun id => !d.levels.contains id := by
  have none_of {issues : List Issue} (h : ∀ i ∈ issues, i.finding.code ≠ "E203") :
      issues.filter (·.finding.code == "E203") = [] :=
    List.filter_eq_nil_iff.mpr fun i hi => by simpa using h i hi
  have hall : d.orphanIssues.filter (·.finding.code == "E203") = d.orphanIssues := by
    refine List.filter_eq_self.mpr fun i hi => ?_
    obtain ⟨id, -, rfl⟩ := List.mem_map.mp hi
    rfl
  rw [Report.reported, Inspector.inspect, List.filter_append, List.filter_append, List.filter_append,
    none_of fun i hi => code_ne_of_mem_treeIssues hi, hall,
    none_of fun i hi => code_ne_of_mem_danglingIssues hi,
    none_of fun i hi => code_ne_of_mem_limitIssues hi]
  simp [orphanIssues, List.filterMap_map]

theorem mem_reported_orphans {i : Inspector} :
    id ∈ (i.inspect d).reported "E203" ↔ d.contains id = true ∧ ¬ d.Attached id := by
  rw [reported_orphans, List.mem_filter, ExtTreeMap.mem_keys, Bool.not_eq_true', Bool.eq_false_iff,
    ne_eq, contains_levels_iff]
  rfl

/-! ## What a prune deletes -/

/-- The blocks that a prune deletes, in the order of ids. -/
def unreached (d : Document) : List BlockId :=
  d.blocks.keys.filter fun id => !d.reachable.contains id

theorem mem_unreached :
    id ∈ d.unreached ↔ d.contains id = true ∧ ¬ Leads d.childrenOf d.root id := by
  rw [unreached, List.mem_filter, ExtTreeMap.mem_keys, Bool.not_eq_true', Bool.eq_false_iff]
  have hmem : d.reachable.contains id = true ↔ Leads d.childrenOf d.root id ∧ d.contains id = true :=
    mem_reachable
  rw [ne_eq, hmem]
  exact and_congr_right fun hid => not_congr (and_iff_left hid)

theorem prune_ok (d : Document) :
    Edit.prune d = .ok d.unreached (d.restrict d.reachable.contains) := rfl

theorem Attached.reaches (h : d.Attached id) :
    Leads d.childrenOf d.root id ∧ d.contains id = true := by
  obtain ⟨hroot, hl⟩ := h
  induction hl with
  | refl => exact ⟨.refl d.root, hroot⟩
  | tail _ hc ih =>
    obtain ⟨hc, hpresent⟩ := (d.mem_presentChildren).mp hc
    exact ⟨ih.1.tail hc, hpresent⟩

/-- Where only blocks have children, chains of children do not leave the blocks. -/
theorem unbroken_of_parents (h : ∀ p, ∀ c ∈ d.childrenOf p, d.contains p = true) : d.Unbroken := by
  intro id hid hl
  induction hl with
  | refl => exact ⟨hid, .refl d.root⟩
  | @tail p c _ hc ih =>
    obtain ⟨hroot, hp⟩ := ih (h p c hc)
    exact ⟨hroot, hp.tail (d.mem_presentChildren.mpr ⟨hc, hid⟩)⟩

/-- A prune and an inspection agree on the orphans exactly if no chain leaves the blocks. -/
theorem unreached_eq_reported_iff (i : Inspector) :
    d.unreached = (i.inspect d).reported "E203" ↔ d.Unbroken := by
  constructor
  · intro he id hid hl
    by_contra hna
    have hmem : id ∈ d.unreached := he ▸ mem_reported_orphans.mpr ⟨hid, hna⟩
    exact (mem_unreached.mp hmem).2 hl
  · intro h
    rw [unreached, reported_orphans]
    refine List.filter_congr fun id hid => ?_
    have hiff : d.reachable.contains id = true ↔ d.levels.contains id = true := by
      rw [contains_levels_iff]
      exact mem_reachable.trans ⟨fun hl => h id hl.2 hl.1, Attached.reaches⟩
    rw [Bool.eq_iff_iff.mpr hiff]

/-! ## What a prune leaves -/

theorem contains_pruned : (d.restrict d.reachable.contains).contains id = true ↔
    Leads d.childrenOf d.root id ∧ d.contains id = true := by
  rw [contains_restrict, Bool.and_eq_true]
  exact ⟨fun h => mem_reachable.mp h.1, fun h => ⟨mem_reachable.mpr h, h.2⟩⟩

theorem mem_childrenOf_pruned {p c : BlockId} :
    c ∈ (d.restrict d.reachable.contains).childrenOf p ↔
      (Leads d.childrenOf d.root p ∧ d.contains p = true) ∧ c ∈ d.childrenOf p := by
  have hmem : d.reachable.contains p = true ↔ _ := mem_reachable
  rw [childrenOf_restrict, ← hmem]
  split <;> simp_all

/-- A prune keeps what the root leads to along blocks. -/
theorem attached_pruned : (d.restrict d.reachable.contains).Attached id ↔ d.Attached id := by
  constructor
  · rintro ⟨hroot, hl⟩
    refine ⟨(contains_pruned.mp hroot).2, hl.lift (fun x => x) fun p c hc => ?_⟩
    obtain ⟨hc, hpresent⟩ := (mem_presentChildren _).mp hc
    exact d.mem_presentChildren.mpr ⟨(mem_childrenOf_pruned.mp hc).2, (contains_pruned.mp hpresent).2⟩
  · rintro ⟨hroot, hl⟩
    refine ⟨contains_pruned.mpr ⟨.refl d.root, hroot⟩, ?_⟩
    induction hl with
    | refl => exact .refl _
    | @tail p c hp hc ih =>
      have hreached := Attached.reaches ⟨hroot, hp⟩
      obtain ⟨hc, hpresent⟩ := d.mem_presentChildren.mp hc
      refine ih.tail ((mem_presentChildren _).mpr ⟨mem_childrenOf_pruned.mpr ⟨hreached, hc⟩, ?_⟩)
      exact contains_pruned.mpr ⟨hreached.1.tail hc, hpresent⟩

theorem unbroken_pruned (d : Document) : (d.restrict d.reachable.contains).Unbroken :=
  unbroken_of_parents fun _ _ hc => contains_pruned.mpr (mem_childrenOf_pruned.mp hc).1

/-- **A prune deletes orphans**: what it answers is in the order of ids and reported as an orphan, and
all other blocks stay as they are. Where no chain of children leaves the blocks and comes back, as
where only blocks have children, it deletes all that is reported and leaves no orphan. A second prune
deletes exactly the orphans that the first one left, and there are some if a chain left the blocks. -/
theorem prune_deletes_orphans (i : Inspector) (d : Document) :
    ∃ removed d', Edit.prune d = .ok removed d' ∧ removed.Pairwise (compare · · = .lt) ∧
      removed ⊆ (i.inspect d).reported "E203" ∧
      (∀ id, d'.block? id = if id ∈ removed then none else d.block? id) ∧
      (removed = (i.inspect d).reported "E203" ↔ d.Unbroken) ∧
      ((i.inspect d').reported "E203" = [] ↔ d.Unbroken) ∧
      (∃ d'', Edit.prune d' = .ok ((i.inspect d').reported "E203") d'') ∧
      ((∀ p, ∀ c ∈ d.childrenOf p, d.contains p = true) → d.Unbroken) := by
  refine ⟨_, _, prune_ok d, ExtTreeMap.ordered_keys.filter _, fun id hid => ?_, fun id => ?_,
    unreached_eq_reported_iff i, ?_, ?_, unbroken_of_parents⟩
  · obtain ⟨hid, hl⟩ := mem_unreached.mp hid
    exact mem_reported_orphans.mpr ⟨hid, fun ha => hl ha.reaches.1⟩
  · have hmem : d.reachable.contains id = true ↔ _ := mem_reachable
    rw [block?_restrict]
    by_cases hl : Leads d.childrenOf d.root id ∧ d.contains id = true
    · rw [if_pos (hmem.mpr hl), if_neg fun hid => (mem_unreached.mp hid).2 hl.1]
    · -- what is not kept was deleted or was no block before
      rw [if_neg (mt hmem.mp hl)]
      split
      · rfl
      · rename_i hid
        rw [mem_unreached] at hid
        have habsent : ¬ d.contains id = true := by tauto
        rw [contains_eq_isSome, Option.not_isSome_iff_eq_none] at habsent
        exact habsent.symm
  · rw [List.eq_nil_iff_forall_not_mem]
    refine forall_congr' fun id => ?_
    rw [mem_reported_orphans, contains_pruned, attached_pruned]
    tauto
  · have hagain := (unreached_eq_reported_iff i).mpr (unbroken_pruned d)
    exact ⟨_, (prune_ok _).trans (by rw [hagain])⟩

/-- The root leads to a block along a gap: what it lists is no block, and has that block as child. A
prune keeps the block and drops what was listed in between, so the block is an orphan before and
after, and a second prune deletes it. -/
theorem prune_keeps_orphan :
    let root : BlockId := .ofSuffix 1
    let gap : BlockId := ⟨"m"⟩
    let far : BlockId := .ofSuffix 2
    let blocks : List (BlockId × Block) :=
      [(root, { id := root, content := .text "" }), (far, { id := far, content := .text "" })]
    let d := ofParts root (.ofList blocks) (.ofList [(root, [gap]), (gap, [far])]) ⟨.sequential, 1⟩
    ∃ d' d'', Edit.prune d = .ok [] d' ∧ (Inspector.inspect {} d).reported "E203" = [far] ∧
      (Inspector.inspect {} d').reported "E203" = [far] ∧ Edit.prune d' = .ok [far] d'' := by
  intro root gap far blocks d
  have hprune : d.unreached = [] := by decide +kernel
  have hbefore : (Inspector.inspect {} d).reported "E203" = [far] := by decide +kernel
  have hafter : (Inspector.inspect {} (d.restrict d.reachable.contains)).reported "E203" = [far] := by
    decide +kernel
  have hagain : (d.restrict d.reachable.contains).unreached = [far] := by decide +kernel
  exact ⟨_, _, by rw [prune_ok, hprune], hbefore, hafter, by rw [prune_ok, hagain]⟩

end Document

end BlockDocument
