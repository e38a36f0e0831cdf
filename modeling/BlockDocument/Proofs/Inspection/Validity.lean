import BlockDocument.Proofs.Document.Change
import BlockDocument.Proofs.Inspection.Level

/-!
# What makes a document valid

An inspection finds a document valid exactly if it keeps the rules of a tree and the limits that are
set (`Inspector.valid_inspect_iff`). The rules are those of `Document.IsForest`. The limits are
about plain measures: the number of blocks, the distances from the root, the sizes of contents and
the numbers of edges.
-/

namespace BlockDocument

open Std (ExtTreeMap)

/-- A document that exceeds no limit. -/
structure Limits.Hold (l : Limits) (d : Document) : Prop where
  blocks : ∀ bound ∈ l.blocks, d.size ≤ bound
  depth : ∀ bound ∈ l.depth, ∀ id, d.contains id = true → ∀ k,
    Distance d.childrenOf d.root id k → k ≤ bound
  blockSize : ∀ bound ∈ l.blockSize, ∀ id b, d.block? id = some b → b.content.byteSize ≤ bound
  documentSize : ∀ bound ∈ l.documentSize, d.byteSize ≤ bound
  edges : ∀ bound ∈ l.edges, ∀ id b, d.block? id = some b → b.edges.length ≤ bound

/-! ## The greatest level -/

/-- A fold that keeps the later of two entries unless the earlier one is greater keeps the greatest.
-/
theorem greatest_foldl {f : Option (BlockId × Nat) → BlockId × Nat → Option (BlockId × Nat)}
    {entries : List (BlockId × Nat)} {best : BlockId × Nat} {kept : Option (BlockId × Nat)}
    (h : entries.foldl f (some best) = kept)
    (hf : ∀ b e, f (some b) e = if b.2 ≤ e.2 then some e else some b) :
    ∃ e ∈ best :: entries, kept = some e ∧ ∀ e' ∈ best :: entries, e'.2 ≤ e.2 := by
  induction entries generalizing best with
  | nil => exact ⟨best, by simp, h.symm, by simp⟩
  | cons x entries ih =>
    rw [List.foldl_cons, hf] at h
    by_cases hx : best.2 ≤ x.2
    · rw [if_pos hx] at h
      obtain ⟨e, hmem, hkept, hall⟩ := ih h
      refine ⟨e, List.mem_cons_of_mem _ hmem, hkept, List.forall_mem_cons.mpr ⟨?_, hall⟩⟩
      exact Nat.le_trans hx (hall x List.mem_cons_self)
    · rw [if_neg hx] at h
      obtain ⟨e, hmem, hkept, hall⟩ := ih h
      have hbest := hall best List.mem_cons_self
      refine ⟨e, by grind, hkept, ?_⟩
      intro e' he'
      rcases List.mem_cons.mp he' with rfl | he'
      · exact hbest
      · rcases List.mem_cons.mp he' with rfl | he'
        · omega
        · exact hall e' (List.mem_cons_of_mem _ he')

namespace Document

theorem deepest?_eq_none {d : Document} (h : d.deepest? = none) : d.levels.toList = [] := by
  rw [deepest?] at h
  cases hl : d.levels.toList with
  | nil => rfl
  | cons x entries =>
    rw [hl] at h
    obtain ⟨e, -, he, -⟩ := greatest_foldl h fun _ _ => rfl
    cases he

/-- No block is below the one on the greatest level. -/
theorem deepest?_eq_some {d : Document} {e : BlockId × Nat} (h : d.deepest? = some e) :
    e ∈ d.levels.toList ∧ ∀ e' ∈ d.levels.toList, e'.2 ≤ e.2 := by
  rw [deepest?] at h
  cases hl : d.levels.toList with
  | nil =>
    rw [hl] at h
    cases h
  | cons x entries =>
    rw [hl] at h
    obtain ⟨e', hmem, he, hall⟩ := greatest_foldl h fun _ _ => rfl
    cases he
    exact ⟨hmem, hall⟩

/-- In a forest children are blocks, so levels are distances along all listed children. -/
theorem IsForest.getElem?_levels {d : Document} (h : d.IsForest) (id : BlockId) (k : Nat) :
    d.levels[id]? = some k ↔ Distance d.childrenOf d.root id k := by
  have hchildren : d.presentChildren = d.childrenOf := by
    funext p
    exact List.filter_eq_self.mpr (h.child_mem p)
  rw [d.getElem?_levels h.root_mem, hchildren]

end Document

/-! ## Limits -/

theorem exceeded?_eq_none {bound : Option Nat} {measure : Nat} :
    exceeded? bound measure = none ↔ ∀ b ∈ bound, measure ≤ b := by
  cases bound with
  | none => simp [exceeded?]
  | some b => simp [exceeded?, Option.filter]

theorem exceeded?_eq_some {bound : Option Nat} {measure b : Nat} :
    exceeded? bound measure = some b ↔ b ∈ bound ∧ b < measure := by
  rw [exceeded?, Option.filter_eq_some_iff, decide_eq_true_iff]
  rfl

/-- What exceeds a bound, by code and block. -/
theorem mem_keys_exceeded {bound : Option Nat} {measure : Nat} {issue : Nat → Issue}
    {k : String × Option BlockId} :
    k ∈ ((exceeded? bound measure).map issue).toList.map Issue.key ↔
      ∃ b ∈ bound, b < measure ∧ (issue b).key = k := by
  simp only [List.mem_map, Option.mem_toList, Option.map_eq_some_iff, exceeded?_eq_some]
  constructor
  · rintro ⟨_, ⟨b, ⟨hb, hlt⟩, rfl⟩, hk⟩
    exact ⟨b, hb, hlt, hk⟩
  · rintro ⟨b, hb, hlt, hk⟩
    exact ⟨_, ⟨b, ⟨hb, hlt⟩, rfl⟩, hk⟩

namespace Limits

variable {l : Limits} {d : Document}

theorem depthIssues_eq_nil (h : d.IsForest) :
    (d.deepest?.bind fun e => l.depthIssue e.2 e.1) = none ↔
      ∀ bound ∈ l.depth, ∀ id, d.contains id = true → ∀ k,
        Distance d.childrenOf d.root id k → k ≤ bound := by
  have hentry (id : BlockId) (k : Nat) :
      (id, k) ∈ d.levels.toList ↔ Distance d.childrenOf d.root id k := by
    rw [ExtTreeMap.mem_toList_iff_getElem?_eq_some, h.getElem?_levels]
  cases hdeep : d.deepest? with
  | none =>
    refine ⟨fun _ bound _ id _ k hk => ?_, fun _ => rfl⟩
    have hin := (hentry id k).mpr hk
    rw [Document.deepest?_eq_none hdeep] at hin
    cases hin
  | some e =>
    obtain ⟨hmem, hall⟩ := Document.deepest?_eq_some hdeep
    simp only [Option.bind_some, depthIssue, Option.map_eq_none_iff, exceeded?_eq_none]
    constructor
    · intro hle bound hb id _ k hk
      exact Nat.le_trans (hall _ ((hentry id k).mpr hk)) (hle bound hb)
    · intro hle bound hb
      have hd := (hentry e.1 e.2).mp hmem
      have hin := hd.1.mem (P := fun x => d.contains x = true) h.root_mem h.child_mem
      exact hle bound hb e.1 hin e.2 hd

theorem blockIssues_eq_nil {b : Block} :
    l.blockIssues b = [] ↔ (∀ bound ∈ l.blockSize, b.content.byteSize ≤ bound) ∧
      ∀ bound ∈ l.edges, b.edges.length ≤ bound := by
  simp only [blockIssues, List.append_eq_nil_iff, Option.toList_eq_nil_iff, blockSizeIssue,
    edgeCountIssue, Option.map_eq_none_iff, exceeded?_eq_none]

theorem issues_eq_nil_iff (h : d.IsForest) : l.issues d = [] ↔ l.Hold d := by
  have hvalues : d.blocks.values.flatMap l.blockIssues = [] ↔
      ∀ id b, d.block? id = some b → l.blockIssues b = [] := by
    rw [List.flatMap_eq_nil_iff]
    constructor
    · intro hb id b hid
      exact hb b (Map.mem_values.mpr ⟨id, hid⟩)
    · intro hb b hv
      obtain ⟨id, hid⟩ := Map.mem_values.mp hv
      exact hb id b hid
  simp only [issues, List.append_eq_nil_iff, Option.toList_eq_nil_iff, blockCountIssue,
    documentSizeIssue, Option.map_eq_none_iff, exceeded?_eq_none, hvalues, blockIssues_eq_nil]
  constructor
  · rintro ⟨⟨⟨hcount, hdepth⟩, hblocks⟩, hsize⟩
    exact ⟨hcount, (depthIssues_eq_nil h).mp hdepth,
      fun bound hb id b hid => (hblocks id b hid).1 bound hb, hsize,
      fun bound hb id b hid => (hblocks id b hid).2 bound hb⟩
  · intro hold
    exact ⟨⟨⟨hold.blocks, (depthIssues_eq_nil h).mpr hold.depth⟩, fun id b hid =>
      ⟨fun bound hb => hold.blockSize bound hb id b hid,
        fun bound hb => hold.edges bound hb id b hid⟩⟩, hold.documentSize⟩

/-- What an issue of limits reports: a measure that is bounded, with its bound. -/
inductive Reports (l : Limits) : Issue → Prop where
  | blocks {count bound : Nat} (h : bound ∈ l.blocks) :
      Reports l (.error (.tooManyBlocks count bound) none)
  | depth {level bound : Nat} {id : BlockId} (h : bound ∈ l.depth) :
      Reports l (.error (.tooDeep level bound) (some id))
  | blockSize {size bound : Nat} {id : BlockId} (h : bound ∈ l.blockSize) :
      Reports l (.error (.blockTooLarge size bound) (some id))
  | documentSize {size bound : Nat} (h : bound ∈ l.documentSize) :
      Reports l (.error (.documentTooLarge size bound) none)
  | edges {count bound : Nat} {id : BlockId} (h : bound ∈ l.edges) :
      Reports l (.error (.tooManyEdges count bound) (some id))

theorem reports_of_mem_issues {i : Issue} (h : i ∈ l.issues d) : l.Reports i := by
  have bounded {bound : Option Nat} {measure b : Nat} (hb : exceeded? bound measure = some b) :
      b ∈ bound := (exceeded?_eq_some.mp hb).1
  simp only [issues, blockIssues, List.mem_append, Option.mem_toList, List.mem_flatMap,
    Option.bind_eq_some_iff, blockCountIssue, depthIssue, blockSizeIssue, edgeCountIssue,
    documentSizeIssue, Option.map_eq_some_iff] at h
  obtain ((⟨_, hb, rfl⟩ | ⟨_, -, _, hb, rfl⟩) | ⟨_, -, ⟨_, hb, rfl⟩ | ⟨_, hb, rfl⟩⟩) | ⟨_, hb, rfl⟩ := h
  · exact .blocks (bounded hb)
  · exact .depth (bounded hb)
  · exact .blockSize (bounded hb)
  · exact .edges (bounded hb)
  · exact .documentSize (bounded hb)

/-- Whatever exceeds a limit is an error. -/
theorem isError_of_mem_issues {i : Issue} (h : i ∈ l.issues d) : i.isError = true := by
  cases reports_of_mem_issues h <;> rfl

end Limits

/-! ## Validity -/

namespace Inspector

/-- The errors of an inspection are those of the tree and whatever exceeds a limit. -/
theorem errors_inspect (i : Inspector) (d : Document) :
    (i.inspect d).errors = d.treeIssues ++ i.limits.issues d := by
  have hnone := Document.errors_inspect_of_no_limits d { i with limits := {} } rfl
  have hlimits : (i.limits.issues d).filter Issue.isError = i.limits.issues d :=
    List.filter_eq_self.mpr fun _ hi => Limits.isError_of_mem_issues hi
  rw [Report.errors, inspect, Document.issues_no_limits, List.append_nil] at hnone
  rw [Report.errors, inspect, List.filter_append, hlimits]
  exact congrArg (· ++ i.limits.issues d) hnone

/-- Only the tree and the limits bear on validity. -/
theorem valid_inspect (i : Inspector) (d : Document) :
    (i.inspect d).valid = true ↔ d.treeIssues = [] ∧ i.limits.issues d = [] := by
  rw [Report.valid, Bool.not_eq_true', List.any_eq_false, ← List.filter_eq_nil_iff, ← Report.errors,
    errors_inspect, List.append_eq_nil_iff]

@[simp] theorem limits_withDangling (i : Inspector) (severity : Severity) :
    (i.withDangling severity).limits = i.limits := by
  rw [withDangling]
  split <;> rfl

/-- **Inspection is exact**: whatever the limits and however much an edge without a target matters,
a document is found valid exactly if it keeps the rules of a tree and the limits. No setting for
such edges changes the answer. -/
theorem valid_inspect_iff {d : Document} (h : d.Stored) (i : Inspector) :
    ((i.inspect d).valid = true ↔ d.IsForest ∧ i.limits.Hold d) ∧
      ∀ severity, ((i.withDangling severity).inspect d).valid = (i.inspect d).valid := by
  refine ⟨?_, fun severity => ?_⟩
  · rw [valid_inspect, Document.treeIssues_eq_nil_iff h]
    exact and_congr_right fun hforest => Limits.issues_eq_nil_iff hforest
  · rw [Bool.eq_iff_iff, valid_inspect, valid_inspect, limits_withDangling]

/-- A root and an orphan are two blocks: one too many for one limit, and fine for the next. -/
theorem valid_inspect_orphan :
    let orphan : BlockId := .ofSuffix 7
    let d := (Document.create ⟨.sequential, 1⟩).withLeaf orphan { id := orphan, content := .text "" }
    d.Stored ∧ (Inspector.inspect { limits := { blocks := some 1 } } d).valid = false ∧
      (Inspector.inspect { limits := { blocks := some 2 } } d).valid = true := by
  intro orphan d
  have hd : d.IsForest := (Document.isTree_create _).toIsForest.withLeaf (by decide) rfl rfl
  have hsize : d.size = 2 := by decide
  refine ⟨hd.stored, Bool.eq_false_iff.mpr fun hvalid => ?_, ?_⟩
  · have hold := ((valid_inspect_iff hd.stored _).1.mp hvalid).2
    have := hold.blocks 1 rfl
    omega
  · refine (valid_inspect_iff hd.stored _).1.mpr ⟨hd, ?_⟩
    refine ⟨?_, by simp, by simp, by simp, by simp⟩
    intro bound hbound
    obtain rfl : 2 = bound := by simpa using hbound
    omega

end Inspector

end BlockDocument
