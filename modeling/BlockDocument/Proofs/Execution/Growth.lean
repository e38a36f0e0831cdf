import BlockDocument.Proofs.Execution.Unlimited
import BlockDocument.Proofs.Inspection.Growth
import BlockDocument.Proofs.Operation

/-!
# How far a program lets a document grow

What a mutation checks is confined by every batch that takes effect. No mutation checks the size of
all contents. Only the inspection after a command does, and it puts up with an error that the batch
started from. So that size is bounded as long as it is within its limit, and from then on not at all
(`Executor.runBatch_confines`).
-/

namespace BlockDocument

/-! ## The size of all contents -/

/-- The limits without a bound on the size of all contents. -/
def Limits.anySize (l : Limits) : Limits := { l with documentSize := none }

/-- No mutation looks at the size of all contents. -/
theorem Mutation.apply_anySize (l : Limits) (m : Mutation) : m.apply l.anySize = m.apply l := by
  cases m <;> rfl

namespace Limits

variable {l : Limits} {d : Document}

theorem issues_eq_anySize (l : Limits) (d : Document) :
    l.issues d = l.anySize.issues d ++ (l.documentSizeIssue d.byteSize).toList := by
  have hnone : l.anySize.documentSizeIssue d.byteSize = none := rfl
  rw [issues, issues, hnone, Option.toList_none, List.append_nil]
  rfl

/-- The size of all contents has a code of its own. -/
theorem code_ne_of_mem_issues_anySize {i : Issue} (h : i ∈ l.anySize.issues d) :
    i.finding.code ≠ "E400" := by
  cases reports_of_mem_issues h with
  | documentSize hb => cases hb
  | _ => simp [Issue.error, Finding.code]

theorem key_of_mem_documentSizeIssue {i : Issue} {size : Nat}
    (h : i ∈ (l.documentSizeIssue size).toList) : i.key = ("E400", none) := by
  rw [Option.mem_toList, documentSizeIssue, Option.map_eq_some_iff] at h
  obtain ⟨bound, -, rfl⟩ := h
  rfl

end Limits

namespace Executor

variable {e : Executor} {resolver : Resolver} {d d' : Document}

/-- The executor that takes contents of any size in all. -/
def anySize (e : Executor) : Executor :=
  { e with inspector := { e.inspector with limits := e.inspector.limits.anySize } }

theorem errors_eq_anySize (e : Executor) (d : Document) :
    e.errors d =
      e.anySize.errors d ++ (e.inspector.limits.documentSizeIssue d.byteSize).toList := by
  rw [errors, errors, Inspector.errors_inspect, Inspector.errors_inspect, Limits.issues_eq_anySize,
    List.append_assoc]
  rfl

theorem key_ne_of_mem_errors_anySize {i : Issue} (h : i ∈ e.anySize.errors d) :
    i.key ≠ ("E400", none) := by
  intro hkey
  have hcode : i.finding.code = "E400" := (Prod.mk.inj hkey).1
  rw [errors, Inspector.errors_inspect, List.mem_append] at h
  rcases h with h | h
  · have htree := Document.code_mem_of_mem_treeIssues h
    rw [hcode] at htree
    revert htree
    decide
  · exact Limits.code_ne_of_mem_issues_anySize h hcode

/-- A size of all contents beyond its limit is an error. -/
theorem oversize_mem_errorKeys_iff :
    ("E400", none) ∈ e.errorKeys d ↔
      ∃ bound ∈ e.inspector.limits.documentSize, bound < d.byteSize := by
  rw [errorKeys, errors_eq_anySize, List.map_append, List.mem_append, Limits.documentSizeIssue,
    mem_keys_exceeded]
  constructor
  · rintro (h | ⟨bound, hbound, hlt, -⟩)
    · obtain ⟨i, hi, hkey⟩ := List.mem_map.mp h
      exact absurd hkey (key_ne_of_mem_errors_anySize hi)
    · exact ⟨bound, hbound, hlt⟩
  · rintro ⟨bound, hbound, hlt⟩
    exact .inr ⟨bound, hbound, hlt, rfl⟩

/-- Once the size of all contents is among the errors that are put up with, it is not looked at. -/
theorem step_anySize {known : List (String × Option BlockId)} (c : Command) :
    e.step resolver (known ++ [("E400", none)]) c = e.anySize.step resolver known c := by
  have hfilter (d : Document) :
      (e.errors d).filter (fun i => i.key ∉ known ++ [("E400", none)]) =
        (e.anySize.errors d).filter fun i => i.key ∉ known := by
    have hsize : ((e.inspector.limits.documentSizeIssue d.byteSize).toList).filter
        (fun i => i.key ∉ known ++ [("E400", none)]) = [] := by
      refine List.filter_eq_nil_iff.mpr fun i hi => ?_
      rw [Limits.key_of_mem_documentSizeIssue hi]
      simp
    rw [errors_eq_anySize, List.filter_append, hsize, List.append_nil]
    refine List.filter_congr fun i hi => ?_
    simp [key_ne_of_mem_errors_anySize hi]
  have happly (m : Mutation) :
      m.apply e.anySize.inspector.limits = m.apply e.inspector.limits := m.apply_anySize _
  simp only [step, hfilter, happly]

theorem runMembers_anySize {known : List (String × Option BlockId)} (members : List Statement)
    (d : Document) :
    e.runMembers resolver (known ++ [("E400", none)]) members d =
      e.anySize.runMembers resolver known members d := by
  induction members generalizing d with
  | nil => rfl
  | cons s rest ih => simp only [runMembers, step_anySize, ih]

/-- A batch on a document that is too large already runs as if contents could be of any size. -/
theorem runBatch_anySize {bound : Nat} (hbound : bound ∈ e.inspector.limits.documentSize)
    (hd : bound < d.byteSize) (b : Batch) :
    e.runBatch resolver b d = e.anySize.runBatch resolver b d := by
  have hknown : e.errorKeys d = e.anySize.errorKeys d ++ [("E400", none)] := by
    rw [errorKeys, errorKeys, errors_eq_anySize, List.map_append, Limits.documentSizeIssue,
      exceeded?_eq_some.mpr ⟨hbound, hd⟩]
    rfl
  show e.runMembers resolver (e.errorKeys d) b.members d = _
  rw [hknown, runMembers_anySize]
  rfl

/-! ## Programs -/

theorem runMembers_confines {known : List (String × Option BlockId)} {members : List Statement}
    {ids : List BlockId} (hd : d.IsForest)
    (h : e.runMembers resolver known members d = .ok (ids, d')) :
    e.inspector.limits.Confines d d' := by
  induction members generalizing d ids with
  | nil =>
    cases h
    exact .refl _
  | cons s rest ih =>
    obtain ⟨outcome, d₁, ids', hs, hrest, rfl⟩ := runMembers_cons_eq_ok.mp h
    obtain ⟨hattempt, -⟩ := step_eq_ok_iff.mp hs
    obtain ⟨m, -, hm⟩ := Edit.ofExcept_bind_eq_ok hattempt
    exact (Mutation.confines_apply hd hm).trans (ih (Mutation.isForest_apply hd hm) hrest)

theorem isForest_reached (hd : d.IsForest) (p : Program) (i : Nat) :
    (e.reached resolver p d i).IsForest := by
  obtain ⟨changes, hrun⟩ : ∃ changes, e.reached resolver p d i = Change.run d changes := by
    obtain ⟨changes, -, hrun⟩ := exists_runFrom_eq 0 (p.take i) {} d
    exact ⟨changes, hrun⟩
  rw [hrun]
  exact hd.run changes

/-- **Limits are not exceeded further, but for the size of all contents**: whatever of a clean
document is beyond its limits when a batch of a program begins, the number of blocks, the greatest
depth, the size of each content and the number of edges of each block are within their limits after
it, or no greater than before. The size of all contents stays within its limit if it is within it
before. If it is not, the batch runs as it would without that limit. -/
theorem runBatch_confines (e : Executor) (resolver : Resolver) (p : Program) (hd : d.Clean) {i : Nat}
    {b : Batch} (hi : p[i]? = some b) {ids : List BlockId}
    (h : e.runBatch resolver b (e.reached resolver p d i) = .ok (ids, d')) :
    let l := e.inspector.limits
    let before := e.reached resolver p d i
    e.reached resolver p d (i + 1) = d' ∧ l.Confines before d' ∧
      ((∀ bound ∈ l.documentSize, before.byteSize ≤ bound) →
        ∀ bound ∈ l.documentSize, d'.byteSize ≤ bound) ∧
      ∀ bound ∈ l.documentSize, bound < before.byteSize →
        e.runBatch resolver b before = e.anySize.runBatch resolver b before := by
  intro l before
  have hforest : before.IsForest := isForest_reached (Document.clean_iff.mp hd) p i
  refine ⟨?_, runMembers_confines hforest h, fun hbefore bound hbound => ?_, fun bound hbound hlt =>
    runBatch_anySize hbound hlt b⟩
  · rw [reached, run_take_succ e resolver hi, runOne_of_ok h]
  · by_contra hlt
    have herror : ("E400", none) ∈ e.errorKeys d' :=
      oversize_mem_errorKeys_iff.mpr ⟨bound, hbound, Nat.lt_of_not_le hlt⟩
    obtain ⟨bound', hbound', hlt'⟩ :=
      oversize_mem_errorKeys_iff.mp ((runBatch_eq_ok h).keys_subset herror)
    exact absurd (hbefore bound' hbound') (Nat.not_le_of_lt hlt')

/-- A root with a child of two bytes. -/
def pair : Document :=
  Change.run (.create ⟨.sequential, 1⟩) [.add (.ofSuffix 1) (.text "ab") none none none]

theorem clean_pair : pair.Clean := Document.clean_run_create _ _

theorem exists_of_toOption_map {α β ε : Type} {x : Except ε α} {f : α → β} {b : β}
    (h : x.toOption.map f = some b) : ∃ a, x = .ok a ∧ f a = b := by
  cases x with
  | error failure => cases h
  | ok a => exact ⟨a, rfl, Option.some.inj h⟩

/-- With a block too many a text may still grow, as long as the size of all contents stays within its
limit. -/
theorem runBatch_confines_pair :
    let e : Executor := { inspector := { limits := { blocks := some 1, documentSize := some 5 } } }
    let b : Batch := .single ⟨1, .edit (.long "blk_000000000002") "text" .set "abcd"⟩
    pair.Clean ∧ ∃ ids d', e.runBatch (fun _ => none) b (e.reached (fun _ => none) [b] pair 0) =
        .ok (ids, d') ∧
      e.inspector.limits.Confines (e.reached (fun _ => none) [b] pair 0) d' ∧ d'.byteSize ≤ 5 := by
  intro e b
  have hsize : ((e.runBatch (fun _ => none) b (e.reached (fun _ => none) [b] pair 0)).toOption.map
      fun r => r.2.byteSize) = some 4 := by decide +kernel
  obtain ⟨r, hr, -⟩ := exists_of_toOption_map hsize
  have hbefore : (e.reached (fun _ => none) [b] pair 0).byteSize ≤ 5 := by decide +kernel
  obtain ⟨-, hconfines, hwithin, -⟩ :=
    runBatch_confines e (fun _ => none) [b] clean_pair (i := 0) rfl hr
  refine ⟨clean_pair, r.1, r.2, hr, hconfines, hwithin (fun bound hbound => ?_) 5 rfl⟩
  obtain rfl : 5 = bound := Option.some.inj hbound
  exact hbefore

/-- Contents of two bytes where one is allowed become contents of four. -/
theorem runBatch_outgrows :
    let e : Executor := { inspector := { limits := { documentSize := some 1 } } }
    let b : Batch := .single ⟨1, .append (.long "blk_000000000001") none none "cd" {}⟩
    pair.Clean ∧ ∃ ids d', e.runBatch (fun _ => none) b (e.reached (fun _ => none) [b] pair 0) =
        .ok (ids, d') ∧
      ¬ Kept e.inspector.limits.documentSize (e.reached (fun _ => none) [b] pair 0).byteSize
        d'.byteSize := by
  intro e b
  have hsize : ((e.runBatch (fun _ => none) b (e.reached (fun _ => none) [b] pair 0)).toOption.map
      fun r => r.2.byteSize) = some 4 := by decide +kernel
  obtain ⟨r, hr, hafter⟩ := exists_of_toOption_map hsize
  have hbefore : (e.reached (fun _ => none) [b] pair 0).byteSize = 2 := by decide +kernel
  refine ⟨clean_pair, r.1, r.2, hr, ?_⟩
  rw [hbefore, hafter]
  rintro (hwithin | hless)
  · exact absurd (hwithin 1 rfl) (by decide)
  · exact absurd hless (by decide)

end Executor

end BlockDocument
