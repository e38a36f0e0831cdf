import BlockDocument.Proofs.Execution.Grouping
import BlockDocument.Proofs.Limits

/-!
# Limits only refuse

An executor looks at its limits in two ways: a mutation checks them before it changes anything, and
the errors of an inspection after a command are compared with those before the batch. Neither way can
an accepted command do anything else than it would without limits. Looser limits carry out what tight
ones carry out (`Mutation.apply_of_le`). And the errors of limits have codes of their own, so they
neither excuse an error of the tree nor are excused by one: the errors without limits are those of
the tree, picked out by their codes (`Executor.errorKeys_unlimited`).
-/

namespace BlockDocument

/-- The codes of what breaks the rules of a tree. -/
def Finding.treeCodes : List String := ["E001", "E201", "E202", "E204"]

/-- The keys of what breaks the rules of a tree. -/
def treeKeys (keys : List (String × Option BlockId)) : List (String × Option BlockId) :=
  keys.filter fun k => k.1 ∈ Finding.treeCodes

theorem Document.code_mem_of_mem_treeIssues {d : Document} {i : Issue} (h : i ∈ d.treeIssues) :
    i.finding.code ∈ Finding.treeCodes := by
  cases reports_of_mem_treeIssues h <;> simp [Issue.error, Finding.code, Finding.treeCodes]

theorem Limits.code_not_mem_of_mem_issues {l : Limits} {d : Document} {i : Issue}
    (h : i ∈ l.issues d) : i.finding.code ∉ Finding.treeCodes := by
  cases reports_of_mem_issues h <;> simp [Issue.error, Finding.code, Finding.treeCodes]

namespace Executor

/-- The executor without its limits. -/
def unlimited (e : Executor) : Executor :=
  { e with inspector := { e.inspector with limits := {} } }

variable {e : Executor} {resolver : Resolver}

/-- Without limits the errors of the tree are left, and those are told by their codes. -/
theorem errorKeys_unlimited (e : Executor) (d : Document) :
    e.unlimited.errorKeys d = treeKeys (e.errorKeys d) := by
  have htree : treeKeys (d.treeIssues.map Issue.key) = d.treeIssues.map Issue.key := by
    refine List.filter_eq_self.mpr fun k hk => ?_
    obtain ⟨i, hi, rfl⟩ := List.mem_map.mp hk
    exact decide_eq_true (Document.code_mem_of_mem_treeIssues hi)
  have hlimits : treeKeys ((e.inspector.limits.issues d).map Issue.key) = [] := by
    refine List.filter_eq_nil_iff.mpr fun k hk => ?_
    obtain ⟨i, hi, rfl⟩ := List.mem_map.mp hk
    exact fun hcode => Limits.code_not_mem_of_mem_issues hi (of_decide_eq_true hcode)
  rw [errorKeys, errorKeys, errors, errors, Inspector.errors_inspect, Inspector.errors_inspect,
    unlimited, Document.issues_no_limits, List.append_nil, List.map_append, treeKeys,
    List.filter_append]
  change _ = treeKeys _ ++ treeKeys _
  rw [htree, hlimits, List.append_nil]

/-- A command that is accepted is accepted without limits. -/
theorem step_unlimited {known : List (String × Option BlockId)} {c : Command} {d d' : Document}
    {outcome : Outcome} (h : e.step resolver known c d = .ok outcome d') :
    e.unlimited.step resolver (treeKeys known) c d = .ok outcome d' := by
  obtain ⟨hattempt, hkeys⟩ := step_eq_ok_iff.mp h
  refine step_eq_ok_iff.mpr ⟨?_, ?_⟩
  · obtain ⟨m, d₁, hm, happly⟩ := Edit.bind_eq_ok hattempt
    exact (Edit.bind_of_ok hm _).trans (Mutation.apply_of_le (.empty _) happly)
  · rw [errorKeys_unlimited]
    intro k hk
    obtain ⟨hk, hcode⟩ := List.mem_filter.mp hk
    exact List.mem_filter.mpr ⟨hkeys hk, hcode⟩

theorem runMembers_unlimited {known : List (String × Option BlockId)} {members : List Statement}
    {d d' : Document} {ids : List BlockId}
    (h : e.runMembers resolver known members d = .ok (ids, d')) :
    e.unlimited.runMembers resolver (treeKeys known) members d = .ok (ids, d') := by
  induction members generalizing d ids with
  | nil => exact h
  | cons s rest ih =>
    obtain ⟨outcome, d₁, ids', hs, hrest, rfl⟩ := runMembers_cons_eq_ok.mp h
    exact runMembers_cons_eq_ok.mpr ⟨outcome, d₁, ids', step_unlimited hs, ih hrest, rfl⟩

theorem runBatch_unlimited {b : Batch} {d d' : Document} {ids : List BlockId}
    (h : e.runBatch resolver b d = .ok (ids, d')) :
    e.unlimited.runBatch resolver b d = .ok (ids, d') := by
  have h := runMembers_unlimited h
  rwa [← errorKeys, ← errorKeys_unlimited] at h

/-- A run in which every batch takes effect is the run without limits. -/
theorem runFrom_unlimited {n : Nat} {p : Program} {d : Document}
    (h : (e.runFrom resolver n p {} d).1.errors = []) :
    e.unlimited.runFrom resolver n p {} d = e.runFrom resolver n p {} d := by
  induction p generalizing n d with
  | nil => rfl
  | cons b rest ih =>
    rw [runFrom_cons_empty, Execution.append, List.append_eq_nil_iff] at h
    obtain ⟨hone, hlater⟩ := h
    cases hb : e.runBatch resolver b d with
    | error fault =>
      obtain ⟨line, failure⟩ := fault
      rw [runOne_of_error hb] at hone
      cases hone
    | ok result =>
      obtain ⟨ids, d'⟩ := result
      rw [runOne_of_ok hb] at hlater
      rw [runFrom_cons_empty, runFrom_cons_empty, runOne_of_ok hb,
        runOne_of_ok (runBatch_unlimited hb), ih hlater]

/-- **Limits only refuse**: a program every batch of which takes effect under limits does the same
without them. The report is the same, with the blocks that were created and the counts of batches and
commands, and so is the document. -/
theorem execute_unlimited (e : Executor) (resolver : Resolver) (source : String) {d d' : Document}
    {x : Execution} (h : e.execute resolver source d = .ok x d') (hx : x.success = true) :
    e.unlimited.execute resolver source d = .ok x d' := by
  obtain ⟨p, hparse, hcheck, hrun⟩ := execute_eq_ok_iff.mp h
  have hnone : (e.run resolver p d).1.errors = [] := by
    refine (e.accounts_run resolver p d).success.mp ?_
    rw [hrun]
    exact hx
  exact execute_eq_ok_iff.mpr ⟨p, hparse, hcheck, (runFrom_unlimited hnone).trans hrun⟩

/-- An executor whose limits leave room for two blocks below the root and for one edge of each. -/
def narrow : Executor :=
  { inspector := { limits :=
    { blocks := some 3
      depth := some 2
      blockSize := some 2
      documentSize := some 3
      edges := some 1 } } }

/-- Short numbers for the first blocks of a new document. -/
def firstBlocks (n : Nat) : Option BlockId := if n ≤ 3 then some (.ofSuffix n) else none

/-- A program of three batches, one of them a group, that fills a document to all of its limits takes
effect without them in the same way. -/
theorem execute_unlimited_filled :
    let d := Document.create ⟨.sequential, 1⟩
    let source :=
      "APPEND 1 :: a\nATOMIC \x7b\nAPPEND 2 :: b\nLINK 3 references 1\n\x7d\nEDIT 2 SET text = \"ab\""
    ∃ x d', narrow.execute firstBlocks source d = .ok x d' ∧
      x.success = true ∧ x.batchesApplied = 3 ∧ x.commandsApplied = 4 ∧
      narrow.unlimited.execute firstBlocks source d = .ok x d' := by
  intro d source
  have hreport : ((narrow.execute firstBlocks source).answer? d).map
      (fun x => (x.success, x.batchesApplied, x.commandsApplied)) = some (true, 3, 4) := by
    decide +kernel
  obtain ⟨x, hanswer, hx⟩ := Option.map_eq_some_iff.mp hreport
  obtain ⟨d', hok⟩ := Edit.answer?_eq_some_iff.mp hanswer
  obtain ⟨hsuccess, hcounts⟩ := Prod.mk.inj hx
  obtain ⟨hbatches, hcommands⟩ := Prod.mk.inj hcounts
  exact ⟨x, d', hok, hsuccess, hbatches, hcommands,
    execute_unlimited narrow firstBlocks source hok hsuccess⟩

end Executor

end BlockDocument
