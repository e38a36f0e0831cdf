import BlockDocument.Proofs.Execution.Executor
import BlockDocument.Proofs.Execution.Rollback

/-!
# Groups and single commands

A group compares the errors after each of its commands with those of the document that it starts
from; a command on its own compares with those of the document just before it. Both carry a command
out in the same way (`attempt`), so they differ only in which errors they put up with.

Commands that take effect one by one bring no errors at any step, so the errors of the first document
bound those of all later ones, and the group takes effect as well. The other way round an error may
go away and come back within a group; on a document without errors there is none that could.
-/

namespace BlockDocument.Executor

variable (e : Executor) (resolver : Resolver)

/-- Carries out one command, whatever errors it brings. -/
def attempt (c : Command) : Edit Outcome := do
  let m ← ofExcept (c.mutation resolver)
  m.apply e.inspector.limits

variable {e resolver}

/-- After a command that can be carried out its errors are looked at. -/
theorem step_of_attempt {c : Command} {d d' : Document} {outcome : Outcome}
    (h : e.attempt resolver c d = .ok outcome d') (known : List (String × Option BlockId)) :
    e.step resolver known c d =
      (ofExcept (requireNone ((e.errors d').filter fun i => i.key ∉ known)) >>=
        fun _ => pure outcome : Edit Outcome) d' := by
  obtain ⟨m, d₁, hm, happly⟩ := Edit.bind_eq_ok h
  obtain ⟨-, rfl⟩ := Edit.ofExcept_eq_ok hm
  have hget : (get : Edit Document) d' = .ok d' d' := rfl
  exact (Edit.bind_of_ok hm _).trans <| (Edit.bind_of_ok happly _).trans <| Edit.bind_of_ok hget _

/-- A command is accepted if it can be carried out and all errors afterwards are known ones. -/
theorem step_eq_ok_iff {known : List (String × Option BlockId)} {c : Command} {d d' : Document}
    {outcome : Outcome} :
    e.step resolver known c d = .ok outcome d' ↔
      e.attempt resolver c d = .ok outcome d' ∧ e.errorKeys d' ⊆ known := by
  constructor
  · intro h
    obtain ⟨m, hlower, happly, hknown⟩ := exists_apply_of_step h
    refine ⟨?_, hknown⟩
    rw [attempt, hlower]
    exact happly
  · rintro ⟨h, hknown⟩
    have hnone : (e.errors d').filter (fun i => i.key ∉ known) = [] := by
      refine List.filter_eq_nil_iff.mpr fun i hi => ?_
      simpa using hknown (List.mem_map_of_mem hi)
    rw [step_of_attempt h, hnone]
    rfl

/-- A command that can be carried out is refused for the errors that it brings. -/
theorem step_eq_error {known : List (String × Option BlockId)} {c : Command} {d d' d₁ : Document}
    {outcome : Outcome} {failure : Failure} (h : e.attempt resolver c d = .ok outcome d')
    (hstep : e.step resolver known c d = .error failure d₁) :
    failure = .invalid ((e.errors d').filter fun i => i.key ∉ known) := by
  rw [step_of_attempt h] at hstep
  cases hnew : (e.errors d').filter fun i => i.key ∉ known with
  | nil =>
    rw [hnew] at hstep
    cases hstep
  | cons i issues =>
    rw [hnew] at hstep
    cases hstep
    rfl

/-- A single command as a batch. -/
theorem runBatch_single_eq_ok_iff {s : Statement} {d d' : Document} {ids : List BlockId} :
    e.runBatch resolver (.single s) d = .ok (ids, d') ↔
      ∃ outcome, e.step resolver (e.errorKeys d) s.command d = .ok outcome d' ∧
        ids = (created? outcome).toList := by
  show e.runMembers resolver (e.errorKeys d) [s] d = _ ↔ _
  rw [runMembers]
  cases e.step resolver (e.errorKeys d) s.command d with
  | error failure d₁ => simp
  | ok outcome d₁ =>
    simp only [runMembers, List.append_nil, Except.ok.injEq, Prod.mk.injEq,
      EStateM.Result.ok.injEq]
    constructor
    · rintro ⟨rfl, rfl⟩
      exact ⟨outcome, ⟨rfl, rfl⟩, rfl⟩
    · rintro ⟨outcome', ⟨rfl, rfl⟩, rfl⟩
      exact ⟨rfl, rfl⟩

theorem runBatch_single_eq_error {s : Statement} {d : Document} {line : Nat} {failure : Failure}
    (h : e.runBatch resolver (.single s) d = .error (line, failure)) :
    line = s.line ∧ ∃ d', e.step resolver (e.errorKeys d) s.command d = .error failure d' := by
  change e.runMembers resolver (e.errorKeys d) [s] d = _ at h
  rw [runMembers] at h
  cases hstep : e.step resolver (e.errorKeys d) s.command d with
  | error failure' d' =>
    rw [hstep] at h
    cases h
    exact ⟨rfl, d', rfl⟩
  | ok outcome d' => simp [hstep, runMembers] at h

/-- The first of several commands in a group. -/
theorem runMembers_cons_eq_ok {known : List (String × Option BlockId)} {s : Statement}
    {rest : List Statement} {d d' : Document} {ids : List BlockId} :
    e.runMembers resolver known (s :: rest) d = .ok (ids, d') ↔
      ∃ outcome d₁ ids', e.step resolver known s.command d = .ok outcome d₁ ∧
        e.runMembers resolver known rest d₁ = .ok (ids', d') ∧
        ids = (created? outcome).toList ++ ids' := by
  constructor
  · intro h
    rw [runMembers] at h
    cases hs : e.step resolver known s.command d with
    | error failure d₁ => simp [hs] at h
    | ok outcome d₁ =>
      cases hr : e.runMembers resolver known rest d₁ with
      | error failure => simp [hs, hr] at h
      | ok result =>
        simp only [hs, hr] at h
        cases h
        exact ⟨outcome, d₁, result.1, rfl, hr, rfl⟩
  · rintro ⟨outcome, d₁, ids', hs, hr, rfl⟩
    simp only [runMembers, hs, hr]

/-! ## Reports of runs without errors -/

/-- The report on commands that take effect one by one. -/
def singly (members : List Statement) (ids : List BlockId) : Execution :=
  { commandsApplied := members.length, batchesApplied := members.length, created := ids }

theorem runFrom_single_of_ok {n : Nat} {s : Statement} {rest : List Statement} {d d₁ d' : Document}
    {ids ids' : List BlockId} (hs : e.runBatch resolver (.single s) d = .ok (ids, d₁))
    (hrest : e.runFrom resolver (n + 1) (rest.map .single) {} d₁ = (singly rest ids', d')) :
    e.runFrom resolver n ((s :: rest).map .single) {} d =
      (singly (s :: rest) (ids ++ ids'), d') := by
  rw [List.map_cons, runFrom_cons_empty, runOne_of_ok hs, hrest]
  simp [Execution.append, singly, Batch.size, Batch.members, Nat.add_comm]

/-- Commands that take effect one by one take effect together, on the errors that they started with
or more. -/
theorem runMembers_of_singly {known : List (String × Option BlockId)} {members : List Statement}
    {n : Nat} {d : Document} (hd : e.errorKeys d ⊆ known)
    (h : (e.runFrom resolver n (members.map .single) {} d).1.errors = []) :
    ∃ ids d', e.runFrom resolver n (members.map .single) {} d = (singly members ids, d') ∧
      e.runMembers resolver known members d = .ok (ids, d') := by
  induction members generalizing n d with
  | nil => exact ⟨[], d, rfl, rfl⟩
  | cons s rest ih =>
    rw [List.map_cons, runFrom_cons_empty, Execution.append, List.append_eq_nil_iff] at h
    obtain ⟨hone, hlater⟩ := h
    cases hs : e.runBatch resolver (.single s) d with
    | error fault =>
      obtain ⟨line, failure⟩ := fault
      rw [runOne_of_error hs] at hone
      cases hone
    | ok result =>
      obtain ⟨ids, d₁⟩ := result
      rw [runOne_of_ok hs] at hlater
      obtain ⟨outcome, hstep, rfl⟩ := runBatch_single_eq_ok_iff.mp hs
      obtain ⟨hattempt, hkeys⟩ := step_eq_ok_iff.mp hstep
      have hd₁ : e.errorKeys d₁ ⊆ known := List.Subset.trans hkeys hd
      obtain ⟨ids', d', hrun, hmembers⟩ := ih hd₁ hlater
      exact ⟨_, d', runFrom_single_of_ok hs hrun, runMembers_cons_eq_ok.mpr
        ⟨outcome, d₁, ids', step_eq_ok_iff.mpr ⟨hattempt, hd₁⟩, hmembers, rfl⟩⟩

/-- A group that takes effect on a document without errors has no errors at any step, so its commands
take effect one by one. -/
theorem singly_of_runMembers {members : List Statement} {n : Nat} {d d' : Document}
    {ids : List BlockId} (hd : e.errorKeys d = [])
    (h : e.runMembers resolver [] members d = .ok (ids, d')) :
    e.runFrom resolver n (members.map .single) {} d = (singly members ids, d') := by
  induction members generalizing n d ids with
  | nil =>
    cases h
    rfl
  | cons s rest ih =>
    obtain ⟨outcome, d₁, ids', hs, hrest, rfl⟩ := runMembers_cons_eq_ok.mp h
    have hd₁ : e.errorKeys d₁ = [] := List.subset_nil.mp (step_eq_ok hs).2
    have hbatch : e.runBatch resolver (.single s) d = .ok ((created? outcome).toList, d₁) :=
      runBatch_single_eq_ok_iff.mpr ⟨outcome, by rwa [hd], rfl⟩
    exact runFrom_single_of_ok hbatch (ih hd₁ hrest)

theorem run_atomic_of_ok {line : Nat} {members : List Statement} {d d' : Document}
    {ids : List BlockId} (h : e.runMembers resolver (e.errorKeys d) members d = .ok (ids, d')) :
    e.run resolver [.atomic line members] d =
      ({ singly members ids with batchesApplied := 1 }, d') := by
  have hbatch : e.runBatch resolver (.atomic line members) d = .ok (ids, d') := h
  rw [run, runFrom_singleton, runOne_of_ok hbatch]
  rfl

theorem runMembers_of_success {line : Nat} {members : List Statement} {d : Document}
    (h : (e.run resolver [.atomic line members] d).1.success = true) :
    ∃ ids d', e.runMembers resolver (e.errorKeys d) members d = .ok (ids, d') := by
  rw [run, runFrom_singleton] at h
  cases hbatch : e.runBatch resolver (.atomic line members) d with
  | error fault =>
    obtain ⟨line', failure⟩ := fault
    rw [runOne_of_error hbatch] at h
    cases h
  | ok result => exact ⟨result.1, result.2, hbatch⟩

end Executor

/-! ## Checks -/

namespace Program

/-- Commands count the same one by one and together. -/
theorem overrun?_single {bound n : Nat} {members : List Statement} :
    overrun? bound n (members.map .single) = none ↔ members = [] ∨ n + members.length ≤ bound := by
  induction members generalizing n with
  | nil => simp [overrun?]
  | cons s rest ih =>
    rw [List.map_cons, overrun?]
    have hsize : (Batch.single s).size = 1 := rfl
    rw [hsize, List.length_cons]
    by_cases hover : bound < n + 1
    · rw [if_pos hover]
      simp only [reduceCtorEq, false_or, false_iff]
      omega
    · rw [if_neg hover, ih]
      simp only [reduceCtorEq, false_or]
      constructor
      · rintro (rfl | h)
        · simp only [List.length_nil]
          omega
        · omega
      · intro h
        exact .inr (by omega)

/-- A group passes the checks exactly if its commands pass them one by one. -/
theorem check_atomic_iff {bound line : Nat} {resolver : Resolver} {members : List Statement} :
    check bound resolver [.atomic line members] = .ok () ↔
      check bound resolver (members.map .single) = .ok () := by
  have hcount : overrun? bound 0 [.atomic line members] = none ↔
      overrun? bound 0 (members.map .single) = none := by
    rw [overrun?_single, overrun?, overrun?]
    have hsize : (Batch.atomic line members).size = members.length := rfl
    rw [hsize]
    split
    · rename_i hover
      simp only [reduceCtorEq, false_iff, not_or]
      refine ⟨?_, by omega⟩
      rintro rfl
      simp at hover
    · simp only [true_iff]
      exact .inr (by omega)
  have hshort : unknownShort? resolver [.atomic line members] = none ↔
      unknownShort? resolver (members.map .single) = none := by
    simp [unknownShort?_eq_none, Batch.members]
  rw [check_eq_ok, check_eq_ok, hcount, hshort]

end Program

namespace Executor

/-- **Groups agree with single commands**: both pass the checks in the same cases. Commands that take
effect one by one take effect as a group, with the same document and, the number of batches apart, the
same report. On a document without errors it is the other way round as well. -/
theorem run_atomic_agrees (e : Executor) (resolver : Resolver) (line : Nat)
    (members : List Statement) (d : Document) :
    let single := e.run resolver (members.map .single) d
    let group := e.run resolver [.atomic line members] d
    (Program.check e.maxCommands resolver [.atomic line members] = .ok () ↔
      Program.check e.maxCommands resolver (members.map .single) = .ok ()) ∧
    (single.1.success = true → group.1.success = true ∧
      group = ({ single.1 with batchesApplied := 1 }, single.2)) ∧
    (e.errors d = [] → group.1.success = true → single.1.success = true ∧
      single = ({ group.1 with batchesApplied := members.length }, group.2)) := by
  intro single group
  refine ⟨Program.check_atomic_iff, fun hsingle => ?_, fun hd hgroup => ?_⟩
  · have hnone : single.1.errors = [] := (e.accounts_run resolver _ d).success.mp hsingle
    obtain ⟨ids, d', hrun, hmembers⟩ :=
      runMembers_of_singly (List.Subset.refl (e.errorKeys d)) hnone
    have hsingle : single = (singly members ids, d') := hrun
    have hgroup : group = ({ singly members ids with batchesApplied := 1 }, d') :=
      run_atomic_of_ok hmembers
    rw [hgroup, hsingle]
    exact ⟨rfl, rfl⟩
  · obtain ⟨ids, d', hmembers⟩ := runMembers_of_success hgroup
    have hgroup : group = ({ singly members ids with batchesApplied := 1 }, d') :=
      run_atomic_of_ok hmembers
    have hkeys : e.errorKeys d = [] := by rw [errorKeys, hd, List.map_nil]
    rw [hkeys] at hmembers
    have hsingle : single = (singly members ids, d') := singly_of_runMembers hkeys hmembers
    rw [hgroup, hsingle]
    exact ⟨rfl, rfl⟩

/-- Commands that add a block, put a second one below it and then delete the first. -/
def splicing : List Statement :=
  [⟨1, .append (.long "blk_000000000001") none none "first" {}⟩,
    ⟨2, .append (.long "blk_000000000002") none none "second" {}⟩,
    ⟨3, .delete (.long "blk_000000000002") .kept⟩]

/-- The commands take effect one by one, hence as a group, and from there one by one again. -/
theorem run_atomic_splicing :
    let e : Executor := {}
    let d := Document.create ⟨.sequential, 1⟩
    let single := e.run (fun _ => none) (splicing.map .single) d
    let group := e.run (fun _ => none) [.atomic 0 splicing] d
    e.errors d = [] ∧ single.1.success = true ∧
      group = ({ single.1 with batchesApplied := 1 }, single.2) ∧
      single = ({ group.1 with batchesApplied := splicing.length }, group.2) := by
  intro e d
  have hd : e.errors d = [] := (Document.clean_iff.mpr (Document.isTree_create _).toIsForest).2
  have hsingle : (e.run (fun _ => none) (splicing.map .single) d).1.success = true := by
    decide +kernel
  obtain ⟨-, hgroup, hback⟩ := run_atomic_agrees e (fun _ => none) 0 splicing d
  obtain ⟨hsuccess, hagree⟩ := hgroup hsingle
  exact ⟨hd, hsingle, hagree, (hback hd hsuccess).2⟩

end Executor

end BlockDocument
