import BlockDocument.Execution.Executor
import BlockDocument.Proofs.Document.Success
import BlockDocument.Proofs.Inspection.Validity
import BlockDocument.Proofs.Mutation

/-!
# Programs bring no errors

A batch knows the errors of the document that it starts from, and every command of it is followed by
an inspection. So the errors after each command are among the known ones, even where an error goes
away and comes back within the batch. A batch that fails leaves the document as it was, and the
errors of a whole program are those of its first document at most.
-/

namespace BlockDocument

variable {α : Type}

theorem Edit.Runs.root_eq {e : Edit α} (he : e.Runs) {d d' : Document} {a : α}
    (h : e d = .ok a d') : d'.root = d.root := by
  obtain ⟨changes, hc⟩ := he d
  rw [after, h] at hc
  rw [show d' = Change.run d changes from hc, Document.root_run]

theorem requireNone_eq_ok {issues : List Issue} {u : Unit} (h : requireNone issues = .ok u) :
    issues = [] := by
  cases issues with
  | nil => rfl
  | cons i issues => cases h

/-! ## Absent blocks -/

theorem Document.contains_eq_false_of_mem_treeIssues {d : Document} {i : Issue} {id : BlockId}
    (h : i ∈ d.treeIssues) (hkey : i.key = ("E001", some id)) : d.contains id = false := by
  obtain ⟨hcode, hblock⟩ := Prod.mk.inj hkey
  cases reports_of_mem_treeIssues h with
  | rootMissing hid | parentMissing hid | childMissing hid =>
    obtain rfl := Option.some.inj hblock
    exact hid
  | _ => simp [Issue.error, Finding.code] at hcode

/-- No limit is about absence. -/
theorem Limits.code_ne_of_mem_issues {l : Limits} {d : Document} {i : Issue} (h : i ∈ l.issues d) :
    i.finding.code ≠ "E001" := by
  cases reports_of_mem_issues h <;> simp [Issue.error, Finding.code]

namespace Executor

variable (e : Executor)

/-- The errors of a document, as two inspections compare them. -/
def errorKeys (d : Document) : List (String × Option BlockId) := (e.errors d).map Issue.key

/-- A document that can stand in for another one: it has the same root and no error that the other
does not have. -/
structure NoWorse (d d' : Document) : Prop where
  root_eq : d'.root = d.root
  keys_subset : e.errorKeys d' ⊆ e.errorKeys d

variable {e}

theorem NoWorse.refl (d : Document) : e.NoWorse d d := ⟨rfl, List.Subset.refl _⟩

theorem NoWorse.trans {d d' d'' : Document} (h : e.NoWorse d d') (h' : e.NoWorse d' d'') :
    e.NoWorse d d'' :=
  ⟨h'.root_eq.trans h.root_eq, List.Subset.trans h'.keys_subset h.keys_subset⟩

variable {resolver : Resolver}

/-- A command that is accepted was carried out, and the errors after it are known ones. -/
theorem exists_apply_of_step {known : List (String × Option BlockId)} {c : Command}
    {d d' : Document} {outcome : Outcome} (h : e.step resolver known c d = .ok outcome d') :
    ∃ m, c.mutation resolver = .ok m ∧ m.apply e.inspector.limits d = .ok outcome d' ∧
      e.errorKeys d' ⊆ known := by
  obtain ⟨m, d₁, hm, h₁⟩ := Edit.bind_eq_ok h
  obtain ⟨outcome', d₂, happly, h₂⟩ := Edit.bind_eq_ok h₁
  obtain ⟨d₂', d₃, hget, h₃⟩ := Edit.bind_eq_ok h₂
  obtain ⟨u, d₄, hcheck, h₄⟩ := Edit.bind_eq_ok h₃
  obtain ⟨hlower, rfl⟩ := Edit.ofExcept_eq_ok hm
  obtain ⟨hnone, rfl⟩ := Edit.ofExcept_eq_ok hcheck
  cases hget
  cases h₄
  refine ⟨m, hlower, happly, fun k hk => ?_⟩
  obtain ⟨i, hi, rfl⟩ := List.mem_map.mp hk
  have hi' := List.filter_eq_nil_iff.mp (requireNone_eq_ok hnone) i hi
  simpa using hi'

/-- One command: the errors after it are known ones. -/
theorem step_eq_ok {known : List (String × Option BlockId)} {c : Command} {d d' : Document}
    {outcome : Outcome} (h : e.step resolver known c d = .ok outcome d') :
    d'.root = d.root ∧ e.errorKeys d' ⊆ known := by
  obtain ⟨m, -, happly, hknown⟩ := exists_apply_of_step h
  exact ⟨(m.runs_apply _).root_eq happly, hknown⟩

/-- The commands of a batch: the errors at the end are known ones if those at the start are. -/
theorem runMembers_eq_ok {known : List (String × Option BlockId)} {members : List Statement}
    {d d' : Document} {ids : List BlockId}
    (h : e.runMembers resolver known members d = .ok (ids, d'))
    (hd : e.errorKeys d ⊆ known) : d'.root = d.root ∧ e.errorKeys d' ⊆ known := by
  induction members generalizing d ids with
  | nil =>
    cases h
    exact ⟨rfl, hd⟩
  | cons s rest ih =>
    rw [runMembers] at h
    cases hs : e.step resolver known s.command d with
    | error failure d₁ => simp [hs] at h
    | ok outcome d₁ =>
      obtain ⟨hroot, hknown⟩ := step_eq_ok hs
      cases hr : e.runMembers resolver known rest d₁ with
      | error failure => simp [hs, hr] at h
      | ok result =>
        obtain ⟨ids', d₂⟩ := result
        simp only [hs, hr] at h
        cases h
        obtain ⟨hroot', hknown'⟩ := ih hr hknown
        exact ⟨hroot'.trans hroot, hknown'⟩

/-- A batch that takes effect. -/
theorem runBatch_eq_ok {b : Batch} {d d' : Document} {ids : List BlockId}
    (h : e.runBatch resolver b d = .ok (ids, d')) : e.NoWorse d d' := by
  obtain ⟨hroot, hkeys⟩ := runMembers_eq_ok h (List.Subset.refl _)
  exact ⟨hroot, hkeys⟩

/-- Batches that take effect and batches that do not. -/
theorem runFrom_noWorse (n : Nat) (p : Program) (x : Execution) (d : Document) :
    e.NoWorse d (e.runFrom resolver n p x d).2 := by
  induction p generalizing n x d with
  | nil => exact .refl d
  | cons b rest ih =>
    rw [runFrom]
    cases hb : e.runBatch resolver b d with
    | error failure => exact ih _ _ d
    | ok result =>
      obtain ⟨ids, d'⟩ := result
      exact (runBatch_eq_ok hb).trans (ih _ _ d')

/-- A program is carried out if it can be read and passes its checks. -/
theorem execute_eq_ok_iff {source : String} {d d' : Document} {x : Execution} :
    e.execute resolver source d = .ok x d' ↔
      ∃ p, Program.parse source = .ok p ∧ p.check e.maxCommands resolver = .ok () ∧
        e.run resolver p d = (x, d') := by
  constructor
  · intro h
    obtain ⟨p, hparse, h₁⟩ := Edit.ofExcept_bind_eq_ok h
    obtain ⟨u, hcheck, h₂⟩ := Edit.ofExcept_bind_eq_ok h₁
    refine ⟨p, hparse, ?_, ?_⟩
    · cases hp : p.check e.maxCommands resolver with
      | error fault =>
        rw [hp] at hcheck
        cases hcheck
      | ok u' => rfl
    · cases h₂
      rfl
  · rintro ⟨p, hparse, hcheck, hrun⟩
    have hread : (ofExcept (Program.parse source) : Edit Program) d = .ok p d := by
      rw [hparse]
      rfl
    have hpass : (ofExcept (Command.located source.toList (p.check e.maxCommands resolver)) :
        Edit Unit) d = .ok () d := by
      rw [hcheck]
      rfl
    refine (Edit.bind_of_ok hread _).trans ((Edit.bind_of_ok hpass _).trans ?_)
    show EStateM.Result.ok (e.run resolver p d).1 (e.run resolver p d).2 = _
    rw [hrun]

theorem execute_noWorse (source : String) (d : Document) :
    e.NoWorse d ((e.execute resolver source).after d) := by
  rw [execute, Edit.after_ofExcept_bind]
  cases Program.parse source with
  | error failure => exact .refl d
  | ok p =>
    dsimp only
    rw [Edit.after_ofExcept_bind]
    cases Command.located source.toList (p.check e.maxCommands resolver) with
    | error failure => exact .refl d
    | ok u => exact runFrom_noWorse 0 p {} d

/-- Only what is no block is reported as absent. -/
theorem contains_eq_false_of_absent {d : Document} {id : BlockId}
    (h : ("E001", some id) ∈ e.errorKeys d) : d.contains id = false := by
  obtain ⟨i, hi, hkey⟩ := List.mem_map.mp h
  rw [errors, Inspector.errors_inspect, List.mem_append] at hi
  rcases hi with hi | hi
  · exact Document.contains_eq_false_of_mem_treeIssues hi hkey
  · exact absurd (Prod.mk.inj hkey).1 (Limits.code_ne_of_mem_issues hi)

/-- A root that is no block is reported. -/
theorem mem_errorKeys_of_rootless {d : Document} (h : ¬ d.contains d.root = true) :
    ("E001", some d.root) ∈ e.errorKeys d := by
  have hi : Issue.error (.rootMissing d.root) (some d.root) ∈ d.treeIssues := by
    simp [Document.treeIssues, Document.rootIssues, h]
  refine List.mem_map.mpr ⟨Issue.error (.rootMissing d.root) (some d.root), ?_, rfl⟩
  rw [errors, Inspector.errors_inspect]
  exact List.mem_append_left _ hi

/-- A root that is a block stays one. -/
theorem NoWorse.contains_root {d d' : Document} (h : e.NoWorse d d')
    (hroot : d.contains d.root = true) : d'.contains d'.root = true := by
  by_contra hgone
  have hmem := h.keys_subset (mem_errorKeys_of_rootless hgone)
  rw [h.root_eq] at hmem
  rw [contains_eq_false_of_absent hmem] at hroot
  cases hroot

/-- **A program brings no errors**: whatever it does, the errors afterwards are among those before,
so there are none where there were none, and a root that is a block stays one. -/
theorem errors_execute (e : Executor) (resolver : Resolver) (source : String) (d : Document) :
    e.errorKeys ((e.execute resolver source).after d) ⊆ e.errorKeys d ∧
      (e.errors d = [] → e.errors ((e.execute resolver source).after d) = []) ∧
      (d.contains d.root = true → ((e.execute resolver source).after d).root = d.root ∧
        ((e.execute resolver source).after d).contains d.root = true) := by
  have h : e.NoWorse d ((e.execute resolver source).after d) := e.execute_noWorse source d
  refine ⟨h.keys_subset, fun hnone => ?_, fun hroot => ⟨h.root_eq, ?_⟩⟩
  · have hkeys : e.errorKeys ((e.execute resolver source).after d) = [] := by
      refine List.subset_nil.mp (List.Subset.trans h.keys_subset ?_)
      rw [errorKeys, hnone, List.map_nil]
      exact List.Subset.refl _
    exact List.map_eq_nil_iff.mp hkeys
  · have hkept := h.contains_root hroot
    rwa [h.root_eq] at hkept

/-- A root that lists a child that is no block, and a block that nothing lists. -/
def haunted : Document :=
  let root : Block := { id := ⟨"r"⟩, content := .text "", children := [⟨"ghost"⟩] }
  let stray : Block := { id := ⟨"stray"⟩, content := .text "" }
  .ofParts root.id (.ofList [(root.id, root), (stray.id, stray)])
    (.ofList [(root.id, root.children), (stray.id, [])]) { policy := .sequential }

/-- A command that takes effect, a group that does not, and one more command that does: the error of
the document is the only one afterwards. -/
theorem errors_execute_haunted :
    let e : Executor := {}
    let source :=
      "APPEND r :: a\nATOMIC \x7b\nAPPEND r :: b\nDELETE ghost\n\x7d\nPRUNE UNREACHABLE"
    e.errorKeys haunted = [("E001", some ⟨"ghost"⟩)] ∧
      ∃ x d', e.execute (fun _ => none) source haunted = .ok x d' ∧
        x.batchesApplied = 2 ∧ x.batchesFailed = 1 ∧
        e.errorKeys d' ⊆ [("E001", some ⟨"ghost"⟩)] ∧ d'.contains d'.root = true := by
  intro e source
  have hkeys : e.errorKeys haunted = [("E001", some ⟨"ghost"⟩)] := by decide +kernel
  have hcounts : ((e.execute (fun _ => none) source).answer? haunted).map
      (fun x => (x.batchesApplied, x.batchesFailed)) = some (2, 1) := by decide +kernel
  obtain ⟨x, hanswer, hx⟩ := Option.map_eq_some_iff.mp hcounts
  obtain ⟨d', hok⟩ := Edit.answer?_eq_some_iff.mp hanswer
  obtain ⟨happlied, hfailed⟩ := Prod.mk.inj hx
  have hafter : (e.execute (fun _ => none) source).after haunted = d' := by rw [Edit.after, hok]
  obtain ⟨hsubset, -, hroot⟩ := errors_execute e (fun _ => none) source haunted
  rw [hafter] at hsubset hroot
  obtain ⟨hsame, hmem⟩ := hroot (by decide +kernel)
  exact ⟨hkeys, x, d', hok, happlied, hfailed, hkeys ▸ hsubset, hsame ▸ hmem⟩

end Executor

end BlockDocument
