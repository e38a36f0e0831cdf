import BlockDocument.Proofs.Applied
import BlockDocument.Proofs.Document.Issued
import BlockDocument.Proofs.Execution.Grouping
import BlockDocument.Proofs.Refusal

/-!
# Counted ids are never issued twice

Whatever operations a document with counted ids goes through, each of them is a step that issues ids
(`Operation.issued_after`): what is added takes the next number, a program hands on the document that
its last batch reached, and what fails leaves the counter where it was. So a run is such a step as
well, and the numbers of all blocks that the document ever had stay behind the counter
(`Operation.issued_fresh`).
-/

namespace BlockDocument

open Document

variable {d d' : Document}

/-! ## Edits -/

/-- An edit that fails issues nothing and leaves the document as it was. -/
theorem Edit.issued_after {α : Type} {e : Edit α} (hfirst : e.ChecksFirst d) (h : d.Counts)
    {ids : α → List BlockId} (hok : ∀ a d', e d = .ok a d' → d.Issued d' (ids a)) :
    d.Issued (e.after d) ((e.answer? d).elim [] ids) := by
  rw [after, answer?]
  cases he : e d with
  | error failure d' =>
    rw [show d' = d from hfirst failure d' he]
    exact .refl h
  | ok a d' => exact hok a d' he

/-- The ids that a change issues. -/
def Change.issued (d : Document) : Change → List BlockId
  | add parent content role label position =>
    ((Edit.add parent content role label position).answer? d).elim [] fun id => [id]
  | _ => []

theorem Change.issued_after (h : d.Counts) (c : Change) : d.Issued (c.after d) (c.issued d) := by
  cases c with
  | add parent content role label position =>
    exact Edit.issued_after (Edit.checksFirst_add h.ahead parent content role label position) h
      fun id d' he => h.issued_add he
  | _ => exact .of_shrinks h (shrinks_after d rfl)

/-! ## Mutations -/

namespace Mutation

/-- Only the addition of a block brings in a new one or draws on the source of ids. -/
theorem shrinks_apply (limits : Limits) {m : Mutation}
    (hm : ∀ parent position draft, m ≠ .add parent position draft) (d : Document) :
    d.Shrinks ((m.apply limits).after d) := by
  obtain ⟨changes, hall, hrun⟩ := runsBy_apply (Q := fun c => c.adds = false) (fun _ _ hc => hc)
    limits (fun parent position draft h => absurd h (hm parent position draft)) d
  rw [hrun]
  exact shrinks_run hall d

theorem issued_addDraft (h : d.Counts) {parent id : BlockId} {position : Option Nat} {draft : Draft}
    (he : Edit.addDraft parent position draft d = .ok id d') : d.Issued d' [id] := by
  obtain ⟨d₁, f, hadd, rfl⟩ := Edit.addDraft_eq_ok he
  have hissued := h.issued_add hadd
  exact hissued.trans (.of_shrinks hissued.counts
    ⟨rfl, fun x hx => by rwa [contains_withBlock] at hx⟩)

/-- A mutation issues the id that it reports as created, and no other one. -/
theorem issued_apply (h : d.Counts) {limits : Limits} {m : Mutation} {outcome : Outcome}
    (hm : m.apply limits d = .ok outcome d') :
    d.Issued d' (Executor.created? outcome).toList := by
  have unissued (hne : ∀ parent position draft, m ≠ .add parent position draft) : d.Issued d' [] := by
    have hshrinks := shrinks_apply limits hne d
    rw [Edit.after, hm] at hshrinks
    exact .of_shrinks h hshrinks
  have hchange (changed : Bool) : Executor.created? (.ofChange changed) = none := by
    cases changed <;> rfl
  cases apply_eq_ok_iff.mp hm with
  | add _ hadd => exact issued_addDraft h hadd
  | addEdge | removeEdge | addTag | removeTag =>
    rw [hchange]
    exact unissued (by rintro _ _ _ ⟨⟩)
  | _ => exact unissued (by rintro _ _ _ ⟨⟩)

end Mutation

/-! ## Programs -/

namespace Executor

variable {e : Executor} {resolver : Resolver}

theorem issued_runMembers (h : d.Counts) {known : List (String × Option BlockId)}
    {members : List Statement} {ids : List BlockId}
    (hm : e.runMembers resolver known members d = .ok (ids, d')) : d.Issued d' ids := by
  induction members generalizing d ids with
  | nil =>
    cases hm
    exact .refl h
  | cons s rest ih =>
    obtain ⟨outcome, d₁, ids', hs, hrest, rfl⟩ := runMembers_cons_eq_ok.mp hm
    obtain ⟨m, -, happly⟩ := Edit.ofExcept_bind_eq_ok (step_eq_ok_iff.mp hs).1
    have hissued := Mutation.issued_apply h happly
    exact hissued.trans (ih hissued.counts hrest)

/-- A batch that fails hands on the document that it was given. -/
theorem issued_runFrom (h : d.Counts) (n : Nat) (p : Program) :
    d.Issued (e.runFrom resolver n p {} d).2 (e.runFrom resolver n p {} d).1.created := by
  induction p generalizing n d with
  | nil => exact .refl h
  | cons b rest ih =>
    rw [runFrom_cons_empty]
    cases hb : e.runBatch resolver b d with
    | error fault =>
      obtain ⟨line, failure⟩ := fault
      rw [runOne_of_error hb]
      exact ih h (n + 1)
    | ok result =>
      obtain ⟨ids, d₁⟩ := result
      have hissued : d.Issued d₁ ids := issued_runMembers h hb
      rw [runOne_of_ok hb]
      exact hissued.trans (ih hissued.counts (n + 1))

theorem checksFirst_execute (e : Executor) (resolver : Resolver) (source : String) (d : Document) :
    (e.execute resolver source).ChecksFirst d :=
  Edit.checksFirst_ofExcept_bind fun _ _ => Edit.checksFirst_ofExcept_bind fun _ _ =>
    Edit.Succeeds.checksFirst ⟨_, _, rfl⟩

theorem issued_execute (h : d.Counts) {source : String} {x : Execution}
    (hx : e.execute resolver source d = .ok x d') : d.Issued d' x.created := by
  obtain ⟨p, -, -, hrun⟩ := execute_eq_ok_iff.mp hx
  have hissued : d.Issued (e.run resolver p d).2 (e.run resolver p d).1.created :=
    issued_runFrom h 0 p
  rwa [hrun] at hissued

end Executor

/-! ## Operations -/

namespace Operation

/-- The ids that an operation issues: those of the blocks that it reports as added. -/
def issued (d : Document) : Operation → List BlockId
  | edit c => c.issued d
  | mutate limits m => ((m.apply limits).answer? d).elim [] fun o => (Executor.created? o).toList
  | execute e resolver source => ((e.execute resolver source).answer? d).elim [] Execution.created

/-- **An operation takes new blocks from the supply**, whether it succeeds or fails. -/
theorem issued_after (h : d.Counts) (o : Operation) : d.Issued (o.after d) (o.issued d) := by
  cases o with
  | edit c => exact c.issued_after h
  | mutate limits m =>
    exact Edit.issued_after (m.checksFirst_apply h.ahead limits) h fun outcome d' hm =>
      Mutation.issued_apply h hm
  | execute e resolver source =>
    exact Edit.issued_after (e.checksFirst_execute resolver source d) h fun x d' hx =>
      Executor.issued_execute h hx

/-- The ids that a run of operations issues, in order. -/
def issuedBy (d : Document) : List Operation → List BlockId
  | [] => []
  | o :: ops => o.issued d ++ issuedBy (o.after d) ops

theorem issued_run (h : d.Counts) (ops : List Operation) : d.Issued (run d ops) (issuedBy d ops) := by
  induction ops generalizing d with
  | nil => exact .refl h
  | cons o ops ih =>
    have hissued := o.issued_after h
    exact hissued.trans (ih hissued.counts)

theorem run_append (d : Document) (ops ops' : List Operation) :
    run d (ops ++ ops') = run (run d ops) ops' := List.foldl_append

/-- The ids that were in use in a run: those of all blocks that the document had, or got, on the
way. -/
def Used (d : Document) (ops : List Operation) (id : BlockId) : Prop :=
  (∃ p, p <+: ops ∧ (run d p).contains id = true) ∨ id ∈ issuedBy d ops

/-- The numbers of all ids that were in use stay behind the counter. -/
theorem lt_next_of_used (h : d.Counts) {ops : List Operation} {id : BlockId} (hid : Used d ops id)
    {n : Nat} (hn : id.suffix? = some n) : n < (run d ops).allocator.next := by
  rcases hid with ⟨p, ⟨q, rfl⟩, hid⟩ | hid
  · have hcounts := (issued_run h p).counts
    have hle := (issued_run hcounts q).next_le
    rw [← run_append] at hle
    exact Nat.lt_of_lt_of_le (hcounts.lt_next hid hn) hle
  · obtain ⟨m, hm, -, hlt⟩ := (issued_run h ops).exists_of_mem hid
    rw [hn] at hm
    rwa [Option.some.inj hm]

/-- What is asked of an operation after a run. -/
structure Fresh (d : Document) (ops : List Operation) (o : Operation) : Prop where
  /-- Every id that it issues has a number, beyond those of all ids that were in use. -/
  beyond : ∀ id ∈ o.issued (run d ops), id.isWellFormed = true ∧
    ∃ n, id.suffix? = some n ∧ ∀ id', Used d ops id' → ∀ m, id'.suffix? = some m → m < n
  /-- The ids that it issues itself are in order. -/
  increasing : ((o.issued (run d ops)).filterMap BlockId.suffix?).Pairwise (· < ·)
  /-- Every new block has an id that it issues. -/
  mem_of_new : ∀ id, (o.after (run d ops)).contains id = true →
    (run d ops).contains id = true ∨ id ∈ o.issued (run d ops)
  /-- An id whose block is gone comes to name no other one. -/
  gone : ∀ id, Used d ops id → (run d ops).contains id = false →
    (o.after (run d ops)).contains id = false

theorem fresh (h : d.Counts) (ops : List Operation) (o : Operation) : Fresh d ops o := by
  have hissued := o.issued_after (issued_run h ops).counts
  have beyond (id : BlockId) (hid : id ∈ o.issued (run d ops)) : ∃ n, id.suffix? = some n ∧
      ∀ id', Used d ops id' → ∀ m, id'.suffix? = some m → m < n := by
    obtain ⟨n, hn, hle, -⟩ := hissued.exists_of_mem hid
    exact ⟨n, hn, fun id' hid' m hm => Nat.lt_of_lt_of_le (lt_next_of_used h hid' hm) hle⟩
  refine ⟨fun id hid => ?_, hissued.pairwise_suffix?, hissued.mem_of_new, fun id hid hgone => ?_⟩
  · obtain ⟨n, hn, hall⟩ := beyond id hid
    exact ⟨BlockId.isWellFormed_iff.mpr ⟨n, hn⟩, n, hn, hall⟩
  · refine Bool.eq_false_iff.mpr fun hback => ?_
    rcases hissued.mem_of_new id hback with hthere | hnew
    · rw [hgone] at hthere
      cases hthere
    · obtain ⟨n, hn, hall⟩ := beyond id hnew
      exact Nat.lt_irrefl n (hall id hid n hn)

/-- **Counted ids are never issued twice**: however a document came about and whatever operations it
has gone through since, the ids that the next operation issues have numbers beyond those of all ids
that were in use, so that no id of a deleted block comes to name another one. Once no such number is
left, no operation issues an id any more, and adding a block fails and leaves the document as it is. -/
theorem issued_fresh (h : d.Obtained) (hp : d.allocator.policy = .sequential)
    (ops : List Operation) :
    (∀ o, Fresh d ops o) ∧
      ((∀ n ≤ BlockId.maxSuffix, ∃ id, Used d ops id ∧ ∃ m, id.suffix? = some m ∧ n ≤ m) →
        (∀ o, issued (run d ops) o = []) ∧
        (∀ parent content role label position, ∃ failure,
          Edit.add parent content role label position (run d ops) = .error failure (run d ops)) ∧
        ∀ limits parent position draft, ∃ failure,
          Mutation.apply limits (.add parent position draft) (run d ops) =
            .error failure (run d ops)) := by
  have hcounts : d.Counts := ⟨hp, h.ahead⟩
  have hnow := (issued_run hcounts ops).counts
  refine ⟨fresh hcounts ops, fun hall => ?_⟩
  have hnext : BlockId.maxSuffix < (run d ops).allocator.next := by
    obtain ⟨id, hid, m, hm, hle⟩ := hall BlockId.maxSuffix (Nat.le_refl _)
    exact Nat.lt_of_le_of_lt hle (lt_next_of_used hcounts hid hm)
  refine ⟨fun o => (o.issued_after hnow).eq_nil_of_exhausted hnext, ?_, ?_⟩
  · intro parent content role label position
    cases he : Edit.add parent content role label position (run d ops) with
    | error failure d' =>
      rw [Edit.checksFirst_add hnow.ahead parent content role label position failure d' he]
      exact ⟨failure, rfl⟩
    | ok id d' => cases (hnow.issued_add he).eq_nil_of_exhausted hnext
  · intro limits parent position draft
    cases he : Mutation.apply limits (.add parent position draft) (run d ops) with
    | error failure d' =>
      rw [Mutation.checksFirst_apply hnow.ahead limits (.add parent position draft) failure d' he]
      exact ⟨failure, rfl⟩
    | ok outcome d' =>
      cases Mutation.apply_eq_ok_iff.mp he
      cases (Mutation.issued_apply hnow he).eq_nil_of_exhausted hnext

/-- The addition of a block below the root and its deletion. -/
def addedAndDeleted : List Operation :=
  [.edit (.add (.ofSuffix 1) (.text "old") none none none), .edit (.delete (.ofSuffix 2) false)]

/-- The next block gets the third id and not the second one again, and where the root has the last
number there is no next block. -/
theorem issued_fresh_addedAndDeleted :
    let d := create ⟨.sequential, 1⟩
    let o : Operation := .edit (.add (.ofSuffix 1) (.text "new") none none none)
    d.Obtained ∧ d.allocator.policy = .sequential ∧
      o.issued (run d addedAndDeleted) = [.ofSuffix 3] ∧ Fresh d addedAndDeleted o ∧
      (o.after (run d addedAndDeleted)).contains (.ofSuffix 2) = false ∧
      exhausted.Obtained ∧ exhausted.allocator.policy = .sequential ∧
      ∀ o, issued (run exhausted []) o = [] := by
  intro d o
  have hfresh : Fresh d addedAndDeleted o :=
    (issued_fresh (.create ⟨.sequential, 1⟩) rfl addedAndDeleted).1 o
  have hused : Used d addedAndDeleted (.ofSuffix 2) :=
    .inl ⟨addedAndDeleted.take 1, ⟨addedAndDeleted.drop 1, rfl⟩, by decide +kernel⟩
  have hroot : Used exhausted [] (.ofSuffix BlockId.maxSuffix) :=
    .inl ⟨[], ⟨[], rfl⟩, by decide +kernel⟩
  have hlast := (issued_fresh (.create ⟨.sequential, BlockId.maxSuffix⟩) rfl []).2 fun n hn =>
    ⟨.ofSuffix BlockId.maxSuffix, hroot, BlockId.maxSuffix,
      BlockId.suffix?_ofSuffix (Nat.le_refl _), hn⟩
  exact ⟨.create _, rfl, by decide +kernel, hfresh, hfresh.gone _ hused (by decide +kernel),
    .create _, rfl, hlast.1⟩

end Operation

end BlockDocument
