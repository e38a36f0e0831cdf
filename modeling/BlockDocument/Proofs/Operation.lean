import BlockDocument.Execution.Executor
import BlockDocument.Proofs.Document.Success
import BlockDocument.Proofs.Mutation

/-!
# Operations as runs of edits

All that a document can go through: edits, mutations and programs, one after the other, whether they
succeed or fail. It comes to a run of edits, which are given nothing beyond the ranges as long as the
operations are not: what a program adds is read from its text.
-/

namespace BlockDocument

variable {α β : Type}

/-- What comes of two steps comes of the second one, after the first has succeeded. -/
theorem exists_of_bind_eq_ok {x : Except Failure α} {f : α → Except Failure β} {b : β}
    (h : (x >>= f) = .ok b) : ∃ a, x = .ok a ∧ f a = .ok b := by
  cases x with
  | error failure => cases h
  | ok a => exact ⟨a, rfl, h⟩

namespace Command

theorem ranged_of_draft {kind : ContentKind} {raw : String} {properties : Attributes}
    {draft : Draft} (h : Command.draft kind raw properties = .ok draft) : draft.content.Ranged := by
  obtain ⟨role, -, h⟩ := exists_of_bind_eq_ok h
  obtain ⟨content, hcontent, h⟩ := exists_of_bind_eq_ok h
  cases h
  exact Content.ranged_of_read hcontent

theorem ranged_of_tagMutation {id : BlockId} {path value : String} {op : Assignment} {m : Mutation}
    (h : tagMutation id path op value = .ok m) : m.Ranged := by
  obtain ⟨field, -, h⟩ := exists_of_bind_eq_ok h
  by_cases hfield : field ≠ .tags
  · simp only [if_pos hfield] at h
    cases h
  · simp only [if_neg hfield] at h
    cases hvalue : nonBlank? value with
    | none =>
      simp only [hvalue] at h
      cases h
    | some tag =>
      simp only [hvalue] at h
      cases h
      split_ifs <;> trivial

/-- A command asks for a content that was read. -/
theorem ranged_of_mutation {resolver : Resolver} {c : Command} {m : Mutation}
    (h : c.mutation resolver = .ok m) : m.Ranged := by
  -- only an addition brings a content with it, and that was read from the text
  cases c with
  | edit id path op value =>
    obtain ⟨id, -, h⟩ := exists_of_bind_eq_ok h
    split at h
    · cases h
      trivial
    · exact ranged_of_tagMutation h
  | append parent kind position content properties =>
    obtain ⟨parent, -, h⟩ := exists_of_bind_eq_ok h
    obtain ⟨draft, hdraft, h⟩ := exists_of_bind_eq_ok h
    cases h
    exact ranged_of_draft hdraft
  | delete id children =>
    obtain ⟨id, -, h⟩ := exists_of_bind_eq_ok h
    cases h
    trivial
  | move id place =>
    obtain ⟨id, -, h⟩ := exists_of_bind_eq_ok h
    obtain ⟨place, -, h⟩ := exists_of_bind_eq_ok h
    cases h
    trivial
  | link source relation target properties =>
    obtain ⟨source, -, h⟩ := exists_of_bind_eq_ok h
    obtain ⟨target, -, h⟩ := exists_of_bind_eq_ok h
    obtain ⟨note, -, h⟩ := exists_of_bind_eq_ok h
    cases h
    trivial
  | unlink source relation target =>
    obtain ⟨source, -, h⟩ := exists_of_bind_eq_ok h
    obtain ⟨target, -, h⟩ := exists_of_bind_eq_ok h
    cases h
    trivial
  | prune =>
    cases h
    trivial

end Command

namespace Executor

variable {e : Executor} {resolver : Resolver}

/-- One command. -/
theorem runsBy_step (known : List (String × Option BlockId)) (c : Command) :
    (e.step resolver known c).RunsBy Change.Ranged := by
  refine Edit.runsBy_ofExcept_bind fun m hm => ?_
  refine ((Command.ranged_of_mutation hm).runsBy_apply _).bind fun outcome => ?_
  refine Edit.runsBy_get.bind fun d => (Edit.runsBy_ofExcept _).bind fun _ => ?_
  exact Edit.runsBy_pure outcome

/-- The commands of a batch that takes effect. -/
theorem exists_run_of_runMembers {known : List (String × Option BlockId)}
    {members : List Statement} {d d' : Document} {ids : List BlockId}
    (h : e.runMembers resolver known members d = .ok (ids, d')) :
    ∃ changes, (∀ c ∈ changes, c.Ranged) ∧ d' = Change.run d changes := by
  induction members generalizing d ids with
  | nil =>
    cases h
    exact ⟨[], by rintro c ⟨⟩, rfl⟩
  | cons s rest ih =>
    rw [runMembers] at h
    cases hs : e.step resolver known s.command d with
    | error failure d₁ => simp [hs] at h
    | ok outcome d₁ =>
      cases hr : e.runMembers resolver known rest d₁ with
      | error failure => simp [hs, hr] at h
      | ok result =>
        obtain ⟨ids', d₂⟩ := result
        simp only [hs, hr] at h
        cases h
        obtain ⟨cs, hall, hcs⟩ := runsBy_step known s.command d
        obtain ⟨cs', hall', rfl⟩ := ih hr
        rw [Edit.after, hs] at hcs
        refine ⟨cs ++ cs', List.forall_mem_append.mpr ⟨hall, hall'⟩, ?_⟩
        rw [Change.run_append, ← hcs]

/-- The batches of a program: one that fails leaves nothing. -/
theorem exists_runFrom_eq (n : Nat) (p : Program) (x : Execution) (d : Document) :
    ∃ changes, (∀ c ∈ changes, c.Ranged) ∧
      (e.runFrom resolver n p x d).2 = Change.run d changes := by
  induction p generalizing n x d with
  | nil => exact ⟨[], by rintro c ⟨⟩, rfl⟩
  | cons b rest ih =>
    rw [runFrom]
    cases hb : e.runBatch resolver b d with
    | error failure => exact ih _ _ d
    | ok result =>
      obtain ⟨ids, d'⟩ := result
      obtain ⟨cs, hall, rfl⟩ := exists_run_of_runMembers hb
      obtain ⟨cs', hall', hcs'⟩ := ih (n + 1) _ (Change.run d cs)
      exact ⟨cs ++ cs', List.forall_mem_append.mpr ⟨hall, hall'⟩,
        hcs'.trans (Change.run_append d cs cs').symm⟩

/-- **A program is a run of edits** within the ranges. -/
theorem runsBy_execute (e : Executor) (resolver : Resolver) (source : String) :
    (e.execute resolver source).RunsBy Change.Ranged := by
  refine (Edit.runsBy_ofExcept _).bind fun p => (Edit.runsBy_ofExcept _).bind fun _ => ?_
  exact fun d => exists_runFrom_eq 0 p {} d

end Executor

/-! ## Operations -/

/-- Whatever changes a document. -/
inductive Operation where
  | edit (c : Change)
  | mutate (limits : Limits) (m : Mutation)
  | execute (e : Executor) (resolver : Resolver) (source : String)

namespace Operation

/-- What an operation is given lies within the ranges. -/
def Ranged : Operation → Prop
  | edit c => c.Ranged
  | mutate _ m => m.Ranged
  | execute .. => True

/-- The document that an operation leaves, whether it succeeds or fails. -/
def after (d : Document) : Operation → Document
  | edit c => c.after d
  | mutate limits m => (m.apply limits).after d
  | execute e resolver source => (e.execute resolver source).after d

/-- The document that operations leave, one after the other. -/
def run (d : Document) (ops : List Operation) : Document := ops.foldl after d

theorem exists_after_eq {o : Operation} (ho : o.Ranged) (d : Document) :
    ∃ changes, (∀ c ∈ changes, c.Ranged) ∧ o.after d = Change.run d changes := by
  cases o with
  | edit c => exact ⟨[c], List.forall_mem_singleton.mpr ho, rfl⟩
  | mutate limits m => exact Mutation.Ranged.runsBy_apply ho limits d
  | execute e resolver source => exact e.runsBy_execute resolver source d

/-- **A run of operations is a run of edits** within the ranges. -/
theorem exists_run_eq {ops : List Operation} (hops : ∀ o ∈ ops, o.Ranged) (d : Document) :
    ∃ changes, (∀ c ∈ changes, c.Ranged) ∧ run d ops = Change.run d changes := by
  induction ops generalizing d with
  | nil => exact ⟨[], by rintro c ⟨⟩, rfl⟩
  | cons o ops ih =>
    obtain ⟨ho, hops⟩ := List.forall_mem_cons.mp hops
    obtain ⟨cs, hall, hcs⟩ := exists_after_eq ho d
    obtain ⟨cs', hall', hcs'⟩ := ih hops (o.after d)
    refine ⟨cs ++ cs', List.forall_mem_append.mpr ⟨hall, hall'⟩, ?_⟩
    rw [Change.run_append, ← hcs]
    exact hcs'

end Operation

end BlockDocument
