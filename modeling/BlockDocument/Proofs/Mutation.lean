import BlockDocument.Mutation
import BlockDocument.Proofs.Document.Ranged

/-!
# Mutations as runs of edits

Whatever a mutation checks, all that it does to a document is a run of edits. What every edit keeps
is therefore kept by every mutation, refused or not. The edits are given nothing beyond the ranges,
except for the content of a block that is to be added.
-/

namespace BlockDocument

/-- An edit that leaves what a run of changes leaves. -/
def Edit.Runs {α : Type} (e : Edit α) : Prop := ∀ d, ∃ changes, e.after d = Change.run d changes

/-- An edit that leaves what a run of changes of one kind leaves. -/
def Edit.RunsBy (Q : Change → Prop) {α : Type} (e : Edit α) : Prop :=
  ∀ d, ∃ changes, (∀ c ∈ changes, Q c) ∧ e.after d = Change.run d changes

/-- A mutation whose content lies within the ranges. -/
def Mutation.Ranged : Mutation → Prop
  | add _ _ draft => draft.content.Ranged
  | _ => True

variable {Q : Change → Prop} {α β : Type}

theorem Change.run_append (d : Document) (cs cs' : List Change) :
    run d (cs ++ cs') = run (run d cs) cs' := List.foldl_append

namespace Edit

/-- The part of an edit that comes after another one starts from what that left. -/
theorem RunsBy.bind {e : Edit α} {f : α → Edit β} (he : e.RunsBy Q) (hf : ∀ a, (f a).RunsBy Q) :
    (e >>= f).RunsBy Q := by
  intro d
  obtain ⟨cs, hall, hcs⟩ := he d
  show ∃ changes, _ ∧ after (EStateM.bind e f) d = _
  rw [after] at hcs
  rw [after, EStateM.bind]
  cases hr : e d with
  | error failure d' => exact ⟨cs, hall, by rw [← hcs, hr]⟩
  | ok a d' =>
    obtain ⟨cs', hall', hcs'⟩ := hf a d'
    refine ⟨cs ++ cs', List.forall_mem_append.mpr ⟨hall, hall'⟩, ?_⟩
    rw [Change.run_append, ← hcs, hr]
    exact hcs'

theorem RunsBy.of_change {e : Edit α} (c : Change) (hc : Q c) (h : ∀ d, e.after d = c.after d) :
    e.RunsBy Q :=
  fun d => ⟨[c], List.forall_mem_singleton.mpr hc, h d⟩

theorem RunsBy.of_after_eq {e : Edit α} (h : ∀ d, e.after d = d) : e.RunsBy Q :=
  fun d => ⟨[], by rintro c ⟨⟩, h d⟩

theorem runsBy_pure (a : α) : (pure a : Edit α).RunsBy Q := .of_after_eq fun _ => rfl

theorem runsBy_throw (failure : Failure) : (throw failure : Edit α).RunsBy Q :=
  .of_after_eq fun _ => rfl

theorem runsBy_get : (get : Edit Document).RunsBy Q := .of_after_eq fun _ => rfl

theorem runsBy_ofExcept (x : Except Failure α) : (ofExcept x : Edit α).RunsBy Q := by
  cases x with
  | error failure => exact runsBy_throw failure
  | ok a => exact runsBy_pure a

/-- What follows a check knows what came of it. -/
theorem runsBy_ofExcept_bind {x : Except Failure α} {f : α → Edit β}
    (hf : ∀ a, x = .ok a → (f a).RunsBy Q) : (ofExcept x >>= f).RunsBy Q := by
  cases x with
  | error failure => exact .of_after_eq fun _ => rfl
  | ok a => exact hf a rfl

theorem RunsBy.map {e : Edit α} (he : e.RunsBy Q) (f : α → β) : (f <$> e).RunsBy Q := by
  intro d
  obtain ⟨cs, hall, hcs⟩ := he d
  exact ⟨cs, hall, (after_map d e f).trans hcs⟩

theorem runsBy_require (id : BlockId) : (require id).RunsBy Q :=
  runsBy_get.bind fun d => runsBy_ofExcept (d.require id)

section Ranged

-- Edits are given nothing beyond the ranges, and only one of them asks for a new block.
variable (hQ : ∀ c : Change, c.Ranged → c.adds = false → Q c)

include hQ

theorem runsBy_annotate (id : BlockId) {f : Metadata → Metadata}
    (hf : ∀ m, m.Ranged → (f m).Ranged) : (annotate id f).RunsBy Q :=
  .of_change (.annotate id f) (hQ _ hf rfl) fun _ => rfl

theorem runsBy_setContent (id : BlockId) {content : Content} (hc : content.Ranged) :
    (setContent id content).RunsBy Q :=
  .of_change (.setContent id content) (hQ _ hc rfl) fun _ => rfl

theorem runsBy_moveTo (id : BlockId) (place : Place BlockId) : (moveTo id place).RunsBy Q := by
  cases place with
  | under parent position => exact .of_change (.move id parent position) (hQ _ trivial rfl) fun _ => rfl
  | before anchor => exact .of_change (.moveBefore id anchor) (hQ _ trivial rfl) fun _ => rfl
  | after anchor => exact .of_change (.moveAfter id anchor) (hQ _ trivial rfl) fun _ => rfl

theorem runsBy_remove (id : BlockId) (children : Fate) : (remove id children).RunsBy Q := by
  cases children with
  | none => exact .of_change (.delete id false) (hQ _ trivial rfl) fun _ => rfl
  | deleted => exact .of_change (.delete id true) (hQ _ trivial rfl) fun _ => rfl
  | kept => exact .of_change (.deleteOnly id) (hQ _ trivial rfl) fun _ => rfl

theorem runsBy_addDraft {parent : BlockId} {position : Option Nat} {draft : Draft}
    (hadd : Q (.add parent draft.content draft.role draft.label position)) :
    (addDraft parent position draft).RunsBy Q := by
  refine RunsBy.bind (.of_change (.add parent draft.content draft.role draft.label position) hadd
    fun _ => rfl) fun id => ?_
  refine (runsBy_annotate hQ id fun m hm => ?_).bind fun _ => runsBy_pure id
  exact ⟨hm.tokenEstimate, hm.created, hm.modified⟩

theorem runsBy_setField (limits : Limits) (id : BlockId) (field : Field) (value : String) :
    (setField limits id field value).RunsBy Q := by
  refine (runsBy_require id).bind fun b => ?_
  -- every field but the text and the language is a note about the block
  cases field with
  | text =>
    refine runsBy_ofExcept_bind fun c hc => ?_
    exact (runsBy_ofExcept _).bind fun _ => runsBy_setContent hQ id (Content.ranged_of_read hc)
  | language =>
    dsimp only
    split
    · exact runsBy_setContent hQ id trivial
    · exact runsBy_throw _
  | label =>
    exact runsBy_annotate hQ id fun _ hm => ⟨hm.tokenEstimate, hm.created, hm.modified⟩
  | role =>
    dsimp only
    split
    · exact runsBy_annotate hQ id fun _ hm => ⟨hm.tokenEstimate, hm.created, hm.modified⟩
    · refine (runsBy_ofExcept _).bind fun r => ?_
      exact runsBy_annotate hQ id fun _ hm => ⟨hm.tokenEstimate, hm.created, hm.modified⟩
  | tags =>
    exact runsBy_annotate hQ id fun _ hm => ⟨hm.tokenEstimate, hm.created, hm.modified⟩
  | «attribute» name =>
    exact .of_change (.setAttribute id name (.text value)) (hQ _ trivial rfl) fun _ => rfl

end Ranged

end Edit

namespace Mutation

open Edit

/-- A mutation is a run of edits, of any kind that the addition of a block that it asks for is of and
all other edits within the ranges. -/
theorem runsBy_apply (hQ : ∀ c : Change, c.Ranged → c.adds = false → Q c) (limits : Limits)
    {m : Mutation} (hadd : ∀ parent position draft, m = .add parent position draft →
      Q (.add parent draft.content draft.role draft.label position)) :
    (m.apply limits).RunsBy Q := by
  have hchange {γ δ : Type} {e : Edit γ} (f : γ → δ) (c : Change) (hc : c.Ranged)
      (hadds : c.adds = false) (h : ∀ d, e.after d = c.after d) : (f <$> e).RunsBy Q :=
    (RunsBy.of_change c (hQ c hc hadds) h).map f
  cases m with
  | add parent position draft =>
    refine runsBy_get.bind fun d => (runsBy_ofExcept _).bind fun _ => ?_
    exact (runsBy_addDraft hQ (hadd parent position draft rfl)).map _
  | set id path value =>
    refine (runsBy_ofExcept _).bind fun field => ?_
    exact (runsBy_setField hQ limits id field value).bind fun _ => runsBy_pure _
  | delete id children => exact (runsBy_remove hQ id children).map _
  | move id place =>
    refine runsBy_get.bind fun d => (runsBy_ofExcept _).bind fun _ => ?_
    exact (runsBy_moveTo hQ id place).bind fun _ => runsBy_pure _
  | addEdge source relation target note =>
    refine runsBy_get.bind fun d => (runsBy_ofExcept _).bind fun _ => ?_
    exact hchange _ (.addEdge source { relation, target, note }) trivial rfl fun _ => rfl
  | removeEdge source relation target =>
    exact hchange _ (.removeEdge source relation target) trivial rfl fun _ => rfl
  | addTag id tag => exact hchange _ (.addTag id tag) trivial rfl fun _ => rfl
  | removeTag id tag => exact hchange _ (.removeTag id tag) trivial rfl fun _ => rfl
  | prune => exact hchange _ .prune trivial rfl fun _ => rfl

/-- **A mutation is a run of edits**, whether it is carried out or refused. -/
theorem runs_apply (limits : Limits) (m : Mutation) : (m.apply limits).Runs := by
  intro d
  obtain ⟨changes, -, h⟩ :=
    runsBy_apply (Q := fun _ => True) (fun _ _ _ => trivial) limits (m := m) (fun _ _ _ _ => trivial) d
  exact ⟨changes, h⟩

/-- A mutation within the ranges is a run of edits within them. -/
theorem Ranged.runsBy_apply {m : Mutation} (hm : m.Ranged) (limits : Limits) :
    (m.apply limits).RunsBy Change.Ranged := by
  refine Mutation.runsBy_apply (fun _ hc _ => hc) limits fun parent position draft h => ?_
  subst h
  exact hm

end Mutation

end BlockDocument
