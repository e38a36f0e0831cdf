import BlockDocument.Proofs.Document.Success

/-!
# What a mutation that is carried out has done

A mutation is carried out if it passes its check and the edit that it stands for succeeds. Both are
listed for each kind of mutation, with the outcome that it reports (`Mutation.apply_eq_ok_iff`).
-/

namespace BlockDocument

/-- What a mutation comes to that is carried out under limits: its check, its edit and its outcome. -/
inductive Mutation.Applied (l : Limits) (d d' : Document) : Mutation → Outcome → Prop where
  | add {parent id : BlockId} {position : Option Nat} {draft : Draft}
      (check : d.checkAdd l parent draft.content = .ok ())
      (edit : Edit.addDraft parent position draft d = .ok id d') :
      Applied l d d' (.add parent position draft) (.created id)
  | set {id : BlockId} {path value : String} {field : Field} (read : Field.read path = .ok field)
      (edit : Edit.setField l id field value d = .ok () d') :
      Applied l d d' (.set id path value) .updated
  | delete {id : BlockId} {children : Fate} {removed : List BlockId}
      (edit : Edit.remove id children d = .ok removed d') :
      Applied l d d' (.delete id children) (.removed removed)
  | move {id : BlockId} {place : Place BlockId} (check : d.checkPlace l id place = .ok ())
      (edit : Edit.moveTo id place d = .ok () d') : Applied l d d' (.move id place) .updated
  | addEdge {source target : BlockId} {relation : Relation} {note : Note} {added : Bool}
      (check : d.checkEdge l source relation target = .ok ())
      (edit : Edit.addEdge source { relation, target, note } d = .ok added d') :
      Applied l d d' (.addEdge source relation target note) (.ofChange added)
  | removeEdge {source target : BlockId} {relation : Relation} {removed : Bool}
      (edit : Edit.removeEdge source relation target d = .ok removed d') :
      Applied l d d' (.removeEdge source relation target) (.ofChange removed)
  | addTag {id : BlockId} {tag : String} {added : Bool}
      (edit : Edit.addTag id tag d = .ok added d') :
      Applied l d d' (.addTag id tag) (.ofChange added)
  | removeTag {id : BlockId} {tag : String} {removed : Bool}
      (edit : Edit.removeTag id tag d = .ok removed d') :
      Applied l d d' (.removeTag id tag) (.ofChange removed)
  | prune {removed : List BlockId} (edit : Edit.prune d = .ok removed d') :
      Applied l d d' .prune (.removed removed)

variable {d d' : Document}

namespace Edit

variable {α β : Type}

/-- An edit that starts with a check of the document. -/
theorem check_bind_eq_ok_iff {check : Document → Except Failure Unit} {e : Edit α} {a : α} :
    (get >>= fun d => ofExcept (check d) >>= fun _ => e) d = .ok a d' ↔
      check d = .ok () ∧ e d = .ok a d' := by
  constructor
  · intro h
    obtain ⟨u, hcheck, he⟩ := ofExcept_bind_eq_ok (get_bind_eq_ok h)
    exact ⟨hcheck, he⟩
  · rintro ⟨hcheck, he⟩
    have hget : (get : Edit Document) d = .ok d d := rfl
    rw [bind_of_ok hget, hcheck]
    exact he

theorem map_eq_ok_iff {e : Edit α} {f : α → β} {b : β} :
    (f <$> e) d = .ok b d' ↔ ∃ a, e d = .ok a d' ∧ f a = b := by
  refine ⟨map_eq_ok, ?_⟩
  rintro ⟨a, he, rfl⟩
  change EStateM.map f e d = _
  rw [EStateM.map, he]

/-- An edit whose answer is not used. -/
theorem bind_pure_eq_ok_iff {e : Edit Unit} {b b' : β} :
    (e >>= fun _ => pure b) d = .ok b' d' ↔ e d = .ok () d' ∧ b = b' := by
  constructor
  · intro h
    obtain ⟨u, d₁, he, hb⟩ := bind_eq_ok h
    cases hb
    exact ⟨he, rfl⟩
  · rintro ⟨he, rfl⟩
    exact bind_of_ok he _

end Edit

open Edit

/-- **When a mutation is carried out**, and what comes of it. -/
theorem Mutation.apply_eq_ok_iff {l : Limits} {m : Mutation} {outcome : Outcome} :
    m.apply l d = .ok outcome d' ↔ m.Applied l d d' outcome := by
  constructor
  · intro h
    cases m with
    | add parent position draft =>
      obtain ⟨hcheck, h⟩ := check_bind_eq_ok_iff.mp h
      obtain ⟨id, he, rfl⟩ := map_eq_ok h
      exact .add hcheck he
    | set id path value =>
      obtain ⟨field, hread, h⟩ := ofExcept_bind_eq_ok h
      obtain ⟨he, rfl⟩ := bind_pure_eq_ok_iff.mp h
      exact .set hread he
    | delete id children =>
      obtain ⟨removed, he, rfl⟩ := map_eq_ok h
      exact .delete he
    | move id place =>
      obtain ⟨hcheck, h⟩ := check_bind_eq_ok_iff.mp h
      obtain ⟨he, rfl⟩ := bind_pure_eq_ok_iff.mp h
      exact .move hcheck he
    | addEdge source relation target note =>
      obtain ⟨hcheck, h⟩ := check_bind_eq_ok_iff.mp h
      obtain ⟨added, he, rfl⟩ := map_eq_ok h
      exact .addEdge hcheck he
    | removeEdge source relation target =>
      obtain ⟨removed, he, rfl⟩ := map_eq_ok h
      exact .removeEdge he
    | addTag id tag =>
      obtain ⟨added, he, rfl⟩ := map_eq_ok h
      exact .addTag he
    | removeTag id tag =>
      obtain ⟨removed, he, rfl⟩ := map_eq_ok h
      exact .removeTag he
    | prune =>
      obtain ⟨removed, he, rfl⟩ := map_eq_ok h
      exact .prune he
  · intro h
    cases h with
    | add hcheck he => exact check_bind_eq_ok_iff.mpr ⟨hcheck, map_eq_ok_iff.mpr ⟨_, he, rfl⟩⟩
    | @set id path value field hread he =>
      have hfield : (ofExcept (Field.read path) : Edit Field) d = .ok field d := by
        rw [hread]
        rfl
      exact (bind_of_ok hfield _).trans (bind_pure_eq_ok_iff.mpr ⟨he, rfl⟩)
    | delete he => exact map_eq_ok_iff.mpr ⟨_, he, rfl⟩
    | move hcheck he =>
      exact check_bind_eq_ok_iff.mpr ⟨hcheck, bind_pure_eq_ok_iff.mpr ⟨he, rfl⟩⟩
    | addEdge hcheck he => exact check_bind_eq_ok_iff.mpr ⟨hcheck, map_eq_ok_iff.mpr ⟨_, he, rfl⟩⟩
    | removeEdge he => exact map_eq_ok_iff.mpr ⟨_, he, rfl⟩
    | addTag he => exact map_eq_ok_iff.mpr ⟨_, he, rfl⟩
    | removeTag he => exact map_eq_ok_iff.mpr ⟨_, he, rfl⟩
    | prune he => exact map_eq_ok_iff.mpr ⟨_, he, rfl⟩

end BlockDocument
