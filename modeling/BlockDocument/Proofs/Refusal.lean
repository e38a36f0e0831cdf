import BlockDocument.Proofs.Archive.Body
import BlockDocument.Proofs.Document.Refusal
import BlockDocument.Proofs.Operation

/-!
# What is refused changes nothing

However a document came about, a mutation or an edit that fails on it leaves it as it was: its
blocks, its tree, its root and its source of ids.
-/

namespace BlockDocument

variable {d : Document}

namespace Edit

/-! ## Mutations -/

theorem checksFirst_moveTo (d : Document) (id : BlockId) (place : Place BlockId) :
    (moveTo id place).ChecksFirst d := by
  cases place with
  | under parent position => exact checksFirst_move d id parent position
  | before anchor => exact checksFirst_moveBeside d id anchor 0
  | after anchor => exact checksFirst_moveBeside d id anchor 1

theorem checksFirst_remove (d : Document) (id : BlockId) (children : Fate) :
    (remove id children).ChecksFirst d := by
  cases children with
  | none => exact checksFirst_delete d id false
  | deleted => exact checksFirst_delete d id true
  | kept => exact checksFirst_deleteOnly d id

theorem contains_of_add_eq_ok {parent id : BlockId} {content : Content} {role : Option Role}
    {label : Option String} {position : Option Nat} {d' : Document}
    (h : add parent content role label position d = .ok id d') : d'.contains id = true := by
  obtain ⟨-, a, -, rfl⟩ := add_eq_ok h
  rw [Document.contains_withChildren, Document.contains_withLeaf, decide_eq_true rfl, Bool.true_or]

/-- Once a block has been added there is one to annotate. -/
theorem checksFirst_addDraft (h : d.Ahead) (parent : BlockId) (position : Option Nat)
    (draft : Draft) : (addDraft parent position draft).ChecksFirst d := by
  refine (checksFirst_add h parent draft.content draft.role draft.label position).bind_succeeds
    fun id d₁ hadd => ?_
  obtain ⟨u, d₂, hannotate⟩ := succeeds_annotate (contains_of_add_eq_ok hadd) _
  exact ⟨id, d₂, bind_of_ok hannotate _⟩

theorem checksFirst_setField (d : Document) (limits : Limits) (id : BlockId) (field : Field)
    (value : String) : (setField limits id field value).ChecksFirst d := by
  refine checksFirst_require_bind fun b _ => ?_
  cases field with
  | text =>
    exact checksFirst_ofExcept_bind fun c _ => checksFirst_ofExcept_bind fun _ _ =>
      checksFirst_setContent d id c
  | language =>
    dsimp only
    split
    · exact checksFirst_setContent d id _
    · exact checksFirst_throw _
  | label => exact checksFirst_update d id _
  | role =>
    dsimp only
    split
    · exact checksFirst_update d id _
    · exact checksFirst_ofExcept_bind fun r _ => checksFirst_update d id _
  | tags => exact checksFirst_update d id _
  | «attribute» name => exact checksFirst_update d id _

end Edit

open Edit

/-- A mutation checks everything before it changes anything. -/
theorem Mutation.checksFirst_apply (h : d.Ahead) (limits : Limits) (m : Mutation) :
    (m.apply limits).ChecksFirst d := by
  cases m with
  | add parent position draft =>
    exact checksFirst_get_bind <| checksFirst_ofExcept_bind fun _ _ =>
      (checksFirst_addDraft h parent position draft).map _
  | set id path value =>
    exact checksFirst_ofExcept_bind fun field _ =>
      (checksFirst_setField d limits id field value).bind_pure _
  | delete id children => exact (checksFirst_remove d id children).map _
  | move id place =>
    exact checksFirst_get_bind <| checksFirst_ofExcept_bind fun _ _ =>
      (checksFirst_moveTo d id place).bind_pure _
  | addEdge source relation target note =>
    exact checksFirst_get_bind <| checksFirst_ofExcept_bind fun _ _ =>
      (checksFirst_addEdge d source _).map _
  | removeEdge source relation target => exact (checksFirst_removeEdge d source relation target).map _
  | addTag id tag => exact (checksFirst_addTag d id tag).map _
  | removeTag id tag => exact (checksFirst_removeTag d id tag).map _
  | prune => exact (succeeds_prune d).checksFirst.map _

/-! ## Edits -/

namespace Change

/-- The edit that a change stands for, without its answer. -/
def edit : Change → Edit Unit
  | add parent content role label position => discard (Edit.add parent content role label position)
  | setContent id content => Edit.setContent id content
  | delete id cascade => discard (Edit.delete id cascade)
  | deleteOnly id => discard (Edit.deleteOnly id)
  | move id parent position => Edit.move id parent position
  | moveBefore id anchor => Edit.moveBefore id anchor
  | moveAfter id anchor => Edit.moveAfter id anchor
  | prune => discard Edit.prune
  | addEdge source edge => discard (Edit.addEdge source edge)
  | removeEdge source relation target => discard (Edit.removeEdge source relation target)
  | addTag id tag => discard (Edit.addTag id tag)
  | removeTag id tag => discard (Edit.removeTag id tag)
  | annotate id f => Edit.annotate id f
  | setAttribute id name value => Edit.setAttribute id name value

theorem after_discard {α : Type} (e : Edit α) (d : Document) :
    (discard e : Edit Unit).after d = e.after d :=
  Edit.after_map d e (Function.const α PUnit.unit)

theorem after_edit (c : Change) (d : Document) : c.edit.after d = c.after d := by
  cases c <;> first | rfl | exact after_discard _ d

theorem checksFirst_edit (h : d.Ahead) (c : Change) : c.edit.ChecksFirst d := by
  cases c with
  | add parent content role label position =>
    exact (checksFirst_add h parent content role label position).map _
  | setContent id content => exact checksFirst_setContent d id content
  | delete id cascade => exact (checksFirst_delete d id cascade).map _
  | deleteOnly id => exact (checksFirst_deleteOnly d id).map _
  | move id parent position => exact checksFirst_move d id parent position
  | moveBefore id anchor => exact checksFirst_moveBeside d id anchor 0
  | moveAfter id anchor => exact checksFirst_moveBeside d id anchor 1
  | prune => exact (succeeds_prune d).checksFirst.map _
  | addEdge source edge => exact (checksFirst_addEdge d source edge).map _
  | removeEdge source relation target => exact (checksFirst_removeEdge d source relation target).map _
  | addTag id tag => exact (checksFirst_addTag d id tag).map _
  | removeTag id tag => exact (checksFirst_removeTag d id tag).map _
  | annotate id f => exact checksFirst_update d id _
  | setAttribute id name value => exact checksFirst_update d id _

end Change

/-! ## How documents come about -/

theorem Archive.exists_body_of_decode {source : Option Json.Source}
    (h : Archive.decode source = .ok d) : ∃ body : Archive.Body, body.document = .ok d := by
  rw [Archive.decode] at h
  cases hheader : source.bind Archive.header? with
  | none => simp [hheader, throw, throwThe, MonadExceptOf.throw] at h
  | some header =>
    cases hcheck : header.check with
    | error fault => simp [hheader, hcheck, bind, Except.bind] at h
    | ok u =>
      cases hbody : source.bind Archive.body? with
      | none =>
        simp [hheader, hcheck, hbody, bind, Except.bind, throw, throwThe, MonadExceptOf.throw] at h
      | some body =>
        simp only [hheader, hcheck, hbody, bind, Except.bind] at h
        exact ⟨body, h⟩

/-- A document that is opened is the one of a body. -/
theorem Archive.exists_body_of_load {text : String} (h : Archive.load text = .ok d) :
    ∃ body : Archive.Body, body.document = .ok d :=
  Archive.exists_body_of_decode (Archive.load_eq_ok_iff.mp h).2

theorem Operation.exists_run_after_eq (o : Operation) (d : Document) :
    ∃ changes, o.after d = Change.run d changes := by
  cases o with
  | edit c => exact ⟨[c], rfl⟩
  | mutate limits m => exact m.runs_apply limits d
  | execute e resolver source =>
    obtain ⟨changes, -, h⟩ := e.runsBy_execute resolver source d
    exact ⟨changes, h⟩

namespace Document

/-- How a document comes about: as a new one, from parts, from a saved text, or through an operation
on another one, whether that succeeds or fails. -/
inductive Obtained : Document → Prop where
  | create (a : Allocator) : Obtained (.create a)
  | ofParts (root : BlockId) (blocks : Std.ExtTreeMap BlockId Block)
      (tree : Std.ExtTreeMap BlockId (List BlockId)) (a : Allocator) :
      Obtained (.ofParts root blocks tree a)
  | loaded {text : String} {d : Document} (h : Archive.load text = .ok d) : Obtained d
  | after {d : Document} (h : Obtained d) (o : Operation) : Obtained (o.after d)

/-- A document that is opened was made of parts. -/
theorem ahead_of_load {text : String} (h : Archive.load text = .ok d) : d.Ahead := by
  obtain ⟨body, hbody⟩ := Archive.exists_body_of_load h
  obtain ⟨-, -, -, rfl⟩ := Archive.Body.document_eq_ok.mp hbody
  exact ahead_ofParts _ _ _ _

theorem Obtained.ahead (h : d.Obtained) : d.Ahead := by
  induction h with
  | create a => exact ahead_create a
  | ofParts root blocks tree a => exact ahead_ofParts root blocks tree a
  | loaded h => exact ahead_of_load h
  | after _ o ih =>
    obtain ⟨changes, h⟩ := o.exists_run_after_eq _
    rw [h]
    exact ih.run changes

theorem Obtained.run (h : d.Obtained) (ops : List Operation) : (Operation.run d ops).Obtained := by
  induction ops generalizing d with
  | nil => exact h
  | cons o ops ih => exact ih (h.after o)

/-- **What is refused changes nothing**: a mutation or an edit that fails leaves the document as it
was. -/
theorem Obtained.eq_of_error (h : d.Obtained) :
    (∀ limits m failure d', Mutation.apply limits m d = .error failure d' → d' = d) ∧
      ∀ c failure d', Change.edit c d = .error failure d' → d' = d :=
  ⟨fun limits m => m.checksFirst_apply h.ahead limits, fun c => c.checksFirst_edit h.ahead⟩

/-- A document whose root has the last number. -/
def exhausted : Document := create ⟨.sequential, BlockId.maxSuffix⟩

/-- With no id left, a block is not added and the document stays as it is. -/
theorem eq_of_error_exhausted :
    exhausted.Obtained ∧ ∃ d', Mutation.apply {} (.add exhausted.root none { content := .text "" })
      exhausted = .error (.refused .noIdLeft) d' ∧ d' = exhausted := by
  have hd : exhausted.Obtained := .create _
  have hfail : Mutation.apply {} (.add exhausted.root none { content := .text "" }) exhausted =
      .error (.refused .noIdLeft) exhausted := rfl
  exact ⟨hd, _, hfail, hd.eq_of_error.1 _ _ _ _ hfail⟩

end Document

end BlockDocument
