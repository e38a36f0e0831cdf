import BlockDocument.Proofs.Document.Tree

/-!
# Runs of edits

The edits as data, so that a run is a list of them. A run goes on after a failure, from what the
failed edit left.
-/

namespace BlockDocument

/-- An edit of a document with its arguments. -/
inductive Change where
  | add (parent : BlockId) (content : Content) (role : Option Role) (label : Option String)
      (position : Option Nat)
  | setContent (id : BlockId) (content : Content)
  | delete (id : BlockId) (cascade : Bool)
  | deleteOnly (id : BlockId)
  | move (id parent : BlockId) (position : Option Nat)
  | moveBefore (id anchor : BlockId)
  | moveAfter (id anchor : BlockId)
  | prune
  | addEdge (source : BlockId) (edge : Edge)
  | removeEdge (source : BlockId) (relation : Relation) (target : BlockId)
  | addTag (id : BlockId) (tag : String)
  | removeTag (id : BlockId) (tag : String)
  /-- Any change to what is known about a block: its role, its label, its estimate of tokens. -/
  | annotate (id : BlockId) (f : Metadata → Metadata)
  | setAttribute (id : BlockId) (name : String) (value : Attribute)

namespace Change

/-- The document that a change leaves, whether it succeeds or fails. -/
def after (d : Document) : Change → Document
  | add parent content role label position => (Edit.add parent content role label position).after d
  | setContent id content => (Edit.setContent id content).after d
  | delete id cascade => (Edit.delete id cascade).after d
  | deleteOnly id => (Edit.deleteOnly id).after d
  | move id parent position => (Edit.move id parent position).after d
  | moveBefore id anchor => (Edit.moveBefore id anchor).after d
  | moveAfter id anchor => (Edit.moveAfter id anchor).after d
  | prune => Edit.prune.after d
  | addEdge source edge => (Edit.addEdge source edge).after d
  | removeEdge source relation target => (Edit.removeEdge source relation target).after d
  | addTag id tag => (Edit.addTag id tag).after d
  | removeTag id tag => (Edit.removeTag id tag).after d
  | annotate id f => (Edit.annotate id f).after d
  | setAttribute id name value => (Edit.setAttribute id name value).after d

/-- The document that changes leave, one after the other. -/
def run (d : Document) (changes : List Change) : Document := changes.foldl after d

/-- Whether a change asks for a new block. -/
def adds : Change → Bool
  | add .. => true
  | _ => false

end Change

namespace Document

variable {d : Document}

/-- What an edit can leave that does not ask for a new block: it is enough to look at five kinds of
steps. -/
theorem change_cases {P : Document → Prop} (c : Change) (h : P d)
    (annotated : ∀ d', Edit.Annotated d d' → P d')
    (delete : ∀ id cascade, c = .delete id cascade → P ((Edit.delete id cascade).after d))
    (deleteOnly : ∀ id, P ((Edit.deleteOnly id).after d))
    (moved : ∀ id p d', Edit.Moved id p d d' → P d')
    (prune : P (Edit.prune.after d)) (add : c.adds = true → P (c.after d)) : P (c.after d) := by
  have same_or {d' : Document} (ha : d' = d ∨ Edit.Annotated d d') : P d' := by
    rcases ha with rfl | ha
    · exact h
    · exact annotated d' ha
  have same_or_moved {d' : Document} (hm : d' = d ∨ ∃ id p, Edit.Moved id p d d') : P d' := by
    rcases hm with rfl | ⟨id, p, hm⟩
    · exact h
    · exact moved id p d' hm
  cases c with
  | add parent content role label position => exact add rfl
  | setContent id content => exact same_or (Edit.after_update d id (fun _ => rfl) fun _ => rfl)
  | delete id cascade => exact delete id cascade rfl
  | deleteOnly id => exact deleteOnly id
  | move id parent position =>
    exact same_or_moved ((Edit.after_move d id parent position).imp_right fun h => ⟨_, _, h⟩)
  | moveBefore id anchor =>
    exact same_or_moved ((Edit.after_moveBeside d id anchor 0).imp_right fun h => ⟨_, h⟩)
  | moveAfter id anchor =>
    exact same_or_moved ((Edit.after_moveBeside d id anchor 1).imp_right fun h => ⟨_, h⟩)
  | prune => exact prune
  | addEdge source edge => exact same_or (Edit.after_addEdge d source edge)
  | removeEdge source relation target =>
    exact same_or (Edit.after_removeEdge d source relation target)
  | addTag id tag => exact same_or (Edit.after_addTag d id tag)
  | removeTag id tag => exact same_or (Edit.after_removeTag d id tag)
  | annotate id f => exact same_or (Edit.after_update d id (fun _ => rfl) fun _ => rfl)
  | setAttribute id name value =>
    exact same_or (Edit.after_update d id (fun _ => rfl) fun _ => rfl)

/-- What every edit can leave, for an invariant of documents. -/
theorem change_induction {P : Document → Prop} (h : P d)
    (annotated : ∀ d', Edit.Annotated d d' → P d')
    (add : ∀ parent content role label position,
      P ((Edit.add parent content role label position).after d))
    (delete : ∀ id cascade, P ((Edit.delete id cascade).after d))
    (deleteOnly : ∀ id, P ((Edit.deleteOnly id).after d))
    (moved : ∀ id p d', Edit.Moved id p d d' → P d')
    (prune : P (Edit.prune.after d)) (c : Change) : P (c.after d) := by
  refine change_cases c h annotated (fun id cascade _ => delete id cascade) deleteOnly moved prune
    fun hc => ?_
  cases c with
  | add parent content role label position => exact add parent content role label position
  | _ => cases hc

theorem IsForest.after (h : d.IsForest) (c : Change) : (c.after d).IsForest :=
  change_induction h (fun _ => h.annotated) h.after_add h.after_delete h.after_deleteOnly
    (fun _ _ _ => h.moved) h.after_prune c

theorem IsTree.after (h : d.IsTree) (c : Change) : (c.after d).IsTree :=
  change_induction h (fun _ => h.annotated) h.after_add h.after_delete h.after_deleteOnly
    (fun _ _ _ => h.moved) h.after_prune c

theorem IsTree.run (h : d.IsTree) (changes : List Change) : (Change.run d changes).IsTree := by
  induction changes generalizing d with
  | nil => exact h
  | cons c changes ih => exact ih (h.after c)

theorem IsTree.keys_eq (h : d.IsTree) : d.tree.keys = d.blocks.keys :=
  Map.keys_eq_keys fun k => ⟨fun hk => h.parent_mem k hk, fun hk => h.entry_mem k hk⟩

/-- No edit puts another block in the place of the root. -/
theorem root_after (c : Change) : (c.after d).root = d.root := by
  refine change_induction (P := fun d' => d'.root = d.root) rfl (fun d' ha => ?_)
    (fun parent content role label position => ?_) (fun id cascade => ?_) (fun id => ?_)
    (fun id p d' hm => ?_) rfl c
  · obtain ⟨id, f, -, -, rfl⟩ := ha.eq
    rfl
  · obtain ⟨a, ha⟩ | ⟨a, id, b, n, -, -, -, -, ha⟩ :=
      Edit.after_add d parent content role label position
    · rw [ha]
      rfl
    · rw [ha]
      rfl
  · rcases Edit.after_delete d id cascade with he | ⟨-, he⟩
    · rw [he]
    · rw [he]
      exact root_detach id
  · rcases Edit.after_deleteOnly d id with he | ⟨p, -, -, he⟩
    · rw [he]
    · rw [he]
      rfl
  · obtain ⟨n, rfl⟩ := hm.eq
    exact root_detach id

theorem root_run (changes : List Change) : (Change.run d changes).root = d.root := by
  induction changes generalizing d with
  | nil => rfl
  | cons c changes ih => exact ih.trans (root_after c)

theorem clean_run_create (a : Allocator) (changes : List Change) :
    (Change.run (create a) changes).Clean :=
  clean_iff.mpr ((isTree_create a).run changes).toIsForest

/-- **Edits keep a document in order**: what was clean stays clean, and a document that was made by
edits alone has no orphans, an entry for every block and a root. -/
theorem clean_after_edits :
    (∀ (d : Document) (c : Change), d.Clean → (c.after d).Clean) ∧
      ∀ (a : Allocator) (changes : List Change),
        (Change.run (create a) changes).Clean ∧
        (∀ id, (Change.run (create a) changes).contains id = true →
          id ∈ (Change.run (create a) changes).reachable) ∧
        (Change.run (create a) changes).tree.keys = (Change.run (create a) changes).blocks.keys ∧
        (Change.run (create a) changes).contains (Change.run (create a) changes).root = true := by
  refine ⟨fun d c h => clean_iff.mpr ((clean_iff.mp h).after c), fun a changes => ?_⟩
  have h := (isTree_create a).run changes
  exact ⟨clean_iff.mpr h.toIsForest, fun id hid => mem_reachable.mpr ⟨h.connected id hid, hid⟩,
    h.keys_eq, h.root_mem⟩

/-- A document with an orphan is clean, and stays so when the orphan is put under the root. -/
theorem clean_after_adoption :
    let orphan : BlockId := .ofSuffix 7
    let d := (create ⟨.sequential, 1⟩).withLeaf orphan { id := orphan, content := .text "" }
    d.Clean ∧ ((Change.move orphan d.root none).after d).Clean := by
  intro orphan d
  have hd : d.Clean := clean_iff.mpr
    ((isTree_create _).toIsForest.withLeaf (by decide) rfl rfl)
  exact ⟨hd, clean_after_edits.1 d _ hd⟩

end Document

end BlockDocument
