import BlockDocument.Proofs.Document.Success
import BlockDocument.Proofs.Document.Supply

/-!
# Edits that fail

What an edit changed before it failed would stay. Each edit makes its last check before its first
change, so a document on which it fails is left as it was. The one edit that has to write before it
knows is the addition of a block: it asks the allocator for an id, and an allocator without one left
stays as it is only if it stands beyond the numbers of all blocks.
-/

namespace BlockDocument

namespace Edit

variable {α β : Type} {d d' : Document}

/-- An edit that leaves a document as it was whenever it fails on it. -/
def ChecksFirst (e : Edit α) (d : Document) : Prop :=
  ∀ failure d', e d = .error failure d' → d' = d

/-- An edit that does not fail on a document. -/
def Succeeds (e : Edit α) (d : Document) : Prop := ∃ a d', e d = .ok a d'

/-- The failure of an edit on a document. -/
def failure? (e : Edit α) (d : Document) : Option Failure :=
  match e d with
  | .ok .. => none
  | .error failure _ => some failure

theorem failure?_eq_some_iff {e : Edit α} {failure : Failure} :
    e.failure? d = some failure ↔ ∃ d', e d = .error failure d' := by
  rw [failure?]
  cases e d with
  | ok a d' => simp
  | error failure' d' => simp

/-! ## Parts -/

theorem Succeeds.checksFirst {e : Edit α} (h : e.Succeeds d) : e.ChecksFirst d := by
  obtain ⟨a, d₁, h⟩ := h
  intro failure d' he
  rw [h] at he
  cases he

theorem succeeds_pure (a : α) : (pure a : Edit α).Succeeds d := ⟨a, d, rfl⟩

theorem checksFirst_pure (a : α) : (pure a : Edit α).ChecksFirst d :=
  (succeeds_pure a).checksFirst

theorem checksFirst_throw (failure : Failure) : (throw failure : Edit α).ChecksFirst d := by
  intro failure' d' h
  cases h
  rfl

/-- An edit in two parts fails in the first one, or the first one has left a document on which the
second one fails. -/
theorem bind_eq_error {e : Edit α} {f : α → Edit β} {failure : Failure}
    (h : (e >>= f) d = .error failure d') :
    e d = .error failure d' ∨ ∃ a d₁, e d = .ok a d₁ ∧ f a d₁ = .error failure d' := by
  change EStateM.bind e f d = _ at h
  rw [EStateM.bind] at h
  cases hr : e d with
  | error failure' d₁ =>
    rw [hr] at h
    cases h
    exact .inl rfl
  | ok a d₁ =>
    rw [hr] at h
    exact .inr ⟨a, d₁, rfl, h⟩

/-- After a part that may have changed the document nothing fails. -/
theorem ChecksFirst.bind_succeeds {e : Edit α} {f : α → Edit β} (he : e.ChecksFirst d)
    (hf : ∀ a d₁, e d = .ok a d₁ → (f a).Succeeds d₁) : (e >>= f).ChecksFirst d := by
  intro failure d' h
  obtain h | ⟨a, d₁, ha, h⟩ := bind_eq_error h
  · exact he failure d' h
  · obtain ⟨b, d₂, hb⟩ := hf a d₁ ha
    rw [hb] at h
    cases h

theorem ChecksFirst.bind_pure {e : Edit α} (he : e.ChecksFirst d) (g : α → β) :
    (e >>= fun a => pure (g a)).ChecksFirst d :=
  he.bind_succeeds fun a _ _ => succeeds_pure (g a)

theorem ChecksFirst.map {e : Edit α} (he : e.ChecksFirst d) (g : α → β) :
    (g <$> e).ChecksFirst d := by
  intro failure d' h
  change EStateM.map g e d = _ at h
  rw [EStateM.map] at h
  cases hr : e d with
  | error failure' d₁ =>
    rw [hr] at h
    cases h
    exact he _ _ hr
  | ok a d₁ =>
    rw [hr] at h
    cases h

theorem checksFirst_get_bind {f : Document → Edit α} (hf : (f d).ChecksFirst d) :
    (get >>= f).ChecksFirst d := hf

/-- What follows a check starts from the same document, and knows what came of the check. -/
theorem checksFirst_ofExcept_bind {x : Except Failure α} {f : α → Edit β}
    (hf : ∀ a, x = .ok a → (f a).ChecksFirst d) : (ofExcept x >>= f).ChecksFirst d := by
  cases x with
  | error failure => exact checksFirst_throw failure
  | ok a => exact hf a rfl

theorem checksFirst_require_bind {id : BlockId} {f : Block → Edit α}
    (hf : ∀ b, d.block? id = some b → (f b).ChecksFirst d) :
    (require id >>= f).ChecksFirst d := by
  show (ofExcept (d.require id) >>= f).ChecksFirst d
  refine checksFirst_ofExcept_bind fun b hb => hf b ?_
  rw [Document.require_eq] at hb
  split at hb
  · cases hb
    exact ‹_›
  · cases hb

theorem checksFirst_ite {c : Prop} [Decidable c] {e e' : Edit α} (he : c → e.ChecksFirst d)
    (he' : ¬ c → e'.ChecksFirst d) : (if c then e else e').ChecksFirst d := by
  split
  · exact he ‹_›
  · exact he' ‹_›

/-- A refusal in some case. -/
theorem checksFirst_ite_throw {c : Prop} [Decidable c] {failure : Failure} {f : PUnit → Edit α}
    {e : Edit α} (he : ¬ c → e.ChecksFirst d) :
    (if c then (throw failure : Edit PUnit) >>= f else e : Edit α).ChecksFirst d :=
  checksFirst_ite (fun _ => checksFirst_throw failure) he

/-! ## One block -/

theorem checksFirst_update (d : Document) (id : BlockId) (f : Block → Block) :
    (update id f).ChecksFirst d :=
  checksFirst_require_bind fun _ _ => Succeeds.checksFirst ⟨_, _, rfl⟩

theorem succeeds_annotate {id : BlockId} (h : d.contains id = true) (f : Metadata → Metadata) :
    (annotate id f).Succeeds d := by
  obtain ⟨b, hb⟩ := Document.contains_iff.mp h
  refine ⟨(), d.withBlock id (·.annotate f), ?_⟩
  exact bind_of_ok (require_of_block? hb) _

theorem checksFirst_setContent (d : Document) (id : BlockId) (content : Content) :
    (setContent id content).ChecksFirst d := checksFirst_update d id _

theorem checksFirst_addEdge (d : Document) (source : BlockId) (edge : Edge) :
    (addEdge source edge).ChecksFirst d :=
  checksFirst_require_bind fun _ _ => checksFirst_ite (fun _ => checksFirst_pure _) fun _ =>
    (checksFirst_update d source _).bind_pure _

theorem checksFirst_removeEdge (d : Document) (source : BlockId) (relation : Relation)
    (target : BlockId) : (removeEdge source relation target).ChecksFirst d :=
  checksFirst_require_bind fun _ _ => checksFirst_ite
    (fun _ => (checksFirst_update d source _).bind_pure _) fun _ => checksFirst_pure _

theorem checksFirst_addTag (d : Document) (id : BlockId) (tag : String) :
    (addTag id tag).ChecksFirst d :=
  checksFirst_require_bind fun _ _ => checksFirst_ite (fun _ => checksFirst_pure _) fun _ =>
    (checksFirst_update d id _).bind_pure _

theorem checksFirst_removeTag (d : Document) (id : BlockId) (tag : String) :
    (removeTag id tag).ChecksFirst d :=
  checksFirst_require_bind fun _ _ => checksFirst_ite
    (fun _ => (checksFirst_update d id _).bind_pure _) fun _ => checksFirst_pure _

/-! ## The tree -/

/-- An addition fails without a parent or without an id left. -/
theorem checksFirst_add (h : d.Ahead) (parent : BlockId) (content : Content) (role : Option Role)
    (label : Option String) (position : Option Nat) :
    (add parent content role label position).ChecksFirst d := by
  refine checksFirst_require_bind fun b _ => checksFirst_get_bind ?_
  rcases ha : d.allocator.allocate content role d.contains with ⟨id?, a⟩
  cases id? with
  | none =>
    have hsame : a = d.allocator := Allocator.Ahead.eq_of_allocate h ha
    rw [hsame]
    exact checksFirst_throw _
  | some id => exact Succeeds.checksFirst ⟨id, _, rfl⟩

theorem checksFirst_delete (d : Document) (id : BlockId) (cascade : Bool) :
    (delete id cascade).ChecksFirst d :=
  checksFirst_get_bind <| checksFirst_ite_throw fun _ => checksFirst_ofExcept_bind fun _ _ =>
    checksFirst_ite_throw fun _ => Succeeds.checksFirst ⟨_, _, rfl⟩

theorem checksFirst_deleteOnly (d : Document) (id : BlockId) : (deleteOnly id).ChecksFirst d := by
  refine checksFirst_get_bind <| checksFirst_ite_throw fun _ =>
    checksFirst_ofExcept_bind fun _ _ => ?_
  cases d.parent? id with
  | none => exact checksFirst_throw _
  | some p => exact Succeeds.checksFirst ⟨_, _, rfl⟩

theorem checksFirst_move (d : Document) (id parent : BlockId) (position : Option Nat) :
    (move id parent position).ChecksFirst d :=
  checksFirst_get_bind <| checksFirst_ofExcept_bind fun _ _ => Succeeds.checksFirst ⟨_, _, rfl⟩

theorem checksFirst_moveBeside (d : Document) (id anchor : BlockId) (offset : Nat) :
    (moveBeside id anchor offset).ChecksFirst d := by
  refine checksFirst_get_bind <| checksFirst_require_bind fun _ _ =>
    checksFirst_ite_throw fun _ => checksFirst_ite_throw fun _ => ?_
  cases d.parent? anchor with
  | none => exact checksFirst_throw _
  | some p => exact checksFirst_ofExcept_bind fun _ _ => Succeeds.checksFirst ⟨_, _, rfl⟩

theorem succeeds_prune (d : Document) : prune.Succeeds d := ⟨_, _, rfl⟩

end Edit

end BlockDocument
