import BlockDocument.Proofs.Document.Change
import BlockDocument.Proofs.Document.Upkeep
import BlockDocument.Proofs.Json.Reread
import BlockDocument.Proofs.Time.Rfc3339

/-!
# Numbers and times within their ranges

The numbers of a document are machine words and its times are those of a calendar: the integers of a
JSON content have at most 64 bits, an estimate of tokens at most 32, and the year of a recorded time
is one that can be written. Edits keep a document within these ranges if what they are given lies
within them.
-/

namespace BlockDocument

-- Powers are those of the core library, whatever else is imported.
attribute [local instance (high)] instPowNat

/-! ## Ranges -/

/-- Whether a recorded time lies within the range of times. -/
def Stamp.Ranged : Stamp → Prop
  | .recorded time => time.Ranged
  | .current => True

/-- Whether the integers of a JSON content have at most 64 bits. -/
def Content.Ranged : Content → Prop
  | .json v => v.Ranged
  | _ => True

/-- Metadata with an estimate of at most 32 bits and times within their range. -/
structure Metadata.Ranged (m : Metadata) : Prop where
  tokenEstimate : ∀ n ∈ m.tokenEstimate, n < 2 ^ (32 : Nat)
  created : m.created.Ranged
  modified : m.modified.Ranged

/-- A block whose parts are within their ranges. -/
structure Block.Ranged (b : Block) : Prop where
  content : b.content.Ranged
  metadata : b.metadata.Ranged
  edges : ∀ e ∈ b.edges, e.created.Ranged

namespace Document

/-- Every block is within its ranges. -/
def Ranged (d : Document) : Prop := ∀ id b, d.block? id = some b → b.Ranged

end Document

/-! ## Contents that are read -/

theorem Content.ranged_of_ofText? {kind : ContentKind} {raw language : String} {c : Content}
    (h : ofText? kind raw language = some c) : c.Ranged := by
  cases kind with
  | text | code | table | math =>
    cases h
    trivial
  | json =>
    obtain ⟨v, hv, rfl⟩ := Option.map_eq_some_iff.mp h
    exact Json.Value.ranged_of_parse? hv

theorem Content.ranged_of_read {kind : ContentKind} {raw language : String} {c : Content}
    (h : read kind raw language = .ok c) : c.Ranged := by
  rw [read] at h
  split at h
  · rename_i c' hc
    cases h
    exact ranged_of_ofText? hc
  · cases h

/-! ## Changes to a block -/

namespace Metadata.Ranged

variable {m : Metadata}

/-- Metadata are ranged if they have no estimate and no recorded times. -/
theorem of_current {role : Option Role} {label : Option String} :
    Metadata.Ranged { role, label } :=
  ⟨by rintro n ⟨⟩, trivial, trivial⟩

theorem touch (h : m.Ranged) : m.touch.Ranged := ⟨h.tokenEstimate, h.created, trivial⟩

end Metadata.Ranged

namespace Block.Ranged

variable {b : Block}

theorem annotate (h : b.Ranged) {f : Metadata → Metadata} (hf : ∀ m, m.Ranged → (f m).Ranged) :
    (b.annotate f).Ranged :=
  ⟨h.content, (hf b.metadata h.metadata).touch, h.edges⟩

theorem touch (h : b.Ranged) : b.touch.Ranged := h.annotate fun _ hm => hm

theorem withChildren (h : b.Ranged) (children : List BlockId) : { b with children }.Ranged :=
  ⟨h.content, h.metadata, h.edges⟩

theorem withContent (h : b.Ranged) {c : Content} (hc : c.Ranged) : (b.withContent c).Ranged := by
  have hb : Block.Ranged { b with content := c } := ⟨hc, h.metadata, h.edges⟩
  exact hb.annotate fun m hm => ⟨by rintro n ⟨⟩, hm.created, hm.modified⟩

theorem withEdges (h : b.Ranged) {edges : List Edge} (hedges : ∀ e ∈ edges, e.created.Ranged) :
    { b with edges }.Ranged :=
  ⟨h.content, h.metadata, hedges⟩

theorem withAttribute (h : b.Ranged) (name : String) (value : Attribute) :
    (b.withAttribute name value).Ranged :=
  h.annotate fun _ hm => ⟨hm.tokenEstimate, hm.created, hm.modified⟩

end Block.Ranged

/-! ## Changes to a document -/

namespace Document.Ranged

variable {d : Document}

theorem create (a : Allocator) : (create a).Ranged := by
  intro q b hb
  rw [block?_create] at hb
  split_ifs at hb
  cases hb
  exact ⟨trivial, .of_current, by rintro e ⟨⟩⟩

theorem withBlock (h : d.Ranged) (id : BlockId) {f : Block → Block}
    (hf : ∀ b, b.Ranged → (f b).Ranged) : (d.withBlock id f).Ranged := by
  intro q b hb
  rw [block?_withBlock] at hb
  split_ifs at hb
  · obtain ⟨b', hb', rfl⟩ := Option.map_eq_some_iff.mp hb
    exact hf b' (h q b' hb')
  · exact h q b hb

theorem touch (h : d.Ranged) (id : BlockId) : (d.touch id).Ranged := h.withBlock id fun _ => .touch

theorem withChildren (h : d.Ranged) (p : BlockId) (cs : List BlockId) :
    (d.withChildren p cs).Ranged := by
  intro q b hb
  rw [block?_withChildren] at hb
  split_ifs at hb
  · obtain ⟨b', hb', rfl⟩ := Option.map_eq_some_iff.mp hb
    exact ((h q b' hb').withChildren cs).touch
  · exact h q b hb

theorem detach (h : d.Ranged) (id : BlockId) : (d.detach id).Ranged := by
  rw [Document.detach]
  cases d.parent? id with
  | none => exact h
  | some p => exact h.withChildren p _

theorem attach (h : d.Ranged) (id parent : BlockId) (position : Nat) :
    (d.attach id parent position).Ranged :=
  (h.withChildren parent _).touch id

theorem restrict (h : d.Ranged) (keep : BlockId → Bool) : (d.restrict keep).Ranged := by
  intro q b hb
  rw [block?_restrict] at hb
  split_ifs at hb
  exact h q b hb

theorem eraseAll (h : d.Ranged) (ids : List BlockId) : (d.eraseAll ids).Ranged := by
  rw [eraseAll_eq_restrict]
  exact h.restrict _

theorem withLeaf (h : d.Ranged) (id : BlockId) {b : Block} (hb : b.Ranged) :
    (d.withLeaf id b).Ranged := by
  intro q b' hb'
  rw [block?_withLeaf] at hb'
  split_ifs at hb'
  · cases hb'
    exact hb
  · exact h q b' hb'

theorem after_update (h : d.Ranged) (id : BlockId) {f : Block → Block}
    (hf : ∀ b, b.Ranged → (f b).Ranged) : ((Edit.update id f).after d).Ranged := by
  rw [Edit.update, Edit.after_require_bind]
  cases d.block? id with
  | none => exact h
  | some b => exact h.withBlock id hf

theorem after_addEdge (h : d.Ranged) (source : BlockId) {edge : Edge} (he : edge.created.Ranged) :
    ((Edit.addEdge source edge).after d).Ranged := by
  rw [Edit.addEdge, Edit.after_require_bind]
  cases d.block? source with
  | none => exact h
  | some b =>
    simp only [Edit.after_ite, Edit.after_pure, Edit.after_bind_pure]
    split
    · exact h
    · refine h.after_update source fun b hb => (hb.withEdges fun e hmem => ?_).touch
      rcases List.mem_append.mp hmem with hmem | hmem
      · exact hb.edges e hmem
      · exact List.mem_singleton.mp hmem ▸ he

theorem after_removeEdge (h : d.Ranged) (source : BlockId) (relation : Relation)
    (target : BlockId) : ((Edit.removeEdge source relation target).after d).Ranged := by
  rw [Edit.removeEdge, Edit.after_require_bind]
  cases d.block? source with
  | none => exact h
  | some b =>
    simp only [Edit.after_ite, Edit.after_pure, Edit.after_bind_pure]
    split
    · exact h.after_update source fun b hb =>
        (hb.withEdges fun e he => hb.edges e (List.mem_of_mem_filter he)).touch
    · exact h

theorem after_annotateTags (h : d.Ranged) (id : BlockId)
    (f : Std.ExtTreeSet String → Std.ExtTreeSet String) :
    ((Edit.annotate id fun m => { m with tags := f m.tags }).after d).Ranged :=
  h.after_update id fun _ hb =>
    hb.annotate fun _ hm => ⟨hm.tokenEstimate, hm.created, hm.modified⟩

theorem after_addTag (h : d.Ranged) (id : BlockId) (tag : String) :
    ((Edit.addTag id tag).after d).Ranged := by
  rw [Edit.addTag, Edit.after_require_bind]
  cases d.block? id with
  | none => exact h
  | some b =>
    simp only [Edit.after_ite, Edit.after_pure, Edit.after_bind_pure]
    split
    · exact h
    · exact h.after_annotateTags id fun tags => tags.insert tag

theorem after_removeTag (h : d.Ranged) (id : BlockId) (tag : String) :
    ((Edit.removeTag id tag).after d).Ranged := by
  rw [Edit.removeTag, Edit.after_require_bind]
  cases d.block? id with
  | none => exact h
  | some b =>
    simp only [Edit.after_ite, Edit.after_pure, Edit.after_bind_pure]
    split
    · exact h.after_annotateTags id fun tags => tags.erase tag
    · exact h

theorem after_add (h : d.Ranged) (parent : BlockId) {content : Content} (hc : content.Ranged)
    (role : Option Role) (label : Option String) (position : Option Nat) :
    ((Edit.add parent content role label position).after d).Ranged := by
  simp only [Edit.add, Edit.after_require_bind]
  cases d.block? parent with
  | none => exact h
  | some b =>
    simp only [Edit.after_get_bind]
    rcases d.allocator.allocate content role d.contains with ⟨id?, a⟩
    cases id? with
    | none => exact h
    | some id =>
      have hleaf : (d.withLeaf id { id, content, metadata := { role, label } }).Ranged :=
        h.withLeaf id ⟨hc, .of_current, by rintro e ⟨⟩⟩
      exact hleaf.withChildren parent _

end Document.Ranged

/-! ## Edits -/

/-- What a change is given lies within the ranges. -/
def Change.Ranged : Change → Prop
  | add _ content _ _ _ => content.Ranged
  | setContent _ content => content.Ranged
  | addEdge _ edge => edge.created.Ranged
  | annotate _ f => ∀ m, m.Ranged → (f m).Ranged
  | _ => True

/-- **Edits keep to the ranges.** -/
theorem Document.Ranged.after {d : Document} (h : d.Ranged) {c : Change} (hc : c.Ranged) :
    (c.after d).Ranged := by
  have same_or_moved {d' : Document} (hm : d' = d ∨ ∃ id p, Edit.Moved id p d d') : d'.Ranged := by
    rcases hm with rfl | ⟨id, p, hm⟩
    · exact h
    · obtain ⟨n, rfl⟩ := hm.eq
      exact (h.detach id).attach id p n
  cases c with
  | add parent content role label position => exact h.after_add parent hc role label position
  | setContent id content => exact h.after_update id fun b hb => hb.withContent hc
  | delete id cascade =>
    rcases Edit.after_delete d id cascade with he | ⟨-, he⟩
    · rwa [Change.after, he]
    · rw [Change.after, he]
      exact (h.detach id).eraseAll _
  | deleteOnly id =>
    rcases Edit.after_deleteOnly d id with he | ⟨p, -, -, he⟩
    · rwa [Change.after, he]
    · rw [Change.after, he]
      exact (h.withChildren p _).eraseAll _
  | move id parent position =>
    exact same_or_moved ((Edit.after_move d id parent position).imp_right fun h => ⟨_, _, h⟩)
  | moveBefore id anchor =>
    exact same_or_moved ((Edit.after_moveBeside d id anchor 0).imp_right fun h => ⟨_, h⟩)
  | moveAfter id anchor =>
    exact same_or_moved ((Edit.after_moveBeside d id anchor 1).imp_right fun h => ⟨_, h⟩)
  | prune => exact h.restrict _
  | addEdge source edge => exact h.after_addEdge source hc
  | removeEdge source relation target => exact h.after_removeEdge source relation target
  | addTag id tag => exact h.after_addTag id tag
  | removeTag id tag => exact h.after_removeTag id tag
  | annotate id f => exact h.after_update id fun b hb => hb.annotate hc
  | setAttribute id name value => exact h.after_update id fun b hb => hb.withAttribute name value

theorem Document.Ranged.run {d : Document} (h : d.Ranged) {changes : List Change}
    (hc : ∀ c ∈ changes, c.Ranged) : (Change.run d changes).Ranged := by
  induction changes generalizing d with
  | nil => exact h
  | cons c changes ih =>
    obtain ⟨hc, hchanges⟩ := List.forall_mem_cons.mp hc
    exact ih (h.after hc) hchanges

end BlockDocument
