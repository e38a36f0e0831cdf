import BlockDocument.Proofs.Inspection.Precheck
import BlockDocument.Proofs.Limits

/-!
# How far a mutation lets a document grow

A document may exceed its limits before any mutation, as one that was loaded can. What the checks of a
mutation measure then grows no further: a measure that is beyond its limit afterwards was at least as
great before (`Limits.Confines`).

A limit on single blocks is about the one block that a mutation changes. The number of blocks and the
depth are measures of the whole document. Under limits that are raised to what they are, the document
is within its limits, and the mutation is still carried out.
-/

namespace BlockDocument

/-- A measure that is within a bound afterwards, or no greater than before. -/
def Kept (bound : Option Nat) (before after : Nat) : Prop :=
  (∀ b ∈ bound, after ≤ b) ∨ after ≤ before

namespace Kept

variable {bound : Option Nat} {before now after : Nat}

theorem of_le (h : after ≤ before) : Kept bound before after := .inr h

theorem within (h : ∀ b ∈ bound, after ≤ b) : Kept bound before after := .inl h

theorem trans (h : Kept bound before now) (h' : Kept bound now after) : Kept bound before after := by
  rcases h' with h' | h'
  · exact .within h'
  · rcases h with h | h
    · exact .within fun b hb => Nat.le_trans h' (h b hb)
    · exact .of_le (Nat.le_trans h' h)

/-- A measure is kept if it is within the bound raised to what it was. -/
theorem of_max (h : ∀ b ∈ bound.map (max before), after ≤ b) : Kept bound before after := by
  cases bound with
  | none => exact .within (by rintro b ⟨⟩)
  | some b =>
    have hmax : after ≤ max before b := h _ rfl
    by_cases hle : after ≤ before
    · exact .of_le hle
    · refine .within fun b' hb' => ?_
      obtain rfl : b = b' := Option.some.inj hb'
      omega

end Kept

/-! ## Measures -/

namespace Document

/-- The bytes of the content of a block, none where there is no block. -/
def contentSize (d : Document) (id : BlockId) : Nat :=
  ((d.block? id).map fun b => b.content.byteSize).getD 0

/-- The number of edges that leave a block, none where there is no block. -/
def edgeCount (d : Document) (id : BlockId) : Nat :=
  ((d.block? id).map fun b => b.edges.length).getD 0

/-- The greatest level of a block that the root leads to. -/
def greatestDepth (d : Document) : Nat := (d.deepest?.map Prod.snd).getD 0

variable {d d' d'' : Document}

theorem contentSize_of_block? {id : BlockId} {b : Block} (h : d.block? id = some b) :
    d.contentSize id = b.content.byteSize := by
  rw [contentSize, h, Option.map_some, Option.getD_some]

theorem edgeCount_of_block? {id : BlockId} {b : Block} (h : d.block? id = some b) :
    d.edgeCount id = b.edges.length := by
  rw [edgeCount, h, Option.map_some, Option.getD_some]

theorem contentSize_of_absent {id : BlockId} (h : d.block? id = none) : d.contentSize id = 0 := by
  rw [contentSize, h, Option.map_none, Option.getD_none]

theorem edgeCount_of_absent {id : BlockId} (h : d.block? id = none) : d.edgeCount id = 0 := by
  rw [edgeCount, h, Option.map_none, Option.getD_none]

/-- In a forest the greatest level is the length of the longest way down from the root. -/
theorem IsForest.greatestDepth_le_iff (h : d.IsForest) {n : Nat} :
    d.greatestDepth ≤ n ↔ ∀ id, d.contains id = true → ∀ k,
      Distance d.childrenOf d.root id k → k ≤ n := by
  have hissues := Limits.depthIssues_eq_nil (l := { depth := some n }) h
  have hdeepest : (d.deepest?.bind fun e => Limits.depthIssue { depth := some n } e.2 e.1) = none ↔
      d.greatestDepth ≤ n := by
    rw [greatestDepth]
    cases d.deepest? with
    | none => simp
    | some e =>
      simp [Limits.depthIssue, exceeded?_eq_none]
  rw [← hdeepest, hissues]
  simp

end Document

/-! ## Blocks -/

namespace Limits

/-- No block gets beyond a limit on single blocks, or further beyond it. -/
structure ConfinesBlocks (l : Limits) (d d' : Document) : Prop where
  blockSize : ∀ id, Kept l.blockSize (d.contentSize id) (d'.contentSize id)
  edges : ∀ id, Kept l.edges (d.edgeCount id) (d'.edgeCount id)

namespace ConfinesBlocks

open Document

variable {l : Limits} {d d' d'' : Document}

theorem refl (d : Document) : l.ConfinesBlocks d d :=
  ⟨fun _ => .of_le (Nat.le_refl _), fun _ => .of_le (Nat.le_refl _)⟩

theorem trans (h : l.ConfinesBlocks d d') (h' : l.ConfinesBlocks d' d'') :
    l.ConfinesBlocks d d'' :=
  ⟨fun id => (h.blockSize id).trans (h'.blockSize id), fun id => (h.edges id).trans (h'.edges id)⟩

theorem of_partOf (h : d'.PartOf d) : l.ConfinesBlocks d d' := by
  have block (id : BlockId) :
      d'.contentSize id ≤ d.contentSize id ∧ d'.edgeCount id ≤ d.edgeCount id := by
    cases hb' : d'.block? id with
    | none =>
      rw [contentSize_of_absent hb', edgeCount_of_absent hb']
      exact ⟨Nat.zero_le _, Nat.zero_le _⟩
    | some b' =>
      obtain ⟨b, hb, hcontent, hedges⟩ := h id b' hb'
      rw [contentSize_of_block? hb', edgeCount_of_block? hb', contentSize_of_block? hb,
        edgeCount_of_block? hb, hcontent, hedges]
      exact ⟨Nat.le_refl _, Nat.le_refl _⟩
  exact ⟨fun id => .of_le (block id).1, fun id => .of_le (block id).2⟩

/-- A change to one block is confined if that block is. -/
theorem withBlock {id : BlockId} {b : Block} (hb : d.block? id = some b) {f : Block → Block}
    (hsize : Kept l.blockSize b.content.byteSize (f b).content.byteSize)
    (hedges : Kept l.edges b.edges.length (f b).edges.length) :
    l.ConfinesBlocks d (d.withBlock id f) := by
  have hself : (d.withBlock id f).block? id = some (f b) := by
    rw [block?_withBlock, if_pos rfl, hb, Option.map_some]
  have hother {q : BlockId} (hq : q ≠ id) : (d.withBlock id f).block? q = d.block? q := by
    rw [block?_withBlock, if_neg fun h => hq h.symm]
  refine ⟨fun q => ?_, fun q => ?_⟩
  · by_cases hq : q = id
    · subst hq
      rwa [contentSize_of_block? hb, contentSize_of_block? hself]
    · rw [contentSize, contentSize, hother hq]
      exact .of_le (Nat.le_refl _)
  · by_cases hq : q = id
    · subst hq
      rwa [edgeCount_of_block? hb, edgeCount_of_block? hself]
    · rw [edgeCount, edgeCount, hother hq]
      exact .of_le (Nat.le_refl _)

/-- A new block has no edges. -/
theorem withLeaf (d : Document) (id : BlockId) {b : Block}
    (hsize : ∀ bound ∈ l.blockSize, b.content.byteSize ≤ bound) (hedges : b.edges = []) :
    l.ConfinesBlocks d (d.withLeaf id b) := by
  refine ⟨fun q => ?_, fun q => ?_⟩
  · rw [contentSize, contentSize, block?_withLeaf]
    split
    · exact .within hsize
    · exact .of_le (Nat.le_refl _)
  · rw [edgeCount, edgeCount, block?_withLeaf]
    split
    · refine .of_le ?_
      simp [hedges]
    · exact .of_le (Nat.le_refl _)

/-! ### Edits -/

theorem add {parent id : BlockId} {content : Content} {role : Option Role} {label : Option String}
    {position : Option Nat} {u : Unit} (hcheck : d.checkAdd l parent content = .ok u)
    (he : Edit.add parent content role label position d = .ok id d') : l.ConfinesBlocks d d' := by
  obtain ⟨-, a, -, rfl⟩ := Edit.add_eq_ok he
  obtain ⟨-, -, hbytes⟩ := checkAdd_eq_ok hcheck
  have hleaf : l.ConfinesBlocks (d.withAllocator a)
      ((d.withAllocator a).withLeaf id { id, content, metadata := { role, label } }) :=
    withLeaf _ id hbytes rfl
  -- the allocator is not measured
  have hleaf : l.ConfinesBlocks d
      ((d.withAllocator a).withLeaf id { id, content, metadata := { role, label } }) :=
    ⟨hleaf.blockSize, hleaf.edges⟩
  exact hleaf.trans (of_partOf (.withChildren _ parent _))

theorem addDraft {parent id : BlockId} {position : Option Nat} {draft : Draft} {u : Unit}
    (hcheck : d.checkAdd l parent draft.content = .ok u)
    (he : Edit.addDraft parent position draft d = .ok id d') : l.ConfinesBlocks d d' := by
  obtain ⟨d₁, f, hadd, rfl⟩ := Edit.addDraft_eq_ok he
  exact (add hcheck hadd).trans (of_partOf (.withBlock d₁ id (fun _ => rfl) fun _ => rfl))

theorem setField {id : BlockId} {field : Field} {value : String} {u : Unit}
    (he : Edit.setField l id field value d = .ok u d') : l.ConfinesBlocks d d' := by
  rcases Edit.setField_eq_ok he with ⟨f, rfl⟩ | ⟨b, c, hb, rfl, hsize⟩
  · exact of_partOf (.withBlock d id (fun _ => rfl) fun _ => rfl)
  · exact withBlock hb hsize (.of_le (Nat.le_refl _))

theorem moveTo {id : BlockId} {place : Place BlockId} {u : Unit}
    (he : Edit.moveTo id place d = .ok u d') : l.ConfinesBlocks d d' := by
  obtain ⟨p, n, -, -, rfl⟩ := Edit.moveTo_eq_ok he
  exact of_partOf (.moved d id p n)

theorem addEdge {source target : BlockId} {relation : Relation} {note : Note} {u : Unit}
    {added : Bool} (hcheck : d.checkEdge l source relation target = .ok u)
    (he : Edit.addEdge source { relation, target, note } d = .ok added d') :
    l.ConfinesBlocks d d' := by
  obtain ⟨b, hb, rfl, rfl⟩ := Edit.addEdge_eq_ok he
  split
  · rename_i hnew
    refine withBlock hb (.of_le (Nat.le_refl _)) (.within fun bound hbound => ?_)
    have hroom := room_of_checkEdge hb hcheck hnew bound hbound
    simpa [Block.touch, Block.annotate] using hroom
  · exact refl d

theorem removeEdge {source target : BlockId} {relation : Relation} {removed : Bool}
    (he : Edit.removeEdge source relation target d = .ok removed d') : l.ConfinesBlocks d d' := by
  obtain ⟨b, hb, -, rfl⟩ := Edit.removeEdge_eq_ok he
  split
  · exact withBlock hb (.of_le (Nat.le_refl _)) (.of_le (List.length_filter_le ..))
  · exact refl d

end ConfinesBlocks

end Limits

open Document in
/-- What a mutation checks is the one block that it is about, and it adds to no other. -/
theorem Mutation.confinesBlocks_apply {l : Limits} {m : Mutation} {d d' : Document}
    {outcome : Outcome} (h : m.apply l d = .ok outcome d') : l.ConfinesBlocks d d' := by
  -- additions to a block were checked, and all else is a part of the document
  cases apply_eq_ok_iff.mp h with
  | add hcheck hadd => exact .addDraft hcheck hadd
  | set _ hset => exact .setField hset
  | @delete id children removed hdelete =>
    cases children with
    | none => exact .of_partOf (.of_delete hdelete)
    | deleted => exact .of_partOf (.of_delete hdelete)
    | kept => exact .of_partOf (.of_deleteOnly hdelete)
  | move _ hmove => exact .moveTo hmove
  | addEdge hcheck hadd => exact .addEdge hcheck hadd
  | removeEdge hremove => exact .removeEdge hremove
  | addTag hadd =>
    obtain ⟨b, -, -, rfl⟩ := Edit.addTag_eq_ok hadd
    split
    · exact .of_partOf (.withBlock d _ (fun _ => rfl) fun _ => rfl)
    · exact .refl d
  | removeTag hremove =>
    obtain ⟨b, -, -, rfl⟩ := Edit.removeTag_eq_ok hremove
    split
    · exact .of_partOf (.withBlock d _ (fun _ => rfl) fun _ => rfl)
    · exact .refl d
  | prune hprune => exact .of_partOf (.of_prune hprune)

/-! ## Documents -/

namespace Limits

/-- Nothing that a mutation checks gets beyond a limit, or further beyond it. -/
structure Confines (l : Limits) (d d' : Document) : Prop extends l.ConfinesBlocks d d' where
  blocks : Kept l.blocks d.size d'.size
  depth : Kept l.depth d.greatestDepth d'.greatestDepth

variable {l : Limits} {d d' d'' : Document}

theorem Confines.refl (d : Document) : l.Confines d d :=
  ⟨.refl d, .of_le (Nat.le_refl _), .of_le (Nat.le_refl _)⟩

theorem Confines.trans (h : l.Confines d d') (h' : l.Confines d' d'') : l.Confines d d'' :=
  ⟨h.toConfinesBlocks.trans h'.toConfinesBlocks, h.blocks.trans h'.blocks, h.depth.trans h'.depth⟩

/-- The limits on the number of blocks and on depth, raised to what a document has. -/
def raised (l : Limits) (d : Document) : Limits where
  blocks := l.blocks.map (max d.size)
  depth := l.depth.map (max d.greatestDepth)

theorem bounded_max (bound : Option Nat) (n : Nat) : Bounded bound (bound.map (max n)) := by
  intro b' hb'
  obtain ⟨b, hb, rfl⟩ := Option.map_eq_some_iff.mp hb'
  exact ⟨b, hb, Nat.le_max_right n b⟩

theorem le_raised (l : Limits) (d : Document) : l.Le (l.raised d) :=
  ⟨bounded_max _ _, bounded_max _ _, .absent _, .absent _, .absent _⟩

theorem hold_raised (l : Limits) (hd : d.IsForest) : (l.raised d).Hold d where
  blocks bound hb := by
    obtain ⟨b, -, rfl⟩ := Option.map_eq_some_iff.mp hb
    exact Nat.le_max_left _ b
  depth bound hb := by
    obtain ⟨b, -, rfl⟩ := Option.map_eq_some_iff.mp hb
    exact hd.greatestDepth_le_iff.mp (Nat.le_max_left _ b)
  blockSize := by rintro bound ⟨⟩
  documentSize := by rintro bound ⟨⟩
  edges := by rintro bound ⟨⟩

end Limits

/-- A mutation that passes its checks leaves nothing beyond its limit that was not so far beyond it
before. -/
theorem Mutation.confines_apply {l : Limits} {m : Mutation} {d d' : Document} {outcome : Outcome}
    (hd : d.IsForest) (h : m.apply l d = .ok outcome d') : l.Confines d d' := by
  have hraised : m.apply (l.raised d) d = .ok outcome d' := apply_of_le (l.le_raised d) h
  have hhold : (l.raised d).Hold d' := hold_apply rfl hd (l.hold_raised hd) hraised
  refine ⟨confinesBlocks_apply h, .of_max hhold.blocks, .of_max fun bound hb => ?_⟩
  exact (isForest_apply hd h).greatestDepth_le_iff.mpr (hhold.depth bound hb)

end BlockDocument
