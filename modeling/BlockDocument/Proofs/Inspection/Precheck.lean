import BlockDocument.Proofs.Applied
import BlockDocument.Proofs.Document.Depth
import BlockDocument.Proofs.Document.Success
import BlockDocument.Proofs.Execution.Grouping
import BlockDocument.Proofs.Inspection.Validity
import BlockDocument.Proofs.Mutation

/-!
# Checks before a change and the inspection after it

A mutation is checked against the limits before it changes anything, on the measures of the document
as it is: a climb from the new parent, a walk below the block that moves, the size of one content, the
number of edges of one block. An inspection afterwards measures the whole document again. On valid
documents the first is as strong as the second: what passes the checks leaves a valid document
(`Mutation.hold_apply`), unless the size of all contents is bounded, which no check looks at.

For each edit there is one lemma that says that limits still hold. Edits that only take away need no
check: what is left is part of what was there (`Document.PartOf`) and no deeper.
-/

namespace BlockDocument

open Std (ExtTreeMap)

namespace Document

variable {d d' d'' : Document}

/-! ## What stays the same -/

/-- A document whose blocks are among those of another one, with their contents and their edges. -/
def PartOf (d' d : Document) : Prop :=
  ∀ id b', d'.block? id = some b' →
    ∃ b, d.block? id = some b ∧ b'.content = b.content ∧ b'.edges = b.edges

namespace PartOf

theorem refl (d : Document) : d.PartOf d := fun _ b h => ⟨b, h, rfl, rfl⟩

theorem trans (h : d''.PartOf d') (h' : d'.PartOf d) : d''.PartOf d := by
  intro id b'' hb''
  obtain ⟨b', hb', hc', he'⟩ := h id b'' hb''
  obtain ⟨b, hb, hc, he⟩ := h' id b' hb'
  exact ⟨b, hb, hc'.trans hc, he'.trans he⟩

theorem withBlock (d : Document) (id : BlockId) {f : Block → Block}
    (hc : ∀ b, (f b).content = b.content) (he : ∀ b, (f b).edges = b.edges) :
    (d.withBlock id f).PartOf d := by
  intro q b' hb'
  rw [block?_withBlock] at hb'
  split at hb'
  · obtain ⟨b, hb, rfl⟩ := Option.map_eq_some_iff.mp hb'
    exact ⟨b, hb, hc b, he b⟩
  · exact ⟨b', hb', rfl, rfl⟩

theorem withChildren (d : Document) (p : BlockId) (cs : List BlockId) :
    (d.withChildren p cs).PartOf d := by
  intro q b' hb'
  rw [block?_withChildren] at hb'
  split at hb'
  · obtain ⟨b, hb, rfl⟩ := Option.map_eq_some_iff.mp hb'
    exact ⟨b, hb, rfl, rfl⟩
  · exact ⟨b', hb', rfl, rfl⟩

theorem restrict (d : Document) (keep : BlockId → Bool) : (d.restrict keep).PartOf d := by
  intro q b' hb'
  rw [block?_restrict] at hb'
  split at hb'
  · exact ⟨b', hb', rfl, rfl⟩
  · cases hb'

theorem detach (d : Document) (id : BlockId) : (d.detach id).PartOf d := by
  rw [Document.detach]
  split
  · exact withChildren d _ _
  · exact refl d

theorem attach (d : Document) (id p : BlockId) (n : Nat) : (d.attach id p n).PartOf d :=
  (withBlock (f := Block.touch) _ id (fun _ => rfl) fun _ => rfl).trans (withChildren d p _)

theorem moved (d : Document) (id p : BlockId) (n : Nat) : ((d.detach id).attach id p n).PartOf d :=
  (attach (d.detach id) id p n).trans (detach d id)

theorem of_delete {id : BlockId} {cascade : Bool} {removed : List BlockId}
    (he : Edit.delete id cascade d = .ok removed d') : d'.PartOf d := by
  obtain ⟨-, -, -, -, rfl⟩ := Edit.delete_eq_ok he
  rw [eraseAll_eq_restrict]
  exact (restrict _ _).trans (detach d id)

theorem of_deleteOnly {id : BlockId} {removed : List BlockId}
    (he : Edit.deleteOnly id d = .ok removed d') : d'.PartOf d := by
  obtain ⟨-, -, -, p, -, rfl⟩ := Edit.deleteOnly_eq_ok he
  rw [eraseAll_eq_restrict]
  exact (restrict _ _).trans (withChildren d p _)

theorem of_prune {removed : List BlockId} (he : Edit.prune d = .ok removed d') : d'.PartOf d := by
  obtain ⟨-, rfl⟩ := Edit.prune_eq_ok he
  exact restrict d _

/-- A part has no more blocks. -/
theorem size_le (h : d'.PartOf d) : d'.size ≤ d.size := by
  have hsub : d'.blocks.keys ⊆ d.blocks.keys := by
    intro id hid
    rw [ExtTreeMap.mem_keys] at hid ⊢
    obtain ⟨b', hb'⟩ := contains_iff.mp (ExtTreeMap.contains_iff_mem.mpr hid)
    obtain ⟨b, hb, -⟩ := h id b' hb'
    exact ExtTreeMap.contains_iff_mem.mp (contains_iff.mpr ⟨b, hb⟩)
  rw [size, size, ← ExtTreeMap.length_keys, ← ExtTreeMap.length_keys]
  exact (ExtTreeMap.nodup_keys.subperm hsub).length_le

end PartOf

theorem size_withBlock (d : Document) (id : BlockId) (f : Block → Block) :
    (d.withBlock id f).size = d.size :=
  ExtTreeMap.size_modify

theorem IsForest.run (h : d.IsForest) (changes : List Change) :
    (Change.run d changes).IsForest := by
  induction changes generalizing d with
  | nil => exact h
  | cons c changes ih => exact ih (h.after c)

end Document

/-- A mutation leaves a forest a forest. -/
theorem Mutation.isForest_apply {limits : Limits} {m : Mutation} {d d' : Document}
    {outcome : Outcome} (hd : d.IsForest) (h : m.apply limits d = .ok outcome d') :
    d'.IsForest := by
  obtain ⟨changes, hc⟩ := m.runs_apply limits d
  rw [Edit.after, h] at hc
  rw [show d' = Change.run d changes from hc]
  exact hd.run changes

/-! ## What the checks accept -/

namespace Document

variable {l : Limits} {d : Document}

theorem checkAdd_eq_ok {parent : BlockId} {content : Content} {u : Unit}
    (h : d.checkAdd l parent content = .ok u) :
    (∀ bound ∈ l.blocks, d.size + 1 ≤ bound) ∧
      (∀ depth, d.depth? parent = some depth → ∀ bound ∈ l.depth, depth + 1 ≤ bound) ∧
      ∀ bound ∈ l.blockSize, content.byteSize ≤ bound := by
  rw [checkAdd, require_eq] at h
  cases hp : d.block? parent with
  | none => simp [hp, bind, Except.bind] at h
  | some b =>
    simp only [hp, bind, Except.bind] at h
    have hnone := requireNone_eq_ok h
    simp only [List.append_eq_nil_iff, Option.toList_eq_nil_iff, Limits.blockCountIssue,
      Limits.depthIssue, Limits.blockSizeIssue, Option.map_eq_none_iff, exceeded?_eq_none] at hnone
    obtain ⟨⟨hcount, hdepth⟩, hbytes⟩ := hnone
    refine ⟨hcount, fun depth hdep => ?_, hbytes⟩
    simpa only [hdep, Option.bind_some, Option.map_eq_none_iff, exceeded?_eq_none] using hdepth

theorem checkDepth_eq_ok {id parent : BlockId} {u : Unit} (h : d.checkDepth l id parent = .ok u)
    {depth : Nat} (hdepth : d.depth? parent = some depth) :
    ∀ bound ∈ l.depth, depth + 1 + d.height id ≤ bound := by
  have hnone := requireNone_eq_ok h
  simpa only [hdepth, Option.bind_some, Option.toList_eq_nil_iff, Limits.depthIssue,
    Option.map_eq_none_iff, exceeded?_eq_none] using hnone

theorem checkEdge_eq_ok {source target : BlockId} {relation : Relation} {u : Unit} {b : Block}
    (hb : d.block? source = some b) (h : d.checkEdge l source relation target = .ok u) :
    b.hasEdgeTo target (some relation) = true ∨
      ∀ bound ∈ l.edges, b.edges.length + 1 ≤ bound := by
  rw [checkEdge, require_eq, hb] at h
  simp only [bind, Except.bind] at h
  split at h
  · exact .inl ‹_›
  · have hnone := requireNone_eq_ok h
    refine .inr ?_
    simpa only [Option.toList_eq_nil_iff, Limits.edgeCountIssue, Option.map_eq_none_iff,
      exceeded?_eq_none] using hnone

/-- An edge that is new has passed the check on the number of edges. -/
theorem room_of_checkEdge {source target : BlockId} {relation : Relation} {note : Note} {u : Unit}
    {b : Block} (hb : d.block? source = some b)
    (h : d.checkEdge l source relation target = .ok u)
    (hnew : (!b.edges.any (·.sameEnds { relation, target, note })) = true) :
    ∀ bound ∈ l.edges, b.edges.length + 1 ≤ bound := by
  refine (checkEdge_eq_ok hb h).resolve_left fun hold => ?_
  obtain ⟨e, hmem, he⟩ := List.any_eq_true.mp hold
  have hsame : b.edges.any (·.sameEnds { relation, target, note }) = true :=
    List.any_eq_true.mpr ⟨e, hmem, by simpa [Edge.sameEnds, Edge.matches, and_comm] using he⟩
  simp [hsame] at hnew

end Document

/-- Setting a field annotates the block, or gives it a content that passed the check on its size or is
no larger than before. -/
theorem Edit.setField_eq_ok {l : Limits} {d d' : Document} {id : BlockId} {field : Field}
    {value : String} {u : Unit} (h : Edit.setField l id field value d = .ok u d') :
    (∃ f, d' = d.withBlock id (·.annotate f)) ∨
      ∃ b c, d.block? id = some b ∧ d' = d.withBlock id (·.withContent c) ∧
        ((∀ bound ∈ l.blockSize, c.byteSize ≤ bound) ∨ c.byteSize ≤ b.content.byteSize) := by
  obtain ⟨b, hb, h⟩ := Edit.require_bind_eq_ok h
  have annotated {f : Metadata → Metadata} {u : Unit} (h : Edit.annotate id f d = .ok u d') :
      ∃ f, d' = d.withBlock id (·.annotate f) := by
    obtain ⟨-, -, rfl⟩ := Edit.update_eq_ok h
    exact ⟨f, rfl⟩
  cases field with
  | text =>
    obtain ⟨c, -, h⟩ := Edit.ofExcept_bind_eq_ok h
    obtain ⟨u', hcheck, h⟩ := Edit.ofExcept_bind_eq_ok h
    obtain ⟨-, rfl⟩ := Edit.setContent_eq_ok h
    have hbytes := requireNone_eq_ok hcheck
    simp only [Option.toList_eq_nil_iff, Limits.blockSizeIssue, Option.map_eq_none_iff,
      exceeded?_eq_none] at hbytes
    exact .inr ⟨b, c, hb, rfl, .inl hbytes⟩
  | language =>
    cases hcontent : b.content with
    | code _ source =>
      rw [hcontent] at h
      obtain ⟨-, rfl⟩ := Edit.setContent_eq_ok h
      refine .inr ⟨b, .code value source, hb, rfl, .inr ?_⟩
      rw [hcontent]
      exact Nat.le_refl source.utf8ByteSize
    | _ =>
      rw [hcontent] at h
      cases h
  | label => exact .inl (annotated h)
  | role =>
    cases hname : nonBlank? value with
    | none =>
      rw [hname] at h
      exact .inl (annotated h)
    | some name =>
      rw [hname] at h
      obtain ⟨role, -, h⟩ := Edit.ofExcept_bind_eq_ok h
      exact .inl (annotated h)
  | tags => exact .inl (annotated h)
  | «attribute» name => exact .inl (annotated h)

/-! ## Limits on what stays the same -/

namespace Limits.Hold

open Document

variable {l : Limits} {d d' : Document}

/-- In a forest the limit on depth bounds the steps from the root. -/
theorem steps_le (h : l.Hold d) (hd : d.IsForest) {bound : Nat} (hb : bound ∈ l.depth) {id : BlockId}
    {k : Nat} (hk : Steps d.childrenOf d.root k id) : k ≤ bound :=
  h.depth bound hb id (hk.mem hd.root_mem hd.child_mem) k (hd.distance_iff.mpr hk)

theorem blockIssues (h : l.Hold d) {id : BlockId} {b : Block} (hb : d.block? id = some b) :
    l.blockIssues b = [] :=
  blockIssues_eq_nil.mpr ⟨fun bound hbound => h.blockSize bound hbound id b hb,
    fun bound hbound => h.edges bound hbound id b hb⟩

/-- Limits hold if each of them holds by itself; the size of all contents is not bounded. -/
theorem of_each (hsize : l.documentSize = none) (hcount : ∀ bound ∈ l.blocks, d.size ≤ bound)
    (hdepth : ∀ bound ∈ l.depth, ∀ id k, Steps d.childrenOf d.root k id → k ≤ bound)
    (hblocks : ∀ id b, d.block? id = some b → l.blockIssues b = []) : l.Hold d where
  blocks := hcount
  depth bound hb id _ k hk := hdepth bound hb id k hk.1
  blockSize bound hb id b hid := (blockIssues_eq_nil.mp (hblocks id b hid)).1 bound hb
  documentSize := by simp [hsize]
  edges bound hb id b hid := (blockIssues_eq_nil.mp (hblocks id b hid)).2 bound hb

/-- Limits hold on a part that is not too deep. -/
theorem of_partOf (h : l.Hold d) (hsize : l.documentSize = none) (hpart : d'.PartOf d)
    (hdepth : ∀ bound ∈ l.depth, ∀ id k, Steps d'.childrenOf d'.root k id → k ≤ bound) :
    l.Hold d' := by
  refine of_each hsize (fun bound hb => ?_) hdepth fun id b' hb' => ?_
  · exact Nat.le_trans hpart.size_le (h.blocks bound hb)
  · obtain ⟨b, hb, hcontent, hedges⟩ := hpart id b' hb'
    have hblock := h.blockIssues hb
    rw [blockIssues_eq_nil] at hblock ⊢
    rwa [hcontent, hedges]

/-- Limits hold on a part with the same root if every child was below its parent before. -/
theorem of_stretch (h : l.Hold d) (hd : d.IsForest) (hsize : l.documentSize = none)
    (hpart : d'.PartOf d) (hroot : d'.root = d.root)
    (hstep : ∀ p, ∀ c ∈ d'.childrenOf p, ∃ k, 1 ≤ k ∧ Steps d.childrenOf p k c) : l.Hold d' := by
  refine h.of_partOf hsize hpart fun bound hb id k hk => ?_
  rw [hroot] at hk
  obtain ⟨k', hle, hk'⟩ := hk.stretch hstep
  exact Nat.le_trans hle (h.steps_le hd hb hk')

/-- Limits hold after a change to one block if they hold on that block. -/
theorem withBlock (h : l.Hold d) (hd : d.IsForest) (hsize : l.documentSize = none) {id : BlockId}
    {f : Block → Block} (hf : ∀ b, d.block? id = some b → l.blockIssues (f b) = []) :
    l.Hold (d.withBlock id f) := by
  refine of_each hsize (fun bound hb => ?_) (fun bound hb q k hk => ?_) fun q b' hb' => ?_
  · rw [size_withBlock]
    exact h.blocks bound hb
  · exact h.steps_le hd hb hk
  · rw [block?_withBlock] at hb'
    split at hb'
    · rename_i hq
      obtain ⟨b, hb, rfl⟩ := Option.map_eq_some_iff.mp hb'
      exact hf b (hq ▸ hb)
    · exact h.blockIssues hb'

/-- A block may get a content that is no larger and no more edges. -/
theorem withBlock_of_le (h : l.Hold d) (hd : d.IsForest) (hsize : l.documentSize = none)
    {id : BlockId} {f : Block → Block}
    (hc : ∀ b, d.block? id = some b → (f b).content.byteSize ≤ b.content.byteSize)
    (he : ∀ b, (f b).edges.length ≤ b.edges.length) : l.Hold (d.withBlock id f) := by
  refine h.withBlock hd hsize fun b hb => ?_
  obtain ⟨hbytes, hedges⟩ := blockIssues_eq_nil.mp (h.blockIssues hb)
  exact blockIssues_eq_nil.mpr ⟨fun bound hbound => Nat.le_trans (hc b hb) (hbytes bound hbound),
    fun bound hbound => Nat.le_trans (he b) (hedges bound hbound)⟩

/-- What is known about a block is not limited. -/
theorem annotate (h : l.Hold d) (hd : d.IsForest) (hsize : l.documentSize = none) (id : BlockId)
    (f : Metadata → Metadata) : l.Hold (d.withBlock id (·.annotate f)) :=
  h.withBlock_of_le hd hsize (fun _ _ => Nat.le_refl _) fun _ => Nat.le_refl _

/-! ## Deletions -/

theorem delete (h : l.Hold d) (hd : d.IsForest) (hsize : l.documentSize = none) {id : BlockId}
    {cascade : Bool} {removed : List BlockId}
    (he : Edit.delete id cascade d = .ok removed d') : l.Hold d' := by
  have hpart := PartOf.of_delete he
  obtain ⟨-, -, -, -, rfl⟩ := Edit.delete_eq_ok he
  rw [eraseAll_eq_restrict] at hpart ⊢
  refine h.of_stretch hd hsize hpart (root_detach id) fun p c hc => ⟨1, Nat.le_refl 1, ?_⟩
  rw [childrenOf_restrict] at hc
  split at hc
  · exact .down .start (hd.mem_childrenOf_detach.mp hc).1
  · cases hc

/-- The children of a block that is deleted alone come a step nearer to the root. -/
theorem deleteOnly (h : l.Hold d) (hd : d.IsForest) (hsize : l.documentSize = none) {id : BlockId}
    {removed : List BlockId} (he : Edit.deleteOnly id d = .ok removed d') : l.Hold d' := by
  have hpart := PartOf.of_deleteOnly he
  obtain ⟨-, -, -, p, hp, rfl⟩ := Edit.deleteOnly_eq_ok he
  have hid := parent?_eq_some hp
  rw [eraseAll_eq_restrict] at hpart ⊢
  refine h.of_stretch hd hsize hpart rfl fun q c hc => ?_
  rw [childrenOf_restrict, childrenOf_withChildren] at hc
  split at hc
  · split at hc
    · rename_i hq
      subst hq
      rcases (mem_spliceFor hid (hd.nodup q)).mp hc with hc | ⟨hc, -⟩
      · exact ⟨2, Nat.le_succ 1, .down (.down .start hid) hc⟩
      · exact ⟨1, Nat.le_refl 1, .down .start hc⟩
    · exact ⟨1, Nat.le_refl 1, .down .start hc⟩
  · cases hc

theorem prune (h : l.Hold d) (hd : d.IsForest) (hsize : l.documentSize = none)
    {removed : List BlockId} (he : Edit.prune d = .ok removed d') : l.Hold d' := by
  have hpart := PartOf.of_prune he
  obtain ⟨-, rfl⟩ := Edit.prune_eq_ok he
  refine h.of_stretch hd hsize hpart rfl fun p c hc => ⟨1, Nat.le_refl 1, ?_⟩
  rw [childrenOf_restrict] at hc
  split at hc
  · exact .down .start hc
  · cases hc

/-! ## Moves -/

/-- A block that moves may take what is below it to the limit on depth, but no further. No climb
leads up from a parent that is not below the root, and then what moves there is not either. -/
theorem moved (h : l.Hold d) (hd : d.IsForest) (hsize : l.documentSize = none) {id p : BlockId}
    {n : Nat} (hcheck : d.checkDepth l id p = .ok ()) (hloop : ¬ Leads d.childrenOf id p) :
    l.Hold ((d.detach id).attach id p n) := by
  have hlists (q y : BlockId) (hy : y ∈ ((d.detach id).attach id p n).childrenOf q) :
      y ∈ d.childrenOf q ∨ q = p ∧ y = id := by
    rw [mem_childrenOf_attach, hd.mem_childrenOf_detach] at hy
    exact hy.imp_left And.left
  have hroot : ((d.detach id).attach id p n).root = d.root := root_detach id
  refine h.of_partOf hsize (.moved d id p n) fun bound hb x k hk => ?_
  rw [hroot] at hk
  rcases hk.graft hlists hloop with hold | ⟨j, i, hp, hx, rfl⟩
  · exact h.steps_le hd hb hold
  · have hheight : i ≤ d.height id := (hd.isGreatest_height id).2 ⟨x, hx⟩
    have := checkDepth_eq_ok hcheck (hd.depth?_eq_some_iff.mpr hp) bound hb
    omega

/-- A place leads to the parent that was checked for it. -/
theorem moveTo (h : l.Hold d) (hd : d.IsForest) (hsize : l.documentSize = none) {id : BlockId}
    {place : Place BlockId} {u : Unit} (hcheck : d.checkPlace l id place = .ok ())
    (he : Edit.moveTo id place d = .ok u d') : l.Hold d' := by
  obtain ⟨p, n, hp, hmove, rfl⟩ := Edit.moveTo_eq_ok he
  have hdepth : d.checkDepth l id p = .ok () := by rwa [checkPlace, hp] at hcheck
  exact h.moved hd hsize hdepth (checkMove_eq_ok hmove).2.2.2

/-! ## New blocks -/

/-- A leaf is one block more, a step below its parent. -/
theorem leaf (h : l.Hold d) (hd : d.IsForest) (hsize : l.documentSize = none) {parent id : BlockId}
    {b : Block} {cs : List BlockId} (hparent : d.contains parent = true)
    (hid : d.contains id = false) (hcs : ∀ c ∈ cs, c ∈ d.childrenOf parent ∨ c = id)
    (hcount : ∀ bound ∈ l.blocks, d.size + 1 ≤ bound)
    (hdepth : ∀ bound ∈ l.depth, ∀ k, Steps d.childrenOf d.root k parent → k + 1 ≤ bound)
    (hb : l.blockIssues b = []) : l.Hold ((d.withLeaf id b).withChildren parent cs) := by
  obtain ⟨hleaf, -, -⟩ := hd.fresh hid
  have hpart := PartOf.withChildren (d.withLeaf id b) parent cs
  refine of_each hsize (fun bound hbound => ?_) (fun bound hbound x k hk => ?_) fun q b' hb' => ?_
  · have hinsert : (d.withLeaf id b).size ≤ d.size + 1 := ExtTreeMap.size_insert_le
    exact Nat.le_trans hpart.size_le (Nat.le_trans hinsert (hcount bound hbound))
  · have hlists (q y : BlockId) (hy : y ∈ ((d.withLeaf id b).withChildren parent cs).childrenOf q) :
        y ∈ d.childrenOf q ∨ q = parent ∧ y = id := by
      rw [childrenOf_withChildren, hd.childrenOf_withLeaf hid] at hy
      split at hy
      · rename_i hq
        exact (hcs y hy).imp (fun hold => hq ▸ hold) fun hnew => ⟨hq, hnew⟩
      · exact .inl hy
    have hloop : ¬ Leads d.childrenOf id parent := fun hl => by
      rw [hl.eq_of_leaf hleaf, hid] at hparent
      cases hparent
    rcases hk.graft hlists hloop with hold | ⟨j, i, hp, hx, rfl⟩
    · exact h.steps_le hd hbound hold
    · cases hx with
      | start => exact hdepth bound hbound j hp
      | @down i q _ hq hc =>
        rw [hq.leads.eq_of_leaf hleaf, hleaf] at hc
        cases hc
  · obtain ⟨b₁, hb₁, hcontent, hedges⟩ := hpart q b' hb'
    have hblock : l.blockIssues b₁ = [] := by
      rw [block?_withLeaf] at hb₁
      split at hb₁
      · cases hb₁
        exact hb
      · exact h.blockIssues hb₁
    rw [blockIssues_eq_nil] at hblock ⊢
    rwa [hcontent, hedges]

theorem withAllocator (h : l.Hold d) (a : Allocator) : l.Hold (d.withAllocator a) :=
  ⟨h.blocks, h.depth, h.blockSize, h.documentSize, h.edges⟩

theorem add (h : l.Hold d) (hd : d.IsForest) (hsize : l.documentSize = none)
    {parent id : BlockId} {content : Content} {role : Option Role} {label : Option String}
    {position : Option Nat} {u : Unit} (hcheck : d.checkAdd l parent content = .ok u)
    (he : Edit.add parent content role label position d = .ok id d') : l.Hold d' := by
  obtain ⟨hcount, hdepth, hbytes⟩ := checkAdd_eq_ok hcheck
  obtain ⟨hparent, a, ha, rfl⟩ := Edit.add_eq_ok he
  refine (h.withAllocator a).leaf (hd.withAllocator a) hsize hparent (taken_allocate ha) ?_ hcount ?_
    (blockIssues_eq_nil.mpr ⟨hbytes, fun _ _ => Nat.zero_le _⟩)
  · intro c hc
    rw [(insertAt_perm ..).mem_iff, List.mem_cons] at hc
    exact hc.symm
  · intro bound hbound k hk
    exact hdepth k (hd.depth?_eq_some_iff.mpr hk) bound hbound

theorem addDraft (h : l.Hold d) (hd : d.IsForest) (hsize : l.documentSize = none)
    {parent id : BlockId} {position : Option Nat} {draft : Draft} {u : Unit}
    (hcheck : d.checkAdd l parent draft.content = .ok u)
    (he : Edit.addDraft parent position draft d = .ok id d') : l.Hold d' := by
  obtain ⟨d₁, f, hadd, rfl⟩ := Edit.addDraft_eq_ok he
  have hforest : d₁.IsForest := by
    have hafter := hd.after_add parent draft.content draft.role draft.label position
    rwa [Edit.after, hadd] at hafter
  exact (h.add hd hsize hcheck hadd).annotate hforest hsize _ _

/-! ## Edits of one block -/

theorem setField (h : l.Hold d) (hd : d.IsForest) (hsize : l.documentSize = none) {id : BlockId}
    {field : Field} {value : String} {u : Unit} (he : Edit.setField l id field value d = .ok u d') :
    l.Hold d' := by
  rcases Edit.setField_eq_ok he with ⟨f, rfl⟩ | ⟨b, c, hb, rfl, hbytes⟩
  · exact h.annotate hd hsize id f
  · refine h.withBlock hd hsize fun b' hb' => blockIssues_eq_nil.mpr ⟨fun bound hbound => ?_, ?_⟩
    · rcases hbytes with hwithin | hless
      · exact hwithin bound hbound
      · exact Nat.le_trans hless ((blockIssues_eq_nil.mp (h.blockIssues hb)).1 bound hbound)
    · exact (blockIssues_eq_nil.mp (h.blockIssues hb')).2

/-- An edge is added where one edge more is allowed, and where the block has it there is none to
add. -/
theorem addEdge (h : l.Hold d) (hd : d.IsForest) (hsize : l.documentSize = none)
    {source target : BlockId} {relation : Relation} {note : Note} {u : Unit} {added : Bool}
    (hcheck : d.checkEdge l source relation target = .ok u)
    (he : Edit.addEdge source { relation, target, note } d = .ok added d') : l.Hold d' := by
  obtain ⟨b, hb, rfl, rfl⟩ := Edit.addEdge_eq_ok he
  split
  · rename_i hnew
    have hroom := room_of_checkEdge hb hcheck hnew
    refine h.withBlock hd hsize fun b' hb' => blockIssues_eq_nil.mpr ⟨?_, fun bound hbound => ?_⟩
    · exact (blockIssues_eq_nil.mp (h.blockIssues hb')).1
    · obtain rfl : b = b' := Option.some.inj (hb.symm.trans hb')
      have := hroom bound hbound
      simpa [Block.touch, Block.annotate] using this
  · exact h

theorem removeEdge (h : l.Hold d) (hd : d.IsForest) (hsize : l.documentSize = none)
    {source target : BlockId} {relation : Relation} {removed : Bool}
    (he : Edit.removeEdge source relation target d = .ok removed d') : l.Hold d' := by
  obtain ⟨b, -, -, rfl⟩ := Edit.removeEdge_eq_ok he
  split
  · exact h.withBlock_of_le hd hsize (fun _ _ => Nat.le_refl _) fun _ => List.length_filter_le ..
  · exact h

end Limits.Hold

/-! ## Mutations -/

/-- **The checks before a mutation are as strong as an inspection after it**: where nothing bounds the
size of all contents, a mutation that is carried out on a forest within the limits leaves it within
them. -/
theorem Mutation.hold_apply {l : Limits} (hsize : l.documentSize = none) {d d' : Document}
    (hd : d.IsForest) (h : l.Hold d) {m : Mutation} {outcome : Outcome}
    (hm : m.apply l d = .ok outcome d') : l.Hold d' := by
  -- a mutation that adds something has checked the limit on it, and no other one can be exceeded
  cases apply_eq_ok_iff.mp hm with
  | add hcheck hadd => exact h.addDraft hd hsize hcheck hadd
  | set _ hset => exact h.setField hd hsize hset
  | @delete id children removed hdelete =>
    cases children with
    | none => exact h.delete hd hsize hdelete
    | deleted => exact h.delete hd hsize hdelete
    | kept => exact h.deleteOnly hd hsize hdelete
  | move hcheck hmove => exact h.moveTo hd hsize hcheck hmove
  | addEdge hcheck hadd => exact h.addEdge hd hsize hcheck hadd
  | removeEdge hremove => exact h.removeEdge hd hsize hremove
  | @addTag id _ _ hadd =>
    obtain ⟨b, -, -, rfl⟩ := Edit.addTag_eq_ok hadd
    split
    · exact h.annotate hd hsize id _
    · exact h
  | @removeTag id _ _ hremove =>
    obtain ⟨b, -, -, rfl⟩ := Edit.removeTag_eq_ok hremove
    split
    · exact h.annotate hd hsize id _
    · exact h
  | prune hprune => exact h.prune hd hsize hprune

namespace Executor

/-- **Checks suffice**: where nothing bounds the size of all contents, on a valid document the result
of a mutation is valid, and so an executor takes every command that it can carry out, whatever errors
it knows. -/
theorem valid_apply (e : Executor) (hsize : e.inspector.limits.documentSize = none) {d : Document}
    (hd : d.Stored) (hvalid : (e.inspector.inspect d).valid = true) :
    (∀ (m : Mutation) outcome d', m.apply e.inspector.limits d = .ok outcome d' →
      (e.inspector.inspect d').valid = true) ∧
    ∀ resolver known (c : Command) outcome d', e.attempt resolver c d = .ok outcome d' →
      e.step resolver known c d = .ok outcome d' := by
  obtain ⟨hforest, hhold⟩ := (Inspector.valid_inspect_iff hd e.inspector).1.mp hvalid
  have hresult {m : Mutation} {outcome : Outcome} {d' : Document}
      (hm : m.apply e.inspector.limits d = .ok outcome d') :
      (e.inspector.inspect d').valid = true := by
    have hforest' := Mutation.isForest_apply hforest hm
    exact (Inspector.valid_inspect_iff hforest'.stored e.inspector).1.mpr
      ⟨hforest', Mutation.hold_apply hsize hforest hhold hm⟩
  refine ⟨fun m outcome d' => hresult, fun resolver known c outcome d' hattempt => ?_⟩
  obtain ⟨m, hlower, hm⟩ := Edit.ofExcept_bind_eq_ok hattempt
  have hnone : e.errorKeys d' = [] := by
    have hissues := hresult hm
    rw [Report.valid, Bool.not_eq_true', List.any_eq_false] at hissues
    rw [errorKeys, errors, Report.errors, List.filter_eq_nil_iff.mpr hissues, List.map_nil]
  exact step_eq_ok_iff.mpr ⟨hattempt, hnone ▸ List.nil_subset known⟩

/-- A root with two children, the first of which has a child with a child. -/
def branched : Document :=
  Change.run (.create ⟨.sequential, 1⟩)
    [.add (.ofSuffix 1) (.text "left") none none none, .add (.ofSuffix 2) (.text "below") none none none,
      .add (.ofSuffix 3) (.text "bottom") none none none, .add (.ofSuffix 1) (.text "right") none none none]

/-- Limits that leave no room for another block or another level. -/
def tight : Executor :=
  { inspector := { limits :=
    { blocks := some 5, depth := some 3, blockSize := some 6, edges := some 0 } } }

/-- The lower half of the left branch moves to the right one and reaches the limit on depth again. -/
theorem valid_apply_branched :
    let c : Command := .move (.long "blk_000000000003") (.under (.long "blk_000000000005") none)
    branched.Stored ∧ (tight.inspector.inspect branched).valid = true ∧
      ∃ outcome d', tight.attempt (fun _ => none) c branched = .ok outcome d' ∧
        (tight.inspector.inspect d').valid = true ∧
        ∀ known, tight.step (fun _ => none) known c branched = .ok outcome d' := by
  intro c
  have hstored : branched.Stored := ((Document.isTree_create _).run _).stored
  have hvalid : (tight.inspector.inspect branched).valid = true := by decide +kernel
  obtain ⟨hresult, hstep⟩ := valid_apply tight rfl hstored hvalid
  let m : Mutation := .move ⟨"blk_000000000003"⟩ (.under ⟨"blk_000000000005"⟩ none)
  have hok : (match m.apply tight.inspector.limits branched with
    | .ok _ _ => true
    | .error _ _ => false) = true := by decide +kernel
  cases hm : m.apply tight.inspector.limits branched with
  | error failure d' =>
    rw [hm] at hok
    cases hok
  | ok outcome d' =>
    have hattempt : tight.attempt (fun _ => none) c branched = .ok outcome d' := hm
    exact ⟨hstored, hvalid, outcome, d', hattempt, hresult m outcome d' hm, fun known =>
      hstep _ known c outcome d' hattempt⟩

end Executor

end BlockDocument
