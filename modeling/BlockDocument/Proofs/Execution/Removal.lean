import BlockDocument.Proofs.Execution.Growth
import BlockDocument.Proofs.Inspection.Orphan

/-!
# Commands that only remove

A deletion, a removal of edges and a prune leave no measure of a document greater than it was
(`Document.Shrunk`), and the tree keeps its rules. The inspection after the command compares errors
by code and block, though, and of all blocks that are too deep it names one, the last of the deepest.
So a command that deletes the named block, and leaves another one too deep, brings an error of
another name and is refused, although nothing got worse (`Executor.runBatch_removes`).
-/

namespace BlockDocument

open Std (ExtTreeMap)

/-- Whether a mutation only takes away. -/
def Mutation.removes : Mutation → Bool
  | .delete .. | .removeEdge .. | .prune => true
  | _ => false

/-- Whether a command only takes away. -/
def Command.removes : Command → Bool
  | .delete .. | .unlink .. | .prune => true
  | _ => false

theorem Command.removes_of_mutation {resolver : Resolver} {c : Command} {m : Mutation}
    (hc : c.removes = true) (h : c.mutation resolver = .ok m) : m.removes = true := by
  cases c with
  | delete id children =>
    obtain ⟨id', -, hm⟩ := exists_of_bind_eq_ok h
    cases hm
    rfl
  | unlink source relation target =>
    obtain ⟨source', -, h⟩ := exists_of_bind_eq_ok h
    obtain ⟨target', -, hm⟩ := exists_of_bind_eq_ok h
    cases hm
    rfl
  | prune =>
    cases h
    rfl
  | _ => cases hc

theorem Command.eq_delete_of_mutation {resolver : Resolver} {c : Command} {id : BlockId}
    {children : Fate} (hc : c.removes = true)
    (h : c.mutation resolver = .ok (.delete id children)) : ∃ ref, c = .delete ref children := by
  cases c with
  | delete ref children' =>
    obtain ⟨id', -, hm⟩ := exists_of_bind_eq_ok h
    cases hm
    exact ⟨ref, rfl⟩
  | unlink source relation target =>
    obtain ⟨source', -, h⟩ := exists_of_bind_eq_ok h
    obtain ⟨target', -, hm⟩ := exists_of_bind_eq_ok h
    cases hm
  | prune => cases h
  | _ => cases hc

/-! ## Measures -/

namespace Document

variable {d d' : Document}

/-- No measure of a document is greater than that of another. -/
structure Shrunk (d d' : Document) : Prop where
  size : d'.size ≤ d.size
  byteSize : d'.byteSize ≤ d.byteSize
  depth : d'.greatestDepth ≤ d.greatestDepth
  contentSize : ∀ id, d'.contentSize id ≤ d.contentSize id
  edgeCount : ∀ id, d'.edgeCount id ≤ d.edgeCount id

/-- The size of all contents, block by block. -/
theorem byteSize_eq_sum (d : Document) :
    d.byteSize = ∑ id ∈ d.blocks.keys.toFinset, d.contentSize id := by
  have hentry : ∀ e ∈ d.blocks.toList, d.contentSize e.1 = e.2.content.byteSize := fun e he =>
    contentSize_of_block? (ExtTreeMap.mem_toList_iff_getElem?_eq_some.mp he)
  rw [List.sum_toFinset _ ExtTreeMap.nodup_keys, ← ExtTreeMap.map_fst_toList_eq_keys, List.map_map,
    byteSize, Map.values_eq_map_toList, List.map_map]
  exact congrArg List.sum (List.map_congr_left fun e he => (hentry e he).symm)

theorem byteSize_le (hcontains : ∀ id, d'.contains id = true → d.contains id = true)
    (hsize : ∀ id, d'.contentSize id ≤ d.contentSize id) : d'.byteSize ≤ d.byteSize := by
  rw [byteSize_eq_sum, byteSize_eq_sum]
  calc ∑ id ∈ d'.blocks.keys.toFinset, d'.contentSize id
      ≤ ∑ id ∈ d'.blocks.keys.toFinset, d.contentSize id := Finset.sum_le_sum fun id _ => hsize id
    _ ≤ ∑ id ∈ d.blocks.keys.toFinset, d.contentSize id := by
      refine Finset.sum_le_sum_of_subset fun id hid => ?_
      rw [List.mem_toFinset, ExtTreeMap.mem_keys] at hid ⊢
      exact hcontains id hid

/-- Where the same steps lead down from the root, the same block is the deepest. -/
theorem IsForest.levels_congr (h : d.IsForest) (h' : d'.IsForest)
    (hsteps : ∀ id k, Steps d'.childrenOf d'.root k id ↔ Steps d.childrenOf d.root k id) :
    d'.levels = d.levels := by
  refine ExtTreeMap.ext_getElem? fun id => Option.ext fun k => ?_
  rw [h.getElem?_levels, h'.getElem?_levels, h.distance_iff, h'.distance_iff, hsteps]

end Document

namespace Mutation

open Document

variable {l : Limits} {m : Mutation} {d d' : Document} {outcome : Outcome}

/-- What only takes away is not checked against limits. -/
theorem apply_eq_of_removes (hm : m.removes = true) (l l' : Limits) : m.apply l = m.apply l' := by
  cases m with
  | delete | removeEdge | prune => rfl
  | _ => cases hm

theorem contains_of_removes (hm : m.removes = true) (h : m.apply l d = .ok outcome d') (id : BlockId)
    (hid : d'.contains id = true) : d.contains id = true := by
  have of_partOf (hpart : d'.PartOf d) : d.contains id = true := by
    obtain ⟨b', hb'⟩ := contains_iff.mp hid
    obtain ⟨b, hb, -⟩ := hpart id b' hb'
    exact contains_iff.mpr ⟨b, hb⟩
  cases apply_eq_ok_iff.mp h with
  | @delete _ children _ hdelete =>
    cases children with
    | none | deleted => exact of_partOf (.of_delete hdelete)
    | kept => exact of_partOf (.of_deleteOnly hdelete)
  | removeEdge hremove =>
    obtain ⟨b, -, -, rfl⟩ := Edit.removeEdge_eq_ok hremove
    split at hid
    · rwa [contains_withBlock] at hid
    · exact hid
  | prune hprune => exact of_partOf (.of_prune hprune)
  | _ => cases hm

/-- What only takes away does so under any limits, also where there is no room at all. -/
theorem shrunk_apply (hd : d.IsForest) (hm : m.removes = true) (h : m.apply l d = .ok outcome d') :
    d.Shrunk d' := by
  have no_room {before after : Nat} (hkept : Kept (some 0) before after) : after ≤ before := by
    rcases hkept with hzero | hle
    · exact Nat.le_trans (hzero 0 rfl) (Nat.zero_le before)
    · exact hle
  rw [apply_eq_of_removes hm l
    { blocks := some 0, depth := some 0, blockSize := some 0, edges := some 0 }] at h
  have hconfines := confines_apply hd h
  have hcontent (id : BlockId) : d'.contentSize id ≤ d.contentSize id :=
    no_room (hconfines.blockSize id)
  exact {
    size := no_room hconfines.blocks
    byteSize := byteSize_le (contains_of_removes hm h) hcontent
    depth := no_room hconfines.depth
    contentSize := hcontent
    edgeCount := fun id => no_room (hconfines.edges id) }

theorem created?_of_removes (hm : m.removes = true) (h : m.apply l d = .ok outcome d') :
    Executor.created? outcome = none := by
  cases apply_eq_ok_iff.mp h with
  | delete | prune => rfl
  | @removeEdge _ _ _ removed => cases removed <;> rfl
  | _ => cases hm

/-- Only a deletion changes which blocks are the deepest. -/
theorem levels_of_removes (hd : d.IsForest) (hm : m.removes = true)
    (hkept : ∀ id children, m ≠ .delete id children) (h : m.apply l d = .ok outcome d') :
    d'.levels = d.levels := by
  have hd' := isForest_apply hd h
  cases apply_eq_ok_iff.mp h with
  | delete => exact absurd rfl (hkept _ _)
  | removeEdge hremove =>
    obtain ⟨b, -, -, rfl⟩ := Edit.removeEdge_eq_ok hremove
    refine hd.levels_congr hd' fun id k => ?_
    split <;> rfl
  | prune hprune =>
    obtain ⟨-, rfl⟩ := Edit.prune_eq_ok hprune
    refine hd.levels_congr hd' fun id k => ⟨fun hs => ?_, fun hs => ?_⟩
    · induction hs with
      | start => exact .start
      | down _ hc ih => exact ih.down (mem_childrenOf_pruned.mp hc).2
    · induction hs with
      | start => exact .start
      | down hp hc ih =>
        have hin := hp.mem (P := fun y => d.contains y = true) hd.root_mem hd.child_mem
        exact ih.down (mem_childrenOf_pruned.mpr ⟨⟨hp.leads, hin⟩, hc⟩)
  | _ => cases hm

end Mutation

/-! ## Errors of limits -/

namespace Limits

variable {l : Limits} {d d' : Document}

/-- The block that an inspection names where a document is too deep. -/
def tooDeep? (l : Limits) (d : Document) : Option BlockId :=
  (d.deepest?.bind fun e => l.depthIssue e.2 e.1).bind Issue.block

theorem tooDeep?_eq_none_iff : l.tooDeep? d = none ↔ ∀ b ∈ l.depth, d.greatestDepth ≤ b := by
  rw [tooDeep?, Document.greatestDepth, ← exceeded?_eq_none]
  cases d.deepest? with
  | none => simp [exceeded?_eq_none]
  | some e =>
    rw [Option.bind_some, depthIssue, Option.map_some, Option.getD_some]
    cases exceeded? l.depth e.2 <;> simp [Issue.error]

/-- What is beyond the limits, by code and block. -/
inductive Exceeded (l : Limits) (d : Document) : String × Option BlockId → Prop where
  | blocks {bound : Nat} (hb : bound ∈ l.blocks) (h : bound < d.size) : Exceeded l d ("E401", none)
  | depth {id : BlockId} (h : l.tooDeep? d = some id) : Exceeded l d ("E403", some id)
  | blockSize {bound : Nat} {id : BlockId} (hb : bound ∈ l.blockSize) (h : bound < d.contentSize id) :
      Exceeded l d ("E402", some id)
  | edges {bound : Nat} {id : BlockId} (hb : bound ∈ l.edges) (h : bound < d.edgeCount id) :
      Exceeded l d ("E404", some id)
  | documentSize {bound : Nat} (hb : bound ∈ l.documentSize) (h : bound < d.byteSize) :
      Exceeded l d ("E400", none)

variable {k : String × Option BlockId}

theorem mem_keys_depth :
    k ∈ (d.deepest?.bind fun e => l.depthIssue e.2 e.1).toList.map Issue.key ↔
      ∃ id, l.tooDeep? d = some id ∧ ("E403", some id) = k := by
  rw [List.mem_map]
  constructor
  · rintro ⟨i, hi, rfl⟩
    rw [Option.mem_toList] at hi
    obtain ⟨e, -, hissue⟩ := Option.bind_eq_some_iff.mp hi
    obtain ⟨bound, -, rfl⟩ := Option.map_eq_some_iff.mp hissue
    exact ⟨e.1, by rw [tooDeep?, hi]; rfl, rfl⟩
  · rintro ⟨id, hid, rfl⟩
    obtain ⟨i, hi, hblock⟩ := Option.bind_eq_some_iff.mp hid
    obtain ⟨e, -, hissue⟩ := Option.bind_eq_some_iff.mp hi
    obtain ⟨bound, -, rfl⟩ := Option.map_eq_some_iff.mp hissue
    refine ⟨_, Option.mem_toList.mpr hi, ?_⟩
    rw [Issue.key, hblock]
    rfl

theorem mem_keys_blockIssues {b : Block} : k ∈ (l.blockIssues b).map Issue.key ↔
    (∃ bound ∈ l.blockSize, bound < b.content.byteSize ∧ ("E402", some b.id) = k) ∨
      ∃ bound ∈ l.edges, bound < b.edges.length ∧ ("E404", some b.id) = k := by
  rw [blockIssues, List.map_append, List.mem_append, blockSizeIssue, edgeCountIssue,
    mem_keys_exceeded, mem_keys_exceeded]
  rfl

/-- The issues of a document whose blocks are stored under their ids are what is beyond the limits. -/
theorem mem_keys_issues_iff (hd : d.Stored) :
    k ∈ (l.issues d).map Issue.key ↔ l.Exceeded d k := by
  have hblocks : k ∈ (d.blocks.values.flatMap l.blockIssues).map Issue.key ↔
      ∃ id b, d.block? id = some b ∧ k ∈ (l.blockIssues b).map Issue.key := by
    rw [List.map_flatMap, List.mem_flatMap]
    constructor
    · rintro ⟨b, hb, hk⟩
      obtain ⟨id, hid⟩ := Map.mem_values.mp hb
      exact ⟨id, b, hid, hk⟩
    · rintro ⟨id, b, hid, hk⟩
      exact ⟨b, Map.mem_values.mpr ⟨id, hid⟩, hk⟩
  rw [issues, List.map_append, List.map_append, List.map_append, List.mem_append, List.mem_append,
    List.mem_append, blockCountIssue, documentSizeIssue, mem_keys_exceeded, mem_keys_exceeded,
    mem_keys_depth, hblocks]
  constructor
  · rintro (((⟨bound, hb, hlt, rfl⟩ | ⟨id, hid, rfl⟩) | ⟨id, b, hid, hk⟩) | ⟨bound, hb, hlt, rfl⟩)
    · exact .blocks hb hlt
    · exact .depth hid
    · rcases mem_keys_blockIssues.mp hk with ⟨bound, hb, hlt, rfl⟩ | ⟨bound, hb, hlt, rfl⟩
      · rw [hd id b hid]
        exact .blockSize hb (by rwa [Document.contentSize_of_block? hid])
      · rw [hd id b hid]
        exact .edges hb (by rwa [Document.edgeCount_of_block? hid])
    · exact .documentSize hb hlt
  · intro h
    cases h with
    | blocks hb hlt => exact .inl (.inl (.inl ⟨_, hb, hlt, rfl⟩))
    | depth hid => exact .inl (.inl (.inr ⟨_, hid, rfl⟩))
    | @blockSize bound id hb hlt =>
      cases hid : d.block? id with
      | none => simp [Document.contentSize_of_absent hid] at hlt
      | some b =>
        rw [Document.contentSize_of_block? hid] at hlt
        have hk := mem_keys_blockIssues.mpr (.inl ⟨bound, hb, hlt, by rw [hd id b hid]⟩)
        exact .inl (.inr ⟨id, b, hid, hk⟩)
    | @edges bound id hb hlt =>
      cases hid : d.block? id with
      | none => simp [Document.edgeCount_of_absent hid] at hlt
      | some b =>
        rw [Document.edgeCount_of_block? hid] at hlt
        have hk := mem_keys_blockIssues.mpr (.inr ⟨bound, hb, hlt, by rw [hd id b hid]⟩)
        exact .inl (.inr ⟨id, b, hid, hk⟩)
    | documentSize hb hlt => exact .inr ⟨_, hb, hlt, rfl⟩

theorem Exceeded.tooDeep?_eq {id : BlockId} (h : l.Exceeded d ("E403", some id)) :
    l.tooDeep? d = some id := by
  generalize hk : (("E403", some id) : String × Option BlockId) = k at h
  cases h with
  | depth hid =>
    cases hk
    exact hid
  | _ => simp at hk

/-- What is beyond the limits of a document that shrank was so before, but for the block that is named
for the depth. -/
theorem Exceeded.of_shrunk (h : d.Shrunk d') (hk : l.Exceeded d' k) :
    l.Exceeded d k ∨ ∃ id, l.tooDeep? d' = some id ∧ k = ("E403", some id) := by
  cases hk with
  | blocks hb hlt => exact .inl (.blocks hb (Nat.lt_of_lt_of_le hlt h.size))
  | depth hid => exact .inr ⟨_, hid, rfl⟩
  | blockSize hb hlt => exact .inl (.blockSize hb (Nat.lt_of_lt_of_le hlt (h.contentSize _)))
  | edges hb hlt => exact .inl (.edges hb (Nat.lt_of_lt_of_le hlt (h.edgeCount _)))
  | documentSize hb hlt => exact .inl (.documentSize hb (Nat.lt_of_lt_of_le hlt h.byteSize))

end Limits

namespace Executor

variable {e : Executor} {resolver : Resolver} {d d' : Document}

/-- The errors of a clean document are what is beyond the limits. -/
theorem mem_errorKeys_iff (hd : d.IsForest) {k : String × Option BlockId} :
    k ∈ e.errorKeys d ↔ e.inspector.limits.Exceeded d k := by
  rw [errorKeys, errors, Inspector.errors_inspect, (Document.treeIssues_eq_nil_iff hd.stored).mpr hd,
    List.nil_append]
  exact Limits.mem_keys_issues_iff hd.stored

/-- An error that a document got when it shrank names the block that is too deep now. -/
theorem new_of_shrunk (hd : d.IsForest) (hd' : d'.IsForest) (h : d.Shrunk d')
    {k : String × Option BlockId} (hk : k ∈ e.errorKeys d') (hnew : k ∉ e.errorKeys d) :
    ∃ id, e.inspector.limits.tooDeep? d' = some id ∧ k = ("E403", some id) :=
  (((mem_errorKeys_iff hd').mp hk).of_shrunk h).resolve_left fun hold =>
    hnew ((mem_errorKeys_iff hd).mpr hold)

/-- A document that shrank has no new error exactly if it is not too deep, or if the block is named
that was named before. -/
theorem errorKeys_subset_iff (hd : d.IsForest) (hd' : d'.IsForest) (h : d.Shrunk d') :
    e.errorKeys d' ⊆ e.errorKeys d ↔
      (∀ bound ∈ e.inspector.limits.depth, d'.greatestDepth ≤ bound) ∨
        e.inspector.limits.tooDeep? d' = e.inspector.limits.tooDeep? d := by
  rw [← Limits.tooDeep?_eq_none_iff]
  constructor
  · intro hsub
    cases hid : e.inspector.limits.tooDeep? d' with
    | none => exact .inl rfl
    | some id =>
      have hmem : ("E403", some id) ∈ e.errorKeys d := hsub ((mem_errorKeys_iff hd').mpr (.depth hid))
      exact .inr ((mem_errorKeys_iff hd).mp hmem).tooDeep?_eq.symm
  · intro hdeep k hk
    by_contra hnew
    obtain ⟨id, hid, rfl⟩ := new_of_shrunk hd hd' h hk hnew
    rcases hdeep with hnone | hsame
    · rw [hnone] at hid
      cases hid
    · exact hnew ((mem_errorKeys_iff hd).mpr (.depth (hsame ▸ hid)))

/-- A command on its own that creates no block is kept if what it does brings no new error. -/
theorem runBatch_single_iff_subset {s : Statement} {outcome : Outcome}
    (h : e.attempt resolver s.command d = .ok outcome d') (hcreated : created? outcome = none) :
    e.runBatch resolver (.single s) d = .ok ([], d') ↔ e.errorKeys d' ⊆ e.errorKeys d := by
  rw [runBatch_single_eq_ok_iff]
  constructor
  · rintro ⟨outcome', hstep, -⟩
    exact (step_eq_ok_iff.mp hstep).2
  · intro hsub
    exact ⟨outcome, step_eq_ok_iff.mpr ⟨h, hsub⟩, by rw [hcreated]; rfl⟩

/-- **Removing makes nothing worse, and is refused only for the depth**: a command that only takes
away leaves a clean document clean and no measure of it greater. Where it can be carried out, it takes
effect on its own exactly if the document is not too deep afterwards, or the block that is named as
too deep is the one that was named before. So it does on a document that is within its limit of depth,
and so do a removal of edges and a prune on every document. Where it is refused, each error of the
refusal names the block that is too deep now. -/
theorem runBatch_removes {s : Statement} {outcome : Outcome} (hd : d.Clean)
    (hs : s.command.removes = true) (h : e.attempt resolver s.command d = .ok outcome d') :
    let l := e.inspector.limits
    d'.Clean ∧ d.Shrunk d' ∧
      (e.runBatch resolver (.single s) d = .ok ([], d') ↔
        (∀ bound ∈ l.depth, d'.greatestDepth ≤ bound) ∨ l.tooDeep? d' = l.tooDeep? d) ∧
      ((∀ bound ∈ l.depth, d.greatestDepth ≤ bound) →
        e.runBatch resolver (.single s) d = .ok ([], d')) ∧
      ((∀ id children, s.command ≠ .delete id children) →
        e.runBatch resolver (.single s) d = .ok ([], d')) ∧
      ∀ line failure, e.runBatch resolver (.single s) d = .error (line, failure) →
        line = s.line ∧ ∃ issues, failure = .invalid issues ∧
          ∀ i ∈ issues, i.key = ("E403", l.tooDeep? d') := by
  intro l
  have hforest := Document.clean_iff.mp hd
  obtain ⟨m, hm, happly⟩ := Edit.ofExcept_bind_eq_ok h
  have hremoves := Command.removes_of_mutation hs hm
  have hforest' := Mutation.isForest_apply hforest happly
  have hshrunk := Mutation.shrunk_apply hforest hremoves happly
  have hcommits : e.runBatch resolver (.single s) d = .ok ([], d') ↔
      (∀ bound ∈ l.depth, d'.greatestDepth ≤ bound) ∨ l.tooDeep? d' = l.tooDeep? d :=
    (runBatch_single_iff_subset h (Mutation.created?_of_removes hremoves happly)).trans
      (errorKeys_subset_iff hforest hforest' hshrunk)
  refine ⟨Document.clean_iff.mpr hforest', hshrunk, hcommits, fun hwithin => ?_, fun hkept => ?_,
    fun line failure hfail => ?_⟩
  · exact hcommits.mpr (.inl fun bound hb => Nat.le_trans hshrunk.depth (hwithin bound hb))
  · -- nothing is deleted, so the ids and their levels are the same, and so is the deepest one
    have hlevels : d'.levels = d.levels :=
      Mutation.levels_of_removes hforest hremoves (fun id children hdelete => by
        obtain ⟨ref, href⟩ := Command.eq_delete_of_mutation hs (hdelete ▸ hm)
        exact hkept ref children href) happly
    refine hcommits.mpr (.inr ?_)
    rw [Limits.tooDeep?, Limits.tooDeep?, Document.deepest?, Document.deepest?, hlevels]
  · obtain ⟨rfl, d₁, hstep⟩ := runBatch_single_eq_error hfail
    refine ⟨rfl, _, step_eq_error h hstep, fun i hi => ?_⟩
    obtain ⟨hi, hnew⟩ := List.mem_filter.mp hi
    obtain ⟨id, hid, hkey⟩ := new_of_shrunk hforest hforest' hshrunk
      (List.mem_map_of_mem hi : i.key ∈ e.errorKeys d') (of_decide_eq_true hnew)
    rw [hkey, hid]

/-- A root with two children. -/
def twins : Document :=
  Change.run (.create ⟨.sequential, 1⟩)
    [.add (.ofSuffix 1) (.text "a") none none none, .add (.ofSuffix 1) (.text "b") none none none]

theorem clean_twins : twins.Clean := Document.clean_run_create _ _

/-- An executor that wants no block below the root. -/
def flat : Executor := { inspector := { limits := { depth := some 0 } } }

/-- Of two blocks that are too deep the first may be deleted, as the second one is named. -/
theorem runBatch_removes_unnamed :
    let s : Statement := ⟨1, .delete (.long "blk_000000000002") .none⟩
    twins.Clean ∧ s.command.removes = true ∧
      ∃ outcome d', flat.attempt (fun _ => none) s.command twins = .ok outcome d' ∧
        flat.runBatch (fun _ => none) (.single s) twins = .ok ([], d') ∧
        flat.inspector.limits.tooDeep? d' = some (.ofSuffix 3) := by
  intro s
  have hanswer : (flat.attempt (fun _ => none) s.command).answer? twins =
      some (.removed [.ofSuffix 2]) := by decide +kernel
  obtain ⟨d', hattempt⟩ := Edit.answer?_eq_some_iff.mp hanswer
  have hafter : (flat.attempt (fun _ => none) s.command).after twins = d' := by
    rw [Edit.after, hattempt]
  have hbefore : flat.inspector.limits.tooDeep? twins = some (.ofSuffix 3) := by decide +kernel
  have hnamed : flat.inspector.limits.tooDeep? d' = some (.ofSuffix 3) := by
    rw [← hafter]
    decide +kernel
  obtain ⟨-, -, hcommits, -⟩ := runBatch_removes (s := s) clean_twins rfl hattempt
  exact ⟨clean_twins, rfl, _, d', hattempt, hcommits.mpr (.inr (hnamed.trans hbefore.symm)), hnamed⟩

/-- The second may not: when it is deleted, the first one is named, and that counts as a new error. -/
theorem runBatch_refuses_named :
    let s : Statement := ⟨1, .delete (.long "blk_000000000003") .none⟩
    twins.Clean ∧ s.command.removes = true ∧
      (∃ d', flat.attempt (fun _ => none) s.command twins = .ok (.removed [.ofSuffix 3]) d') ∧
      (flat.run (fun _ => none) [.single s] twins).1.errors.map (fun f => (f.line, f.failure.message)) =
        [(1, "validation failed: [E403] depth 1 exceeds limit 0")] := by
  intro s
  have hanswer : (flat.attempt (fun _ => none) s.command).answer? twins =
      some (.removed [.ofSuffix 3]) := by decide +kernel
  exact ⟨clean_twins, rfl, Edit.answer?_eq_some_iff.mp hanswer, by decide +kernel⟩

end Executor

end BlockDocument
