import BlockDocument.Proofs.EdgeAct
import BlockDocument.Proofs.Freshness
import BlockDocument.Proofs.Inspection.Precheck

/-!
# The edges of a block over a whole run

The history of a block is the list of additions and removals of its edges since the block was added.
Nothing else that happens in a run matters to its edges, whatever becomes of other blocks: each change
either leaves the edges of a block as they are, or carries out one act on them, or adds the block, and
then it has none (`Change.edges_after`). So the edges are what stands of the history
(`Document.edges_run`).
-/

namespace BlockDocument

open Document

variable {d d' d'' : Document} {s : BlockId} {b' : Block}

/-! ## Edits that leave edges alone -/

/-- Every block was there before, with the same edges. -/
def KeepsEdges (d d' : Document) : Prop :=
  ∀ s b', d'.block? s = some b' → ∃ b, d.block? s = some b ∧ b'.edges = b.edges

namespace KeepsEdges

theorem refl (d : Document) : KeepsEdges d d := fun _ b hb => ⟨b, hb, rfl⟩

theorem of_partOf (h : d'.PartOf d) : KeepsEdges d d' := by
  intro s b' hb'
  obtain ⟨b, hb, -, hedges⟩ := h s b' hb'
  exact ⟨b, hb, hedges⟩

theorem withBlock (d : Document) (id : BlockId) {f : Block → Block}
    (hf : ∀ b, (f b).edges = b.edges) : KeepsEdges d (d.withBlock id f) := by
  intro s b' hb'
  rw [block?_withBlock] at hb'
  split at hb'
  · obtain ⟨b, hb, rfl⟩ := Option.map_eq_some_iff.mp hb'
    exact ⟨b, hb, hf b⟩
  · exact ⟨b', hb', rfl⟩

theorem after_update (d : Document) (id : BlockId) {f : Block → Block}
    (hf : ∀ b, (f b).edges = b.edges) : KeepsEdges d ((Edit.update id f).after d) := by
  rw [Edit.update, Edit.after_require_bind]
  cases d.block? id with
  | none => exact refl d
  | some b => exact withBlock d id hf

theorem after_addTag (d : Document) (id : BlockId) (tag : String) :
    KeepsEdges d ((Edit.addTag id tag).after d) := by
  rw [Edit.addTag, Edit.after_require_bind]
  cases d.block? id with
  | none => exact refl d
  | some b =>
    simp only [Edit.after_ite, Edit.after_pure, Edit.after_bind_pure]
    split
    · exact refl d
    · exact after_update d id fun _ => rfl

theorem after_removeTag (d : Document) (id : BlockId) (tag : String) :
    KeepsEdges d ((Edit.removeTag id tag).after d) := by
  rw [Edit.removeTag, Edit.after_require_bind]
  cases d.block? id with
  | none => exact refl d
  | some b =>
    simp only [Edit.after_ite, Edit.after_pure, Edit.after_bind_pure]
    split
    · exact after_update d id fun _ => rfl
    · exact refl d

theorem after_delete (d : Document) (id : BlockId) (cascade : Bool) :
    KeepsEdges d ((Edit.delete id cascade).after d) := by
  obtain he | ⟨-, he⟩ := Edit.after_delete d id cascade
  · rw [he]
    exact refl d
  · rw [he, eraseAll_eq_restrict]
    exact of_partOf ((PartOf.restrict _ _).trans (PartOf.detach d id))

theorem after_deleteOnly (d : Document) (id : BlockId) :
    KeepsEdges d ((Edit.deleteOnly id).after d) := by
  obtain he | ⟨p, -, -, he⟩ := Edit.after_deleteOnly d id
  · rw [he]
    exact refl d
  · rw [he, eraseAll_eq_restrict]
    exact of_partOf ((PartOf.restrict _ _).trans (PartOf.withChildren d p _))

theorem of_same_or_moved (h : d' = d ∨ ∃ id p, Edit.Moved id p d d') : KeepsEdges d d' := by
  obtain rfl | ⟨id, p, h⟩ := h
  · exact refl d'
  · obtain ⟨n, rfl⟩ := h.eq
    exact of_partOf (PartOf.moved d id p n)

end KeepsEdges

/-! ## Additions and removals -/

section Acts

variable {source : BlockId} {act : EdgeAct}

/-- The edges of a block after the source of an edge was changed, or nothing where that is not needed. -/
theorem Edit.edges_changed {b : Block} {f : Block → Block} {changed : Bool}
    (hb : d.block? source = some b)
    (hchanged : changed = true → (f b).edges = act.perform b.edges)
    (hunchanged : changed = false → b.edges = act.perform b.edges)
    (hb' : (if changed then d.withBlock source f else d).block? s = some b') :
    ∃ b, d.block? s = some b ∧ b'.edges = if source = s then act.perform b.edges else b.edges := by
  by_cases hs : source = s
  · subst hs
    refine ⟨b, hb, ?_⟩
    rw [if_pos rfl]
    cases changed with
    | true =>
      rw [if_pos rfl, block?_withBlock, if_pos rfl, hb] at hb'
      rw [← Option.some.inj hb']
      exact hchanged rfl
    | false =>
      rw [if_neg Bool.false_ne_true, hb] at hb'
      rw [← Option.some.inj hb']
      exact hunchanged rfl
  · refine ⟨b', ?_, (if_neg hs).symm⟩
    split at hb'
    · rwa [block?_withBlock, if_neg hs] at hb'
    · exact hb'

/-- The edges of a block after an edge was added to one. -/
theorem Edit.edges_addEdge {edge : Edge} {added : Bool}
    (he : addEdge source edge d = .ok added d') (hb' : d'.block? s = some b') :
    ∃ b, d.block? s = some b ∧
      b'.edges = if source = s then (EdgeAct.added edge).perform b.edges else b.edges := by
  obtain ⟨b, hb, hadded, rfl⟩ := addEdge_eq_ok he
  refine edges_changed hb (fun h => ?_) (fun h => ?_) hb'
  · rw [hadded, Bool.not_eq_true'] at h
    rw [EdgeAct.perform, h, if_neg Bool.false_ne_true]
    rfl
  · rw [hadded, Bool.not_eq_false'] at h
    rw [EdgeAct.perform, h, if_pos rfl]

/-- The edges of a block after edges were removed from one. -/
theorem Edit.edges_removeEdge {target : BlockId} {relation : Relation} {removed : Bool}
    (he : removeEdge source relation target d = .ok removed d') (hb' : d'.block? s = some b') :
    ∃ b, d.block? s = some b ∧
      b'.edges = if source = s then (EdgeAct.removed relation target).perform b.edges
        else b.edges := by
  obtain ⟨b, hb, hremoved, rfl⟩ := removeEdge_eq_ok he
  refine edges_changed hb (fun _ => rfl) (fun h => ?_) hb'
  rw [hremoved, List.any_eq_false] at h
  rw [EdgeAct.perform, eq_comm, List.filter_eq_self]
  intro e he
  rw [Bool.eq_false_iff.mpr (h e he), Bool.not_false]

/-- An edit that carries out an act when it succeeds, and that changes nothing otherwise. -/
theorem Edit.edges_after_act {α : Type} {e : Edit α} (hfirst : e.ChecksFirst d)
    (hact : ∀ a d', e d = .ok a d' → d'.block? s = some b' → ∃ b, d.block? s = some b ∧
      b'.edges = if source = s then act.perform b.edges else b.edges)
    (hb' : (e.after d).block? s = some b') :
    ∃ b, d.block? s = some b ∧
      b'.edges = (if source = s ∧ (e.answer? d).isSome then [act] else []).foldl EdgeAct.perform
        b.edges := by
  rw [after] at hb'
  rw [answer?]
  cases he : e d with
  | error failure d' =>
    rw [he] at hb'
    rw [show d' = d from hfirst failure d' he] at hb'
    exact ⟨b', hb', by simp⟩
  | ok a d' =>
    rw [he] at hb'
    obtain ⟨b, hb, hedges⟩ := hact a d' he hb'
    refine ⟨b, hb, ?_⟩
    by_cases hs : source = s <;> simp [hedges, hs]

end Acts

/-! ## New blocks -/

/-- An addition without an id left changes only the source of ids. -/
theorem Edit.add_eq_error {parent : BlockId} {content : Content} {role : Option Role}
    {label : Option String} {position : Option Nat} {failure : Failure}
    (h : add parent content role label position d = .error failure d') :
    ∃ a, d' = d.withAllocator a := by
  cases hp : d.block? parent with
  | none =>
    have hrequire : require parent d = .error (.notFound parent) d := by
      show (ofExcept (d.require parent) : Edit Block) d = _
      rw [Document.require_eq, hp]
      rfl
    change EStateM.bind (require parent) _ d = _ at h
    rw [EStateM.bind, hrequire] at h
    cases h
    exact ⟨d.allocator, rfl⟩
  | some b =>
    rw [add, bind_of_ok (require_of_block? hp), bind_of_ok (rfl : (get : Edit Document) d = .ok d d)]
      at h
    rcases ha : d.allocator.allocate content role d.contains with ⟨id?, a⟩
    rw [ha] at h
    cases id? with
    | some id => cases h
    | none =>
      cases h
      exact ⟨a, rfl⟩

/-- A new block has no edges, and the others have those that they had. -/
theorem Edit.edges_add {parent id : BlockId} {content : Content} {role : Option Role}
    {label : Option String} {position : Option Nat}
    (he : add parent content role label position d = .ok id d') (hb' : d'.block? s = some b') :
    s = id ∧ b'.edges = [] ∨ s ≠ id ∧ ∃ b, d.block? s = some b ∧ b'.edges = b.edges := by
  obtain ⟨-, a, -, rfl⟩ := add_eq_ok he
  obtain ⟨b, hb, -, hedges⟩ := PartOf.withChildren _ parent _ s b' hb'
  rw [block?_withLeaf] at hb
  split at hb
  · rename_i hid
    cases hb
    exact .inl ⟨hid.symm, hedges⟩
  · rename_i hid
    exact .inr ⟨Ne.symm hid, b, hb, hedges⟩

/-! ## One change -/

namespace Change

/-- What a change does to the edges of a block, if it succeeds. -/
def edgeActs (d : Document) (s : BlockId) : Change → List EdgeAct
  | addEdge source edge =>
    if source = s ∧ ((Edit.addEdge source edge).answer? d).isSome then [.added edge] else []
  | removeEdge source relation target =>
    if source = s ∧ ((Edit.removeEdge source relation target).answer? d).isSome then
      [.removed relation target]
    else []
  | _ => []

/-- **One change** leaves a block without edges, if it adds it, and otherwise with the edges that its
acts make of those that the block had. -/
theorem edges_after (c : Change) (hb' : (c.after d).block? s = some b') :
    s ∈ c.issued d ∧ b'.edges = [] ∨ s ∉ c.issued d ∧
      ∃ b, d.block? s = some b ∧ b'.edges = (c.edgeActs d s).foldl EdgeAct.perform b.edges := by
  have keeps (hissued : c.issued d = []) (hacts : c.edgeActs d s = [])
      (hkeeps : KeepsEdges d (c.after d)) : s ∈ c.issued d ∧ b'.edges = [] ∨ s ∉ c.issued d ∧
        ∃ b, d.block? s = some b ∧ b'.edges = (c.edgeActs d s).foldl EdgeAct.perform b.edges := by
    obtain ⟨b, hb, hedges⟩ := hkeeps s b' hb'
    rw [hissued, hacts]
    exact .inr ⟨List.not_mem_nil, b, hb, hedges⟩
  cases c with
  | setContent id content => exact keeps rfl rfl (.after_update d id fun _ => rfl)
  | annotate id f => exact keeps rfl rfl (.after_update d id fun _ => rfl)
  | setAttribute id name value => exact keeps rfl rfl (.after_update d id fun _ => rfl)
  | addTag id tag => exact keeps rfl rfl (.after_addTag d id tag)
  | removeTag id tag => exact keeps rfl rfl (.after_removeTag d id tag)
  | delete id cascade => exact keeps rfl rfl (.after_delete d id cascade)
  | deleteOnly id => exact keeps rfl rfl (.after_deleteOnly d id)
  | prune => exact keeps rfl rfl (.of_partOf (PartOf.restrict d _))
  | move id parent position =>
    exact keeps rfl rfl (.of_same_or_moved
      ((Edit.after_move d id parent position).imp_right fun h => ⟨_, _, h⟩))
  | moveBefore id anchor =>
    exact keeps rfl rfl (.of_same_or_moved
      ((Edit.after_moveBeside d id anchor 0).imp_right fun h => ⟨_, h⟩))
  | moveAfter id anchor =>
    exact keeps rfl rfl (.of_same_or_moved
      ((Edit.after_moveBeside d id anchor 1).imp_right fun h => ⟨_, h⟩))
  | addEdge source edge =>
    exact .inr ⟨List.not_mem_nil, Edit.edges_after_act (Edit.checksFirst_addEdge d source edge)
      (fun _ _ => Edit.edges_addEdge) hb'⟩
  | removeEdge source relation target =>
    exact .inr ⟨List.not_mem_nil,
      Edit.edges_after_act (Edit.checksFirst_removeEdge d source relation target)
        (fun _ _ => Edit.edges_removeEdge) hb'⟩
  | add parent content role label position =>
    rw [after, Edit.after] at hb'
    rw [issued, Edit.answer?]
    cases he : Edit.add parent content role label position d with
    | error failure d' =>
      obtain ⟨a, rfl⟩ := Edit.add_eq_error he
      rw [he] at hb'
      exact .inr ⟨List.not_mem_nil, b', hb', rfl⟩
    | ok id d' =>
      rw [he] at hb'
      obtain ⟨hid, hedges⟩ | ⟨hid, b, hb, hedges⟩ := Edit.edges_add he hb'
      · exact .inl ⟨List.mem_singleton.mpr hid, hedges⟩
      · exact .inr ⟨fun h => hid (List.mem_singleton.mp h), b, hb, hedges⟩

end Change

/-! ## Runs -/

/-- The acts on the edges of a block in a run, after the given ones. They start anew whenever the block
is added. -/
def edgeHistory (s : BlockId) : Document → List EdgeAct → List Change → List EdgeAct
  | _, acts, [] => acts
  | d, acts, c :: cs =>
    edgeHistory s (c.after d) (if s ∈ c.issued d then [] else acts ++ c.edgeActs d s) cs

theorem standing_append (acts more : List EdgeAct) :
    standing (acts ++ more) = more.foldl EdgeAct.perform (standing acts) := by
  induction more generalizing acts with
  | nil => rw [List.append_nil, List.foldl_nil]
  | cons x more ih =>
    rw [List.foldl_cons, ← standing_concat, ← ih, List.append_assoc, List.singleton_append]

/-- **A run**: the edges of a block are what stands of its history. -/
theorem Document.edges_run {acts : List EdgeAct} (cs : List Change)
    (h : ∀ b, d.block? s = some b → b.edges = standing acts)
    (hb' : (Change.run d cs).block? s = some b') : b'.edges = standing (edgeHistory s d acts cs) := by
  induction cs generalizing d acts with
  | nil => exact h b' hb'
  | cons c cs ih =>
    rw [edgeHistory]
    refine ih (fun b₁ hb₁ => ?_) hb'
    obtain ⟨hs, hedges⟩ | ⟨hs, b, hb, hedges⟩ := c.edges_after hb₁
    · rw [if_pos hs]
      exact hedges
    · rw [if_neg hs, standing_append, hedges, h b hb]

/-! ## Edges that lead to a block -/

theorem Block.hasEdgeTo_some (b : Block) (target : BlockId) (relation : Relation) :
    b.hasEdgeTo target (some relation) = b.edges.any (·.matches relation target) := by
  refine congrArg b.edges.any (funext fun e => ?_)
  rw [Edge.matches, Option.all_some, Bool.and_comm]

/-- The edges that lead to a target are listed block by block. -/
theorem Document.incoming_eq (h : d.Stored) (target : BlockId) :
    d.incoming target = d.blocks.keys.flatMap fun s =>
      (((d.block? s).elim [] Block.edges).filter (·.target == target)).map (s, ·) := by
  rw [incoming, Map.values_eq_map_toList, ← Std.ExtTreeMap.map_fst_toList_eq_keys, List.flatMap_map,
    List.flatMap_map]
  refine List.flatMap_congr fun entry hentry => ?_
  have hb : d.block? entry.1 = some entry.2 :=
    Std.ExtTreeMap.mem_toList_iff_getElem?_eq_some.mp hentry
  rw [hb, Option.elim_some, h entry.1 entry.2 hb]

theorem Document.mem_incoming_iff (h : d.Stored) {target : BlockId} {e : Edge} :
    (s, e) ∈ d.incoming target ↔ ∃ b, d.block? s = some b ∧ e ∈ b.edges ∧ e.target = target := by
  rw [incoming, List.mem_flatMap]
  constructor
  · rintro ⟨b, hb, hmem⟩
    obtain ⟨id, hid⟩ := Map.mem_values.mp hb
    obtain ⟨e', he', hpair⟩ := List.mem_map.mp hmem
    obtain ⟨rfl, rfl⟩ := Prod.mk.inj hpair
    obtain ⟨hedge, htarget⟩ := List.mem_filter.mp he'
    refine ⟨b, ?_, hedge, by simpa using htarget⟩
    rwa [h id b hid]
  · rintro ⟨b, hb, hedge, htarget⟩
    refine ⟨b, Map.mem_values.mpr ⟨s, hb⟩, List.mem_map.mpr ⟨e, ?_, by rw [h s b hb]⟩⟩
    exact List.mem_filter.mpr ⟨hedge, by simpa using htarget⟩

/-- **Edges are a matter of what was done to them**, whatever else happens in a run of edits from a new
document. A block holds no two edges with the same relation and target. Its edges are what stands of the
acts on its edges since it was added: one leads to a target if the last act on it was an addition, they
are in the order of the additions that stand, and each is as it was given when it was added. The edges
that lead to a block are listed in the order of the ids of the blocks that they leave, and for each of
these in its own order. -/
theorem Document.edges_settled (a : Allocator) (cs : List Change) :
    let d := Change.run (create a) cs
    (∀ s b, d.block? s = some b →
      (b.edges.map fun e => (e.relation, e.target)).Nodup ∧
      b.edges = standing (edgeHistory s (create a) [] cs) ∧
      (∀ relation target, d.hasEdge s target (some relation) = true ↔
        ∃ edge, lastAct? (edgeHistory s (create a) [] cs) relation target = some (.added edge)) ∧
      ∀ e ∈ b.edges, ∃ before later,
        edgeHistory s (create a) [] cs = before ++ .added e :: later ∧
        (∀ edge, lastAct? before e.relation e.target ≠ some (.added edge)) ∧
        later.any (EdgeAct.removes e) = false) ∧
    ∀ target,
      (∀ s e, (s, e) ∈ d.incoming target ↔
        ∃ b, d.block? s = some b ∧ e ∈ b.edges ∧ e.target = target) ∧
      d.incoming target = (d.blocks.keys.flatMap fun s =>
        (((d.block? s).elim [] Block.edges).filter (·.target == target)).map (s, ·)) ∧
      d.blocks.keys.Pairwise (compare · · = .lt) := by
  intro d
  have hstored : d.Stored := ((isTree_create a).run cs).stored
  refine ⟨fun s b hb => ?_, fun target =>
    ⟨fun s e => mem_incoming_iff hstored, incoming_eq hstored target, Std.ExtTreeMap.ordered_keys⟩⟩
  have hedges : b.edges = standing (edgeHistory s (create a) [] cs) := by
    refine edges_run cs (fun b₀ hb₀ => ?_) hb
    rw [block?_create] at hb₀
    split at hb₀
    · cases hb₀
      rfl
    · cases hb₀
  refine ⟨?_, hedges, fun relation target => ?_, fun e he => ?_⟩
  · rw [hedges]
    exact nodup_standing _
  · rw [hasEdge, hb, Option.any_some, Block.hasEdgeTo_some, hedges, any_standing_iff]
  · rw [hedges] at he
    exact exists_of_mem_standing he

/-- A block below the root, two edges from the root to it, of which the second comes too late, and the
deletion of the block. -/
def outlived : List Change :=
  let child : BlockId := .ofSuffix 2
  [.add (.ofSuffix 1) (.text "a") none none none,
   .addEdge (.ofSuffix 1) { relation := .references, target := child },
   .addEdge (.ofSuffix 1)
     { relation := .references, target := child, note := { description := some "again" } },
   .delete child false]

/-- The edge outlives the block that it leads to. -/
theorem Document.edges_settled_outlived :
    let d := Change.run (create ⟨.sequential, 1⟩) outlived
    ∃ b, d.block? (.ofSuffix 1) = some b ∧ d.contains (.ofSuffix 2) = false ∧
      (b.edges.map fun e => (e.relation, e.target)).Nodup ∧
      ∃ edge, lastAct? (edgeHistory (.ofSuffix 1) (create ⟨.sequential, 1⟩) [] outlived) .references
        (.ofSuffix 2) = some (.added edge) := by
  intro d
  have hroot : d.contains (.ofSuffix 1) = true := by decide +kernel
  have hedge : d.hasEdge (.ofSuffix 1) (.ofSuffix 2) (some .references) = true := by decide +kernel
  obtain ⟨b, hb⟩ := contains_iff.mp hroot
  obtain ⟨hnodup, -, hlast, -⟩ := (edges_settled ⟨.sequential, 1⟩ outlived).1 _ b hb
  exact ⟨b, hb, by decide +kernel, hnodup, (hlast _ _).mp hedge⟩

end BlockDocument
