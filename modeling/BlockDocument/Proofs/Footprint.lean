import BlockDocument.Proofs.Document.Cascade
import BlockDocument.Proofs.Inspection.Precheck

/-!
# Which blocks a mutation touches

A mutation marks the blocks that it affects as changed and leaves every other block exactly as it was:
its content, what is known about it, its edges and its children. Which blocks those are is said for each
kind of mutation (`Mutation.Affects`), from the document before it.

The edits are read as steps that touch a class of blocks each (`Document.Touches`). Such steps compose,
and a step is about the blocks that stay: what is new or deleted is in no class.
-/

namespace BlockDocument

namespace Document

/-- A step that marks the blocks of a class as changed and leaves all others as they are. Only blocks
that are there before and after it are looked at. -/
structure Touches (A : BlockId → Prop) (d d' : Document) : Prop where
  marked : ∀ x b b', A x → d.block? x = some b → d'.block? x = some b' →
    b'.metadata.modified = .current
  kept : ∀ x b b', ¬ A x → d.block? x = some b → d'.block? x = some b' → b' = b

namespace Touches

variable {A B : BlockId → Prop} {d d' d'' : Document} {id p : BlockId}

/-- A step that looks up blocks as before touches none. -/
theorem of_block?_eq (h : ∀ x b b', d.block? x = some b → d'.block? x = some b' → b' = b) :
    Touches (fun _ => False) d d' where
  marked _ _ _ hx := hx.elim
  kept x b b' _ := h x b b'

/-- The class matters for the blocks that there are. -/
theorem congr (h : Touches A d d') (hAB : ∀ x, d.contains x = true → (A x ↔ B x)) :
    Touches B d d' where
  marked x b b' hx hb := h.marked x b b' ((hAB x (contains_iff.mpr ⟨b, hb⟩)).mpr hx) hb
  kept x b b' hx hb := h.kept x b b' (fun hA => hx ((hAB x (contains_iff.mpr ⟨b, hb⟩)).mp hA)) hb

/-- Two steps touch what one of them touches, if no block is gone in between. -/
theorem trans (h : Touches A d d') (h' : Touches B d' d'')
    (hthere : ∀ x, d.contains x = true → d''.contains x = true → d'.contains x = true) :
    Touches (fun x => A x ∨ B x) d d'' := by
  have between {x : BlockId} {b b'' : Block} (hb : d.block? x = some b)
      (hb'' : d''.block? x = some b'') : ∃ b', d'.block? x = some b' :=
    contains_iff.mp (hthere x (contains_iff.mpr ⟨b, hb⟩) (contains_iff.mpr ⟨b'', hb''⟩))
  refine ⟨fun x b b'' hx hb hb'' => ?_, fun x b b'' hx hb hb'' => ?_⟩
  · obtain ⟨b', hb'⟩ := between hb hb''
    by_cases hB : B x
    · exact h'.marked x b' b'' hB hb' hb''
    · rw [h'.kept x b' b'' hB hb' hb'']
      exact h.marked x b b' (hx.resolve_right hB) hb hb'
  · obtain ⟨b', hb'⟩ := between hb hb''
    obtain ⟨hA, hB⟩ := not_or.mp hx
    exact (h'.kept x b' b'' hB hb' hb'').trans (h.kept x b b' hA hb hb')

/-! ### Steps -/

/-- A change to one block that marks it. -/
theorem withBlock (d : Document) (id : BlockId) {f : Block → Block}
    (hf : ∀ b, (f b).metadata.modified = .current) : Touches (· = id) d (d.withBlock id f) where
  marked x b b' hx hb hb' := by
    rw [block?_withBlock, if_pos hx.symm, hb] at hb'
    cases hb'
    exact hf b
  kept x b b' hx hb hb' := by
    rw [block?_withBlock, if_neg (Ne.symm hx), hb] at hb'
    exact (Option.some.inj hb').symm

theorem withChildren (d : Document) (p : BlockId) (cs : List BlockId) :
    Touches (· = p) d (d.withChildren p cs) where
  marked x b b' hx hb hb' := by
    rw [block?_withChildren, if_pos hx.symm, hb] at hb'
    cases hb'
    rfl
  kept x b b' hx hb hb' := by
    rw [block?_withChildren, if_neg (Ne.symm hx), hb] at hb'
    exact (Option.some.inj hb').symm

theorem restrict (d : Document) (keep : BlockId → Bool) :
    Touches (fun _ => False) d (d.restrict keep) := by
  refine .of_block?_eq fun x b b' hb hb' => ?_
  rw [block?_restrict] at hb'
  split at hb'
  · rw [hb] at hb'
    exact (Option.some.inj hb').symm
  · cases hb'

/-- That blocks are gone afterwards touches none of those that stay. -/
theorem restricted (h : Touches A d d') (hthere : ∀ x, d'.contains x = d.contains x)
    (keep : BlockId → Bool) : Touches A d (d'.restrict keep) :=
  (h.trans (restrict d' keep) fun x hx _ => by rwa [hthere]).congr fun _ _ => or_iff_left not_false

/-- A new block is not one of those that stay. -/
theorem withLeaf (a : Allocator) (hid : d.contains id = false) (leaf : Block) :
    Touches (fun _ => False) d ((d.withAllocator a).withLeaf id leaf) := by
  refine .of_block?_eq fun x b b' hb hb' => ?_
  have hne : id ≠ x := by
    rintro rfl
    rw [contains_iff.mpr ⟨b, hb⟩] at hid
    cases hid
  rw [block?_withLeaf, if_neg hne] at hb'
  exact Option.some.inj (hb'.symm.trans hb)

/-- The only parent loses the block from its list. -/
theorem detach (h : d.IsForest) (id : BlockId) :
    Touches (fun x => id ∈ d.childrenOf x) d (d.detach id) where
  marked x b b' hx hb hb' := by
    rw [h.block?_detach, hb, Option.map_some, if_pos hx] at hb'
    cases hb'
    rfl
  kept x b b' hx hb hb' := by
    rw [h.block?_detach, hb, Option.map_some, if_neg hx] at hb'
    exact (Option.some.inj hb').symm

theorem attach (d : Document) (id p : BlockId) (n : Nat) :
    Touches (fun x => x = p ∨ x = id) d (d.attach id p n) :=
  (withChildren d p _).trans (withBlock _ id fun _ => rfl) fun x hx _ => by
    rwa [contains_withChildren]

/-! ### Edits -/

theorem added (hid : d.contains id = false) (a : Allocator) (leaf : Block) (parent : BlockId)
    (cs : List BlockId) {f : Block → Block} (hf : ∀ b, (f b).metadata.modified = .current) :
    Touches (· = parent) d
      ((((d.withAllocator a).withLeaf id leaf).withChildren parent cs).withBlock id f) := by
  have hleaf := withLeaf a hid leaf
  have hplaced := hleaf.trans (withChildren _ parent cs) fun x hx _ => by
    rw [contains_withLeaf, Bool.or_eq_true]
    exact .inr hx
  have hannotated := hplaced.trans (withBlock _ id hf) fun x _ hx => by
    rwa [contains_withBlock] at hx
  refine hannotated.congr fun x hx => ⟨?_, fun hxp => .inl (.inr hxp)⟩
  rintro ((hno | hxp) | rfl)
  · exact hno.elim
  · exact hxp
  · rw [hx] at hid
    cases hid

theorem addDraft {parent : BlockId} {position : Option Nat} {draft : Draft}
    (he : Edit.addDraft parent position draft d = .ok id d') : Touches (· = parent) d d' := by
  obtain ⟨d₁, f, hadd, rfl⟩ := Edit.addDraft_eq_ok he
  obtain ⟨-, a, ha, rfl⟩ := Edit.add_eq_ok hadd
  exact added (taken_allocate ha) a _ parent _ fun _ => rfl

theorem setField {l : Limits} {field : Field} {value : String} {u : Unit}
    (he : Edit.setField l id field value d = .ok u d') : Touches (· = id) d d' := by
  rcases Edit.setField_eq_ok he with ⟨f, rfl⟩ | ⟨b, c, -, rfl, -⟩
  · exact withBlock d id fun _ => rfl
  · exact withBlock d id fun _ => rfl

theorem delete (h : d.IsForest) {cascade : Bool} {removed : List BlockId}
    (he : Edit.delete id cascade d = .ok removed d') :
    Touches (fun x => id ∈ d.childrenOf x) d d' := by
  obtain ⟨-, -, -, -, rfl⟩ := Edit.delete_eq_ok he
  rw [eraseAll_eq_restrict]
  exact (detach h id).restricted (contains_detach id) _

theorem deleteOnly (h : d.IsForest) {removed : List BlockId}
    (he : Edit.deleteOnly id d = .ok removed d') : Touches (fun x => id ∈ d.childrenOf x) d d' := by
  obtain ⟨-, -, -, p, hp, rfl⟩ := Edit.deleteOnly_eq_ok he
  have hid := parent?_eq_some hp
  rw [eraseAll_eq_restrict]
  refine ((withChildren d p _).restricted (contains_withChildren d p _) _).congr fun x _ => ?_
  exact ⟨fun hx => hx ▸ hid, fun hx => h.parent_unique x p id hx hid⟩

theorem moved (h : d.IsForest) (id p : BlockId) (n : Nat) :
    Touches (fun x => id ∈ d.childrenOf x ∨ x = p ∨ x = id) d ((d.detach id).attach id p n) :=
  (detach h id).trans (attach _ id p n) fun x hx _ => by rwa [contains_detach]

end Touches

/-- The parent that a place is under. -/
def Receives (d : Document) : Place BlockId → BlockId → Prop
  | .under parent _, x => x = parent
  | .before anchor, x | .after anchor, x => anchor ∈ d.childrenOf x

/-- There is one such parent, the one that a move looks up. -/
theorem IsForest.receives_iff {d : Document} (h : d.IsForest) {place : Place BlockId} {p x : BlockId}
    (hp : d.parentOf? place = some p) : d.Receives place x ↔ x = p := by
  cases place with
  | under parent position =>
    obtain rfl : parent = p := Option.some.inj hp
    exact Iff.rfl
  | before anchor | after anchor =>
    have hanchor := parent?_eq_some hp
    exact ⟨fun hx => h.parent_unique x p anchor hx hanchor, fun hx => hx ▸ hanchor⟩

end Document

open Document

/-- The blocks that a mutation affects, besides those that it adds or deletes: the parent of a new
block; a block of which a field, an edge or a tag is changed; the parent of a deleted block, if it has
one; a block that is moved, with its old parent, if it has one, and its new one. A prune affects none. -/
def Mutation.Affects (d : Document) : Mutation → BlockId → Prop
  | add parent _ _, x => x = parent
  | set id _ _, x => x = id
  | delete id _, x => id ∈ d.childrenOf x
  | move id place, x => x = id ∨ id ∈ d.childrenOf x ∨ d.Receives place x
  | addEdge source _ _ _, x => x = source
  | removeEdge source _ _, x => x = source
  | addTag id _, x => x = id
  | removeTag id _, x => x = id
  | prune, _ => False

namespace Mutation

variable {l : Limits} {d d' : Document}

theorem touches_moveTo (h : d.IsForest) {id : BlockId} {place : Place BlockId} {u : Unit}
    (he : Edit.moveTo id place d = .ok u d') : d.Touches ((move id place).Affects d) d' := by
  obtain ⟨p, n, hp, -, rfl⟩ := Edit.moveTo_eq_ok he
  refine (Touches.moved h id p n).congr fun x _ => ?_
  show _ ↔ x = id ∨ id ∈ d.childrenOf x ∨ d.Receives place x
  rw [h.receives_iff hp]
  tauto

theorem touches_remove (h : d.IsForest) {id : BlockId} {fate : Fate} {removed : List BlockId}
    (he : Edit.remove id fate d = .ok removed d') : d.Touches ((delete id fate).Affects d) d' := by
  cases fate with
  | none | deleted => exact Touches.delete h he
  | kept => exact Touches.deleteOnly h he

/-- An edit of one block that may have had nothing to do. -/
theorem touches_ofChange {id : BlockId} {f : Block → Block}
    (hf : ∀ b, (f b).metadata.modified = .current) {changed : Bool}
    (hd' : d' = if changed then d.withBlock id f else d) :
    (Outcome.ofChange changed = .unchanged → d' = d) ∧
      (Outcome.ofChange changed ≠ .unchanged → d.Touches (· = id) d') := by
  subst hd'
  cases changed with
  | true => exact ⟨nofun, fun _ => Touches.withBlock d id hf⟩
  | false => exact ⟨fun _ => rfl, fun hne => absurd rfl hne⟩

/-- **A mutation touches the blocks that it affects and no other one**: of the blocks that stay, those
that it affects are marked as changed and the others are as they were. If it had nothing to do, the
document is as it was. -/
theorem touches_apply {m : Mutation} {outcome : Outcome} (hd : d.Clean)
    (hm : m.apply l d = .ok outcome d') :
    (outcome = .unchanged → d' = d) ∧ (outcome ≠ .unchanged → d.Touches (m.Affects d) d') := by
  have h := clean_iff.mp hd
  cases apply_eq_ok_iff.mp hm with
  | add _ he => exact ⟨nofun, fun _ => Touches.addDraft he⟩
  | set _ he => exact ⟨nofun, fun _ => Touches.setField he⟩
  | delete he => exact ⟨nofun, fun _ => touches_remove h he⟩
  | move _ he => exact ⟨nofun, fun _ => touches_moveTo h he⟩
  | addEdge _ he =>
    obtain ⟨-, -, -, hd'⟩ := Edit.addEdge_eq_ok he
    exact touches_ofChange (fun _ => rfl) hd'
  | removeEdge he =>
    obtain ⟨-, -, -, hd'⟩ := Edit.removeEdge_eq_ok he
    exact touches_ofChange (fun _ => rfl) hd'
  | addTag he =>
    obtain ⟨-, -, -, hd'⟩ := Edit.addTag_eq_ok he
    exact touches_ofChange (fun _ => rfl) hd'
  | removeTag he =>
    obtain ⟨-, -, -, hd'⟩ := Edit.removeTag_eq_ok he
    exact touches_ofChange (fun _ => rfl) hd'
  | prune he =>
    obtain ⟨-, rfl⟩ := Edit.prune_eq_ok he
    exact ⟨nofun, fun _ => Touches.restrict d _⟩

end Mutation

namespace Document

/-- Sets the time of the last change of blocks. -/
def recordedAt (d : Document) (time : Time.Instant) (ids : List BlockId) : Document :=
  ids.foldl (fun d id => d.withBlock id fun b =>
    { b with metadata := { b.metadata with modified := .recorded time } }) d

theorem IsForest.recordedAt {d : Document} (h : d.IsForest) (time : Time.Instant)
    (ids : List BlockId) : (d.recordedAt time ids).IsForest := by
  induction ids generalizing d with
  | nil => exact h
  | cons id ids ih => exact ih (h.withBlock (fun _ => rfl) fun _ => rfl)

/-- A root with two blocks below it, of which the first has a child, all last changed at one time. -/
def recordedFamily : Document :=
  (Change.run (create ⟨.sequential, 1⟩)
    [.add (.ofSuffix 1) (.text "a") none none none, .add (.ofSuffix 1) (.text "b") none none none,
      .add (.ofSuffix 2) (.text "c") none none none]).recordedAt ⟨0, 0⟩ ([1, 2, 3, 4].map .ofSuffix)

theorem clean_recordedFamily : recordedFamily.Clean :=
  clean_iff.mpr ((clean_iff.mp (clean_run_create ⟨.sequential, 1⟩ _)).recordedAt ⟨0, 0⟩ _)

end Document

/-- A move from one parent to another marks the block and both parents, but not the root. Where there
is no tag to remove, nothing is marked. -/
theorem Mutation.touches_apply_recordedFamily :
    let m : Mutation := .move (.ofSuffix 4) (.under (.ofSuffix 3) none)
    let untag : Mutation := .removeTag (.ofSuffix 2) "draft"
    recordedFamily.Clean ∧
      (∃ d', m.apply {} recordedFamily = .ok .updated d' ∧
        recordedFamily.Touches (m.Affects recordedFamily) d' ∧
        [1, 2, 3, 4].filterMap (fun n => (d'.block? (.ofSuffix n)).map (·.metadata.modified)) =
          [.recorded ⟨0, 0⟩, .current, .current, .current]) ∧
      ∃ d', untag.apply {} recordedFamily = .ok .unchanged d' ∧ d' = recordedFamily := by
  intro m untag
  have hmoved : m.apply {} recordedFamily = _ :=
    Edit.eq_ok_after (by decide +kernel : (m.apply {}).answer? recordedFamily = some .updated)
  have huntagged : untag.apply {} recordedFamily = _ :=
    Edit.eq_ok_after (by decide +kernel : (untag.apply {}).answer? recordedFamily = some .unchanged)
  exact ⟨clean_recordedFamily,
    ⟨_, hmoved, (touches_apply clean_recordedFamily hmoved).2 (by decide), by decide +kernel⟩,
    _, huntagged, (touches_apply clean_recordedFamily huntagged).1 rfl⟩

end BlockDocument
