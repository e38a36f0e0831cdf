import BlockDocument.Proofs.Document.Graft
import BlockDocument.Proofs.Document.Outcome

/-!
# Every edit keeps a forest

The edits are read as the three steps of `IsForest`: adding a leaf, taking a block out of its list
and putting it into another one, and leaving out a part. For each edit there is one lemma, and none
of them asks more than that the document was a forest before.
-/

namespace BlockDocument

/-! ## Lists -/

theorem insertAt_perm {α : Type} (xs : List α) (n : Nat) (x : α) :
    (insertAt xs n x).Perm (x :: xs) :=
  List.perm_insertIdx x xs (Nat.min_le_right ..)

theorem spliceFor_eq {α : Type} [DecidableEq α] (x : α) (ys : List α) (as bs : List α)
    (h : x ∉ as) : spliceFor x ys (as ++ x :: bs) = as ++ (ys ++ bs) := by
  induction as with
  | nil => simp [spliceFor]
  | cons a as ih =>
    rw [List.mem_cons, not_or] at h
    rw [List.cons_append, spliceFor, if_neg (Ne.symm h.1), ih h.2]
    rfl

/-- Where an item occurs once, the list takes its place. -/
theorem mem_spliceFor {α : Type} [DecidableEq α] {x : α} {ys zs : List α} (hx : x ∈ zs)
    (hnd : zs.Nodup) {z : α} : z ∈ spliceFor x ys zs ↔ z ∈ ys ∨ z ∈ zs ∧ z ≠ x := by
  obtain ⟨as, bs, rfl⟩ := List.append_of_mem hx
  have hd := List.nodup_append.mp hnd
  have has : x ∉ as := fun h => hd.2.2 x h x List.mem_cons_self rfl
  have hbs : x ∉ bs := (List.nodup_cons.mp hd.2.1).1
  rw [spliceFor_eq x ys as bs has]
  simp only [List.mem_append, List.mem_cons]
  constructor
  · rintro (h | h | h)
    · exact .inr ⟨.inl h, fun hz => has (hz ▸ h)⟩
    · exact .inl h
    · exact .inr ⟨.inr (.inr h), fun hz => hbs (hz ▸ h)⟩
  · rintro (h | ⟨h | h | h, hz⟩)
    · exact .inr (.inl h)
    · exact .inl h
    · exact absurd h hz
    · exact .inr (.inr h)

theorem nodup_spliceFor {α : Type} [DecidableEq α] {x : α} {ys zs : List α} (hx : x ∈ zs)
    (hzs : zs.Nodup) (hys : ys.Nodup) (hdis : ys.Disjoint zs) : (spliceFor x ys zs).Nodup := by
  obtain ⟨as, bs, rfl⟩ := List.append_of_mem hx
  have hd := List.nodup_append.mp hzs
  have has : x ∉ as := fun h => hd.2.2 x h x List.mem_cons_self rfl
  rw [spliceFor_eq x ys as bs has, List.nodup_append, List.nodup_append]
  refine ⟨hd.1, ⟨hys, (List.nodup_cons.mp hd.2.1).2, fun a ha b hb => ?_⟩, fun a ha b hb => ?_⟩
  · rintro rfl
    exact hdis ha (by simp [hb])
  · rintro rfl
    rcases List.mem_append.mp hb with hb | hb
    · exact hdis hb (by simp [ha])
    · exact hd.2.2 a ha a (List.mem_cons_of_mem _ hb) rfl

namespace Document

variable {d : Document}

/-! ## A change to one block -/

theorem IsForest.annotated (h : d.IsForest) {d' : Document} (ha : Edit.Annotated d d') :
    d'.IsForest := by
  obtain ⟨id, f, hid, hcs, rfl⟩ := ha.eq
  exact h.withBlock hid hcs

/-! ## A leaf -/

theorem IsForest.withAllocator (h : d.IsForest) (a : Allocator) : (d.withAllocator a).IsForest :=
  ⟨h.stored, h.root_mem, h.parent_mem, h.child_mem, h.root_unlisted, h.nodup, h.parent_unique,
    h.lockstep, h.acyclic⟩

theorem block?_withLeaf (id : BlockId) (b : Block) (q : BlockId) :
    (d.withLeaf id b).block? q = if id = q then some b else d.block? q := by
  rw [block?, withLeaf, Std.ExtTreeMap.getElem?_insert]
  simp [block?]

theorem contains_withLeaf (id : BlockId) (b : Block) (q : BlockId) :
    (d.withLeaf id b).contains q = (decide (id = q) || d.contains q) := by
  rw [contains_eq_isSome, block?_withLeaf, contains_eq_isSome]
  by_cases h : id = q <;> simp [h]

/-- What is not a block has no children and no parent in a forest. -/
theorem IsForest.fresh (h : d.IsForest) {id : BlockId} (hid : d.contains id = false) :
    d.childrenOf id = [] ∧ (∀ p, id ∉ d.childrenOf p) ∧ id ≠ d.root := by
  refine ⟨childrenOf_eq_nil fun ht => ?_, fun p hp => ?_, ?_⟩
  · simp [h.parent_mem id ht] at hid
  · simp [h.child_mem p id hp] at hid
  · rintro rfl
    simp [h.root_mem] at hid

/-- A fresh leaf lists nothing, so the lists of children stay as they are. -/
theorem IsForest.childrenOf_withLeaf (h : d.IsForest) {id : BlockId}
    (hid : d.contains id = false) (b : Block) : (d.withLeaf id b).childrenOf = d.childrenOf := by
  funext q
  rw [childrenOf, withLeaf, Std.ExtTreeMap.getD_insert]
  by_cases hq : id = q
  · simp [← hq, (h.fresh hid).1]
  · simp [hq, childrenOf]

theorem IsForest.withLeaf (h : d.IsForest) {id : BlockId} (hid : d.contains id = false) {b : Block}
    (hb : b.id = id) (hcs : b.children = []) : (d.withLeaf id b).IsForest := by
  have hch := h.childrenOf_withLeaf hid b
  exact {
    stored := fun q b' hq => by
      rw [block?_withLeaf] at hq
      split at hq
      · obtain rfl : b = b' := by simpa using hq
        rwa [hb]
      · exact h.stored q b' hq
    root_mem := by
      rw [contains_withLeaf]
      simp [Document.withLeaf, h.root_mem]
    parent_mem := fun p hp => by
      rw [contains_withLeaf]
      rcases Std.ExtTreeMap.mem_insert.mp hp with hp | hp
      · simp [Std.LawfulEqCmp.compare_eq_iff_eq.mp hp]
      · simp [h.parent_mem p hp]
    child_mem := fun p c hc => by
      rw [hch] at hc
      simp [contains_withLeaf, h.child_mem p c hc]
    root_unlisted := fun p => by
      rw [hch]
      exact h.root_unlisted p
    nodup := fun p => by
      rw [hch]
      exact h.nodup p
    parent_unique := fun p q c hp hq => by
      rw [hch] at hp hq
      exact h.parent_unique p q c hp hq
    lockstep := fun q b' hq => by
      rw [hch]
      rw [block?_withLeaf] at hq
      split at hq
      · rename_i he
        obtain rfl : b = b' := by simpa using hq
        rw [hcs, ← he, (h.fresh hid).1]
      · exact h.lockstep q b' hq
    acyclic := fun x => by
      rw [hch]
      exact h.acyclic x }

theorem IsForest.after_add (h : d.IsForest) (parent : BlockId) (content : Content)
    (role : Option Role) (label : Option String) (position : Option Nat) :
    ((Edit.add parent content role label position).after d).IsForest := by
  obtain ⟨a, ha⟩ | ⟨a, id, b, n, hp, hid, hb, hcs, ha⟩ :=
    Edit.after_add d parent content role label position
  · rw [ha]
    exact h.withAllocator a
  rw [ha]
  have hf := h.withAllocator a
  have hid' : (d.withAllocator a).contains id = false := hid
  have hch := hf.childrenOf_withLeaf hid' b
  have hleaf := hf.withLeaf hid' hb hcs
  have hperm := insertAt_perm (d.childrenOf parent) n id
  obtain ⟨hnil, hfree, hroot⟩ := hf.fresh hid'
  refine hleaf.withChildren ?_ (hperm.nodup_iff.mpr ?_) fun c hc => ?_
  · rw [contains_withLeaf]
    simp only [Bool.or_eq_true]
    exact .inr hp
  · exact List.nodup_cons.mpr ⟨hfree parent, hf.nodup parent⟩
  · rcases List.mem_cons.mp (hperm.mem_iff.mp hc) with rfl | hc
    · refine ⟨by simp [contains_withLeaf], hroot, fun q _ => by rw [hch]; exact hfree q, ?_⟩
      rw [hch]
      intro hl
      obtain rfl := hl.eq_of_leaf hnil
      rw [show d.contains parent = true from hp] at hid
      cases hid
    · exact hleaf.child_graftable (by rwa [hch])

/-! ## Moves -/

@[simp] theorem root_detach (id : BlockId) : (d.detach id).root = d.root := by
  rw [detach]
  split <;> rfl

@[simp] theorem contains_detach (id q : BlockId) : (d.detach id).contains q = d.contains q := by
  rw [detach]
  split
  · rw [contains_withChildren]
  · rfl

/-- In a forest the parent that is found is the only one. -/
theorem IsForest.parent?_eq_some_iff (h : d.IsForest) {id p : BlockId} :
    d.parent? id = some p ↔ id ∈ d.childrenOf p := by
  refine ⟨parent?_eq_some, fun hid => ?_⟩
  cases hq : d.parent? id with
  | none => exact absurd hid (parent?_eq_none hq p)
  | some q => rw [h.parent_unique q p id (parent?_eq_some hq) hid]

/-- A child has one parent in a forest, so taking it out of that list takes it out of all. -/
theorem IsForest.childrenOf_detach (h : d.IsForest) (id q : BlockId) :
    (d.detach id).childrenOf q = (d.childrenOf q).filter (· ≠ id) := by
  have stays {q : BlockId} (hq : id ∉ d.childrenOf q) :
      d.childrenOf q = (d.childrenOf q).filter (· ≠ id) := by
    refine (List.filter_eq_self.mpr fun c hc => ?_).symm
    simpa using ne_of_mem_of_not_mem hc hq
  rw [detach]
  split
  · rename_i p hp
    rw [childrenOf_withChildren]
    split
    · rename_i hq
      rw [hq]
    · rename_i hq
      exact stays fun hid => hq (h.parent_unique q p id hid (parent?_eq_some hp))
  · rename_i hp
    exact stays (parent?_eq_none hp q)

theorem IsForest.mem_childrenOf_detach (h : d.IsForest) {id q c : BlockId} :
    c ∈ (d.detach id).childrenOf q ↔ c ∈ d.childrenOf q ∧ c ≠ id := by
  rw [h.childrenOf_detach, List.mem_filter]
  simp

theorem IsForest.detach (h : d.IsForest) (id : BlockId) : (d.detach id).IsForest := by
  rw [Document.detach]
  split
  · rename_i p hp
    have hpm := h.parent_mem p (mem_tree_of_mem_childrenOf (parent?_eq_some hp))
    refine h.withChildren hpm ((h.nodup p).filter _) fun c hc => ?_
    exact h.child_graftable (List.mem_of_mem_filter hc)
  · exact h

theorem childrenOf_attach (id p : BlockId) (n : Nat) (q : BlockId) :
    (d.attach id p n).childrenOf q =
      if q = p then insertAt (d.childrenOf p) n id else d.childrenOf q := by
  rw [attach, childrenOf_touch, childrenOf_withChildren]

theorem mem_childrenOf_attach {id p q c : BlockId} {n : Nat} :
    c ∈ (d.attach id p n).childrenOf q ↔ c ∈ d.childrenOf q ∨ q = p ∧ c = id := by
  rw [childrenOf_attach]
  by_cases hq : q = p
  · rw [if_pos hq, (insertAt_perm ..).mem_iff, List.mem_cons, hq]
    tauto
  · simp [hq]

/-- A block without a parent may be put under any block that it does not lead to. -/
theorem IsForest.attach (h : d.IsForest) {id p : BlockId} (n : Nat) (hid : d.contains id = true)
    (hp : d.contains p = true) (hr : id ≠ d.root) (hfree : ∀ q, id ∉ d.childrenOf q)
    (hl : ¬ Leads d.childrenOf id p) : (d.attach id p n).IsForest := by
  have hperm := insertAt_perm (d.childrenOf p) n id
  refine IsForest.touch (h.withChildren hp (hperm.nodup_iff.mpr ?_) fun c hc => ?_) id
  · exact List.nodup_cons.mpr ⟨hfree p, h.nodup p⟩
  · rcases List.mem_cons.mp (hperm.mem_iff.mp hc) with rfl | hc
    · exact ⟨hid, hr, fun q _ => hfree q, hl⟩
    · exact h.child_graftable hc

theorem IsForest.moved (h : d.IsForest) {id p : BlockId} {d' : Document}
    (hm : Edit.Moved id p d d') : d'.IsForest := by
  obtain ⟨n, rfl⟩ := hm.eq
  refine (h.detach id).attach n ?_ ?_ ?_ (fun q hq => ?_) fun hl => hm.not_leads ?_
  · rw [contains_detach]
    exact hm.contains
  · rw [contains_detach]
    exact hm.contains_parent
  · rw [root_detach]
    exact hm.ne_root
  · exact (h.mem_childrenOf_detach.mp hq).2 rfl
  · exact hl.lift (fun a => a) fun a b hab => (h.mem_childrenOf_detach.mp hab).1

/-! ## Deletions -/

/-- Nothing leads to the root of a forest but the root. -/
theorem IsForest.eq_root_of_leads (h : d.IsForest) {id : BlockId}
    (hl : Leads d.childrenOf id d.root) : id = d.root :=
  hl.eq_of_unlisted h.root_unlisted

theorem IsForest.after_delete (h : d.IsForest) (id : BlockId) (cascade : Bool) :
    ((Edit.delete id cascade).after d).IsForest := by
  rcases Edit.after_delete d id cascade with he | ⟨hr, he⟩
  · rwa [he]
  rw [he, eraseAll_eq_restrict]
  refine (h.detach id).restrict ?_ fun p c hc hp => ?_
  · rw [root_detach, decide_eq_true_eq, mem_postorder]
    exact fun hl => hr (h.eq_root_of_leads hl)
  · obtain ⟨hc, hne⟩ := h.mem_childrenOf_detach.mp hc
    rw [decide_eq_true_eq, mem_postorder] at hp ⊢
    -- a chain from the block to the child comes through the child's only parent
    intro hl
    rcases Relation.ReflTransGen.cases_tail hl with he | ⟨q, hq, hcq⟩
    · exact hne he
    · exact hp (h.parent_unique q p c hcq hc ▸ hq)

/-- What a restriction leaves out does not matter. -/
theorem restrict_congr {d d' : Document} {keep : BlockId → Bool} (hr : d.root = d'.root)
    (ha : d.allocator = d'.allocator) (hb : ∀ q, keep q = true → d.block? q = d'.block? q)
    (ht : ∀ q, keep q = true → d.tree[q]? = d'.tree[q]?) : d.restrict keep = d'.restrict keep := by
  have hblocks : (d.restrict keep).blocks = (d'.restrict keep).blocks := by
    apply Std.ExtTreeMap.ext_getElem?
    intro q
    show (d.restrict keep).block? q = (d'.restrict keep).block? q
    rw [block?_restrict, block?_restrict]
    split
    · exact hb q ‹_›
    · rfl
  have htree : (d.restrict keep).tree = (d'.restrict keep).tree := by
    apply Std.ExtTreeMap.ext_getElem?
    intro q
    rw [getElem?_tree_restrict, getElem?_tree_restrict]
    split
    · exact ht q ‹_›
    · rfl
  calc d.restrict keep
      = ⟨d.root, (d.restrict keep).blocks, (d.restrict keep).tree, d.allocator⟩ := rfl
    _ = ⟨d'.root, (d'.restrict keep).blocks, (d'.restrict keep).tree, d'.allocator⟩ := by
      rw [hr, hblocks, htree, ha]
    _ = d'.restrict keep := rfl

/-- The list of a block that is left out does not matter. -/
theorem restrict_withChildren_withChildren {id p : BlockId} {cs cs' : List BlockId}
    {keep : BlockId → Bool} (hid : keep id = false) :
    ((d.withChildren id cs').withChildren p cs).restrict keep =
      (d.withChildren p cs).restrict keep := by
  refine restrict_congr rfl rfl (fun q hq => ?_) fun q hq => ?_
  · have hne : id ≠ q := fun he => by simp [he, hq] at hid
    rw [block?_withChildren, block?_withChildren, block?_withChildren, if_neg hne]
  · have hne : id ≠ q := fun he => by simp [he, hq] at hid
    simp only [tree_withChildren, Std.ExtTreeMap.getElem?_insert,
      Std.LawfulEqCmp.compare_eq_iff_eq, if_neg hne]

/-- **Splicing**: once a block has no children any more, they may take its place in the list of its
parent. -/
theorem IsForest.splice (h : d.IsForest) {id p : BlockId} (hid : id ∈ d.childrenOf p) :
    ((d.withChildren id []).withChildren p
      (spliceFor id (d.childrenOf id) (d.childrenOf p))).IsForest := by
  have hpne : p ≠ id := fun hp => h.acyclic id (.single (hp ▸ hid))
  have hbare : (d.withChildren id []).IsForest :=
    h.withChildren (h.child_mem p id hid) List.nodup_nil fun c hc => nomatch hc
  have hlists {q c : BlockId} (hc : c ∈ (d.withChildren id []).childrenOf q) :
      q ≠ id ∧ c ∈ d.childrenOf q := by
    rw [childrenOf_withChildren] at hc
    split at hc
    · cases hc
    · exact ⟨‹_›, hc⟩
  refine hbare.withChildren ?_ ?_ fun c hc => ?_
  · rw [contains_withChildren]
    exact h.parent_mem p (mem_tree_of_mem_childrenOf hid)
  · refine nodup_spliceFor hid (h.nodup p) (h.nodup id) fun c hc hcp => ?_
    exact hpne (h.parent_unique p id c hcp hc)
  rcases (mem_spliceFor hid (h.nodup p)).mp hc with hc | ⟨hc, -⟩
  · refine ⟨?_, ?_, fun q _ hq => ?_, fun hl => ?_⟩
    · rw [contains_withChildren]
      exact h.child_mem id c hc
    · rintro rfl
      exact h.root_unlisted id hc
    · exact (hlists hq).1 (h.parent_unique q id c (hlists hq).2 hc)
    · have hl' : Leads d.childrenOf c p := hl.lift (fun a => a) fun a b hab => (hlists hab).2
      exact h.acyclic p (.head hid (.head' hc hl'))
  · refine hbare.child_graftable ?_
    rwa [childrenOf_withChildren, if_neg hpne]

theorem IsForest.after_deleteOnly (h : d.IsForest) (id : BlockId) :
    ((Edit.deleteOnly id).after d).IsForest := by
  rcases Edit.after_deleteOnly d id with he | ⟨p, hr, hid, he⟩
  · rwa [he]
  have hpne : p ≠ id := fun hp => h.acyclic id (.single (hp ▸ hid))
  rw [he, eraseAll_eq_restrict, ← @restrict_withChildren_withChildren d id p _ [] _ (by simp)]
  refine (h.splice hid).restrict (by simpa using Ne.symm hr) fun q c hc hq => ?_
  rw [decide_eq_true_eq, List.mem_singleton] at hq ⊢
  rintro rfl
  rw [childrenOf_withChildren] at hc
  split at hc
  · rcases (mem_spliceFor hid (h.nodup p)).mp hc with hc | ⟨-, hne⟩
    · exact h.acyclic c (.single hc)
    · exact hne rfl
  · rw [childrenOf_withChildren, if_neg hq] at hc
    exact absurd (h.parent_unique q p c hc hid) ‹_›

theorem IsForest.after_prune (h : d.IsForest) : (Edit.prune.after d).IsForest := by
  rw [Edit.after_prune]
  have hkeep (x : BlockId) : d.reachable.contains x = true ↔
      Leads d.childrenOf d.root x ∧ d.contains x = true := mem_reachable
  refine h.restrict ((hkeep _).mpr ⟨.refl _, h.root_mem⟩) fun p c hc hp => ?_
  exact (hkeep c).mpr ⟨((hkeep p).mp hp).1.tail hc, h.child_mem p c hc⟩

end Document

end BlockDocument
