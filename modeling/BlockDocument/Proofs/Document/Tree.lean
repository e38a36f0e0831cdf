import BlockDocument.Proofs.Document.Upkeep

/-!
# Every edit keeps a tree

A document that was made by edits alone is more than a forest: every block has an entry in the tree
and hangs on the root. An edit keeps this as well. The chains from the root are followed step by
step: what an edit takes away from a chain it puts back in another place.
-/

namespace BlockDocument.Document

/-- A forest without orphans, with an entry for every block. -/
structure IsTree (d : Document) : Prop extends IsForest d where
  entry_mem : ∀ id, d.contains id = true → id ∈ d.tree
  connected : ∀ id, d.contains id = true → Leads d.childrenOf d.root id

/-- A chain lives on in other lists of children if its steps do, back from its end. -/
theorem leads_of_steps {children children' : BlockId → List BlockId} {x y : BlockId}
    (P : BlockId → Prop) (hl : Leads children x y)
    (hstep : ∀ a b, Leads children x a → b ∈ children a → P b → P a ∧ b ∈ children' a)
    (hy : P y) : Leads children' x y := by
  induction hl with
  | refl => exact .refl x
  | tail hxa hab ih =>
    obtain ⟨ha, hab'⟩ := hstep _ _ hxa hab hy
    exact (ih ha).tail hab'

variable {d : Document}

/-! ## The entries of the tree -/

theorem mem_tree_withChildren (p q : BlockId) (cs : List BlockId) :
    q ∈ (d.withChildren p cs).tree ↔ p = q ∨ q ∈ d.tree := by
  rw [tree_withChildren, Std.ExtTreeMap.mem_insert, Std.LawfulEqCmp.compare_eq_iff_eq]

theorem mem_tree_detach {id q : BlockId} (h : q ∈ d.tree) : q ∈ (d.detach id).tree := by
  rw [detach]
  split
  · exact (mem_tree_withChildren _ q _).mpr (.inr h)
  · exact h

theorem mem_tree_attach {id p q : BlockId} {n : Nat} (h : q ∈ d.tree) :
    q ∈ (d.attach id p n).tree :=
  (mem_tree_withChildren p q _).mpr (.inr h)

@[simp] theorem contains_attach (id p q : BlockId) (n : Nat) :
    (d.attach id p n).contains q = d.contains q := by
  rw [attach, contains_touch, contains_withChildren]

/-! ## The edits -/

theorem IsTree.annotated (h : d.IsTree) {d' : Document} (ha : Edit.Annotated d d') : d'.IsTree := by
  refine ⟨h.toIsForest.annotated ha, fun x hx => ?_, fun x hx => ?_⟩
  · obtain ⟨id, f, -, -, rfl⟩ := ha.eq
    exact h.entry_mem x (by rwa [contains_withBlock] at hx)
  · obtain ⟨id, f, -, -, rfl⟩ := ha.eq
    exact h.connected x (by rwa [contains_withBlock] at hx)

/-- A new block hangs on its parent, and all other chains are as before. -/
theorem IsTree.after_add (h : d.IsTree) (parent : BlockId) (content : Content)
    (role : Option Role) (label : Option String) (position : Option Nat) :
    ((Edit.add parent content role label position).after d).IsTree := by
  have hforest := h.toIsForest.after_add parent content role label position
  obtain ⟨a, ha⟩ | ⟨a, id, b, n, hp, hid, -, -, ha⟩ :=
    Edit.after_add d parent content role label position
  · rw [ha] at hforest ⊢
    exact ⟨hforest, h.entry_mem, h.connected⟩
  rw [ha] at hforest ⊢
  have hch : ((d.withAllocator a).withLeaf id b).childrenOf = d.childrenOf :=
    (h.toIsForest.withAllocator a).childrenOf_withLeaf hid b
  have hlists (q c : BlockId) : c ∈ (((d.withAllocator a).withLeaf id b).withChildren parent
      (insertAt (d.childrenOf parent) n id)).childrenOf q ↔
        c ∈ d.childrenOf q ∨ q = parent ∧ c = id := by
    rw [childrenOf_withChildren, hch]
    by_cases hq : q = parent
    · rw [if_pos hq, (insertAt_perm ..).mem_iff, List.mem_cons, hq]
      tauto
    · simp [hq]
  have old (x : BlockId) (hx : d.contains x = true) := leads_of_steps (fun _ => True)
    (h.connected x hx) (fun q c _ hc _ => ⟨trivial, (hlists q c).mpr (.inl hc)⟩) trivial
  refine ⟨hforest, fun x hx => ?_, fun x hx => ?_⟩
  · rw [contains_withChildren, contains_withLeaf, Bool.or_eq_true, decide_eq_true_eq] at hx
    rw [mem_tree_withChildren]
    refine .inr (Std.ExtTreeMap.mem_insert.mpr ?_)
    rcases hx with rfl | hx
    · exact .inl Std.ReflCmp.compare_self
    · exact .inr (h.entry_mem x hx)
  · rw [contains_withChildren, contains_withLeaf, Bool.or_eq_true, decide_eq_true_eq] at hx
    rcases hx with rfl | hx
    · exact (old parent hp).tail ((hlists parent id).mpr (.inr ⟨rfl, rfl⟩))
    · exact old x hx

/-- A chain that does not come through a moved block stays; one that does goes on below its new
place. -/
theorem IsTree.moved (h : d.IsTree) {id p : BlockId} {d' : Document} (hm : Edit.Moved id p d d') :
    d'.IsTree := by
  have hforest := h.toIsForest.moved hm
  obtain ⟨n, rfl⟩ := hm.eq
  have hlists (q c : BlockId) : c ∈ ((d.detach id).attach id p n).childrenOf q ↔
      c ∈ d.childrenOf q ∧ c ≠ id ∨ q = p ∧ c = id := by
    rw [mem_childrenOf_attach, h.toIsForest.mem_childrenOf_detach]
  have outside {x : BlockId} (hx : d.contains x = true) (hl : ¬ Leads d.childrenOf id x) :
      Leads ((d.detach id).attach id p n).childrenOf d.root x := by
    refine leads_of_steps (fun y => ¬ Leads d.childrenOf id y) (h.connected x hx)
      (fun q c _ hc hlc => ⟨fun hlq => hlc (hlq.tail hc), (hlists q c).mpr (.inl ⟨hc, ?_⟩)⟩) hl
    rintro rfl
    exact hlc (.refl c)
  have top : Leads ((d.detach id).attach id p n).childrenOf d.root id :=
    (outside hm.contains_parent hm.not_leads).tail ((hlists p id).mpr (.inr ⟨rfl, rfl⟩))
  have below {x : BlockId} (hl : Leads d.childrenOf id x) :
      Leads ((d.detach id).attach id p n).childrenOf d.root x := by
    induction hl with
    | refl => exact top
    | @tail q c _ hc ih =>
      by_cases hci : c = id
      · exact hci ▸ top
      · exact ih.tail ((hlists q c).mpr (.inl ⟨hc, hci⟩))
  refine ⟨hforest, fun x hx => ?_, fun x hx => ?_⟩
  · rw [contains_attach, contains_detach] at hx
    exact mem_tree_attach (mem_tree_detach (h.entry_mem x hx))
  · rw [contains_attach, contains_detach] at hx
    rw [show ((d.detach id).attach id p n).root = d.root from root_detach id]
    by_cases hl : Leads d.childrenOf id x
    · exact below hl
    · exact outside hx hl

theorem IsTree.after_delete (h : d.IsTree) (id : BlockId) (cascade : Bool) :
    ((Edit.delete id cascade).after d).IsTree := by
  have hforest := h.toIsForest.after_delete id cascade
  rcases Edit.after_delete d id cascade with he | ⟨hr, he⟩
  · rwa [he]
  rw [he, eraseAll_eq_restrict] at hforest ⊢
  refine ⟨hforest, fun x hx => ?_, fun x hx => ?_⟩
  · rw [contains_restrict, contains_detach, Bool.and_eq_true] at hx
    rw [mem_tree_restrict]
    exact ⟨hx.1, mem_tree_detach (h.entry_mem x hx.2)⟩
  · rw [contains_restrict, contains_detach, Bool.and_eq_true, decide_eq_true_eq,
      mem_postorder] at hx
    rw [root_restrict, root_detach]
    -- a chain to what stays does not come through the deleted block
    refine leads_of_steps (fun y => ¬ Leads d.childrenOf id y) (h.connected x hx.2)
      (fun q c _ hc hlc => ?_) hx.1
    have hlq : ¬ Leads d.childrenOf id q := fun hlq => hlc (hlq.tail hc)
    refine ⟨hlq, ?_⟩
    rw [childrenOf_restrict, if_pos (by simpa [mem_postorder] using hlq)]
    refine h.toIsForest.mem_childrenOf_detach.mpr ⟨hc, ?_⟩
    rintro rfl
    exact hlc (.refl c)

/-- Where the children of a block take its place, every other block is listed where it was, and they
are listed under the parent of the block. -/
theorem IsForest.mem_childrenOf_splice (h : d.IsForest) {id p q c : BlockId}
    (hid : id ∈ d.childrenOf p) (hq : q ≠ id)
    (hc : c ∈ d.childrenOf q ∧ c ≠ id ∨ q = p ∧ c ∈ d.childrenOf id) :
    c ∈ ((d.withChildren p (spliceFor id (d.childrenOf id) (d.childrenOf p))).restrict
      fun x => decide (x ∉ [id])).childrenOf q := by
  rw [childrenOf_restrict, if_pos (by simpa using hq), childrenOf_withChildren]
  by_cases hqp : q = p
  · rw [if_pos hqp, mem_spliceFor hid (h.nodup p)]
    rcases hc with ⟨hc, hne⟩ | ⟨-, hc⟩
    · exact .inr ⟨hqp ▸ hc, hne⟩
    · exact .inl hc
  · rw [if_neg hqp]
    rcases hc with ⟨hc, -⟩ | ⟨hqp', -⟩
    · exact hc
    · exact absurd hqp' hqp

/-- What was reached through the block is reached through its parent then. -/
theorem IsForest.leads_splice (h : d.IsForest) {id p x : BlockId} (hid : id ∈ d.childrenOf p)
    (hl : Leads d.childrenOf d.root x) :
    Leads ((d.withChildren p (spliceFor id (d.childrenOf id) (d.childrenOf p))).restrict
      fun x => decide (x ∉ [id])).childrenOf d.root (if x = id then p else x) := by
  have hpne : p ≠ id := fun hp => h.acyclic id (.single (hp ▸ hid))
  induction hl with
  | refl =>
    have hr : d.root ≠ id := fun hr => h.root_unlisted p (hr ▸ hid)
    rw [if_neg hr]
    exact .refl d.root
  | @tail q c _ hc ih =>
    by_cases hci : c = id
    · have hqp : q = p := h.parent_unique q p c hc (hci ▸ hid)
      rw [if_neg (hqp ▸ hpne), hqp] at ih
      rwa [if_pos hci]
    rw [if_neg hci]
    by_cases hqi : q = id
    · rw [if_pos hqi] at ih
      exact ih.tail (h.mem_childrenOf_splice hid hpne (.inr ⟨rfl, hqi ▸ hc⟩))
    · rw [if_neg hqi] at ih
      exact ih.tail (h.mem_childrenOf_splice hid hqi (.inl ⟨hc, hci⟩))

theorem IsTree.after_deleteOnly (h : d.IsTree) (id : BlockId) :
    ((Edit.deleteOnly id).after d).IsTree := by
  have hforest := h.toIsForest.after_deleteOnly id
  rcases Edit.after_deleteOnly d id with he | ⟨p, -, hid, he⟩
  · rwa [he]
  rw [he, eraseAll_eq_restrict] at hforest ⊢
  refine ⟨hforest, fun x hx => ?_, fun x hx => ?_⟩
  · rw [contains_restrict, contains_withChildren, Bool.and_eq_true] at hx
    rw [mem_tree_restrict, mem_tree_withChildren]
    exact ⟨hx.1, .inr (h.entry_mem x hx.2)⟩
  · rw [contains_restrict, contains_withChildren, Bool.and_eq_true] at hx
    have hne : x ≠ id := by simpa using hx.1
    have hx' := h.toIsForest.leads_splice hid (h.connected x hx.2)
    rwa [if_neg hne] at hx'

theorem IsTree.after_prune (h : d.IsTree) : (Edit.prune.after d).IsTree := by
  have hforest := h.toIsForest.after_prune
  rw [Edit.after_prune] at hforest ⊢
  have hkeep {x : BlockId} (hx : d.contains x = true) : d.reachable.contains x = true :=
    mem_reachable.mpr ⟨h.connected x hx, hx⟩
  refine ⟨hforest, fun x hx => ?_, fun x hx => ?_⟩
  · rw [contains_restrict, Bool.and_eq_true] at hx
    exact (mem_tree_restrict ..).mpr ⟨hx.1, h.entry_mem x hx.2⟩
  · rw [contains_restrict, Bool.and_eq_true] at hx
    refine leads_of_steps (fun _ => True) (h.connected x hx.2) (fun q c _ hc _ => ⟨trivial, ?_⟩)
      trivial
    have hq := h.parent_mem q (mem_tree_of_mem_childrenOf hc)
    rwa [childrenOf_restrict, if_pos (hkeep hq)]

/-! ## A new document -/

/-- The one block of a new document. -/
theorem block?_create (a : Allocator) (q : BlockId) : (create a).block? q =
    if (create a).root = q then some { id := (create a).root, content := .text "" } else none := by
  show (Std.ExtTreeMap.empty.insert _ _)[q]? = _
  rw [Std.ExtTreeMap.getElem?_insert]
  simp
  rfl

theorem contains_create {a : Allocator} {q : BlockId} :
    (create a).contains q = true ↔ (create a).root = q := by
  rw [contains_eq_isSome, block?_create]
  simp

theorem childrenOf_create (a : Allocator) (q : BlockId) : (create a).childrenOf q = [] := by
  show (Std.ExtTreeMap.empty.insert _ _).getD q [] = _
  rw [Std.ExtTreeMap.getD_insert]
  simp

theorem mem_tree_create {a : Allocator} {q : BlockId} :
    q ∈ (create a).tree ↔ (create a).root = q := by
  show q ∈ Std.ExtTreeMap.empty.insert _ _ ↔ _
  rw [Std.ExtTreeMap.mem_insert, Std.LawfulEqCmp.compare_eq_iff_eq]
  simp
  rfl

/-- A new document is a tree with one block. -/
theorem isTree_create (a : Allocator) : (create a).IsTree := by
  have hno (p c : BlockId) : c ∉ (create a).childrenOf p := by
    rw [childrenOf_create]
    exact List.not_mem_nil
  exact {
    stored := fun q b hb => by
      rw [block?_create] at hb
      split at hb
      · cases hb
        assumption
      · cases hb
    root_mem := contains_create.mpr rfl
    parent_mem := fun _ hp => contains_create.mpr (mem_tree_create.mp hp)
    child_mem := fun p c hc => absurd hc (hno p c)
    root_unlisted := fun p => hno p _
    nodup := fun p => by
      rw [childrenOf_create]
      exact List.nodup_nil
    parent_unique := fun p _ c hc _ => absurd hc (hno p c)
    lockstep := fun q b hb => by
      rw [block?_create] at hb
      rw [childrenOf_create]
      split at hb <;> cases hb
      rfl
    acyclic := fun x hx => by
      obtain ⟨c, hc, -⟩ := Relation.TransGen.head'_iff.mp hx
      exact hno x c hc
    entry_mem := fun _ hx => mem_tree_create.mpr (contains_create.mp hx)
    connected := fun x hx => by
      rw [contains_create.mp hx]
      exact .refl x }

end BlockDocument.Document
