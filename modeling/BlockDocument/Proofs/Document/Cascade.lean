import BlockDocument.Proofs.Document.Change
import BlockDocument.Proofs.Document.Success
import BlockDocument.Proofs.Document.Traversal

/-!
# Deleting a block with everything below it

On a clean document a deletion is exact: it answers the block and its descendants, children before
their parents, and leaves the document without them (`Severed`). Of the blocks that stay only the
parent of the deleted one changes, and nothing of it but its list of children and its mark.
-/

namespace BlockDocument

open Std (ExtTreeMap)

namespace Document

variable {d : Document}

/-! ## Taking a block out of its list -/

/-- A block is taken out of the list of its only parent, if it has one. -/
theorem IsForest.detach_eq (h : d.IsForest) (id : BlockId) :
    (∃ p, (∀ q, id ∈ d.childrenOf q ↔ p = q) ∧
      d.detach id = d.withChildren p ((d.childrenOf p).filter (· ≠ id))) ∨
    (∀ q, id ∉ d.childrenOf q) ∧ d.detach id = d := by
  rw [Document.detach]
  cases hp : d.parent? id with
  | none => exact .inr ⟨parent?_eq_none hp, rfl⟩
  | some p =>
    have hid : id ∈ d.childrenOf p := parent?_eq_some hp
    exact .inl ⟨p, fun q => ⟨fun hq => h.parent_unique p q id hid hq, fun hq => hq ▸ hid⟩, rfl⟩

theorem IsForest.getElem?_tree_detach (h : d.IsForest) (id q : BlockId) :
    (d.detach id).tree[q]? =
      if id ∈ d.childrenOf q then some ((d.childrenOf q).filter (· ≠ id)) else d.tree[q]? := by
  rcases h.detach_eq id with ⟨p, hp, he⟩ | ⟨hfree, he⟩
  · rw [he, tree_withChildren, ExtTreeMap.getElem?_insert]
    by_cases hq : p = q
    · simp [(hp q).mpr hq, hq]
    · simp [mt (hp q).mp hq, hq]
  · rw [he, if_neg (hfree q)]

theorem IsForest.block?_detach (h : d.IsForest) (id q : BlockId) :
    (d.detach id).block? q = (d.block? q).map fun b =>
      if id ∈ d.childrenOf q then { b with children := (d.childrenOf q).filter (· ≠ id) }.touch
      else b := by
  rcases h.detach_eq id with ⟨p, hp, he⟩ | ⟨hfree, he⟩
  · rw [he, block?_withChildren]
    by_cases hq : p = q
    · simp [(hp q).mpr hq, hq]
    · simp [mt (hp q).mp hq, hq]
  · simp [he, hfree q]

theorem keys_blocks_detach (id : BlockId) : (d.detach id).blocks.keys = d.blocks.keys :=
  Map.keys_eq_keys fun q => by
    have hcontains := contains_detach (d := d) id q
    exact Bool.eq_iff_iff.mp hcontains

theorem keys_tree_detach (id : BlockId) : (d.detach id).tree.keys = d.tree.keys := by
  refine Map.keys_eq_keys fun q => ⟨fun hq => ?_, mem_tree_detach⟩
  rw [detach] at hq
  split at hq
  · rename_i p hp
    rcases (mem_tree_withChildren p q _).mp hq with rfl | hq
    · exact mem_tree_of_mem_childrenOf (parent?_eq_some hp)
    · exact hq
  · exact hq

/-! ## What a deletion leaves -/

/-- What a document is after a block was deleted with all that lies below it, and in which order the
deleted ids are answered. -/
structure Severed (d : Document) (id : BlockId) (removed : List BlockId) (d' : Document) : Prop where
  postordered : Postordered d.childrenOf [id] removed
  nodup : removed.Nodup
  mem_iff : ∀ x, x ∈ removed ↔ Leads d.childrenOf id x
  last : removed.getLast? = some id
  clean : d'.Clean
  keys_blocks : d'.blocks.keys = d.blocks.keys.filter (· ∉ removed)
  keys_tree : d'.tree.keys = d.tree.keys.filter (· ∉ removed)
  parent : ∀ p, id ∈ d.childrenOf p →
    p ∉ removed ∧ d'.tree[p]? = some ((d.childrenOf p).filter (· ≠ id))
  others : ∀ q ∉ removed, id ∉ d.childrenOf q → d'.tree[q]? = d.tree[q]?
  unlisted : ∀ q, ∀ x ∈ removed, x ∉ d'.childrenOf q
  order : d'.order = d.order.filter (· ∉ removed)
  /-- The parent takes its list over and is marked; the other blocks stay as they are. -/
  block : ∀ q ∉ removed, d'.block? q = (d.block? q).map fun b =>
    if id ∈ d.childrenOf q then { b with children := (d.childrenOf q).filter (· ≠ id) }.touch else b
  edges : ∀ q ∉ removed, (d'.block? q).map Block.edges = (d.block? q).map Block.edges

/-- The root of a tree is walked to last where children come first. -/
theorem getLast?_of_postordered {children : BlockId → List BlockId} {id : BlockId}
    {listed : List BlockId} (h : Postordered children [id] listed) :
    listed.getLast? = some id := by
  cases h with
  | cons hbelow hrest =>
    cases hrest with
    | nil => simp

section severed

variable {id q : BlockId}

theorem block?_severed (hq : q ∉ d.postorder id) :
    ((d.detach id).eraseAll (d.postorder id)).block? q = (d.detach id).block? q := by
  rw [eraseAll_eq_restrict, block?_restrict, if_pos (by simpa using hq)]

theorem getElem?_tree_severed (hq : q ∉ d.postorder id) :
    ((d.detach id).eraseAll (d.postorder id)).tree[q]? = (d.detach id).tree[q]? := by
  rw [eraseAll_eq_restrict, getElem?_tree_restrict, if_pos (by simpa using hq)]

theorem IsForest.childrenOf_severed (h : d.IsForest) (id q : BlockId) :
    ((d.detach id).eraseAll (d.postorder id)).childrenOf q =
      if q ∈ d.postorder id then [] else (d.childrenOf q).filter (· ≠ id) := by
  rw [eraseAll_eq_restrict, childrenOf_restrict, h.childrenOf_detach]
  by_cases hq : q ∈ d.postorder id <;> simp [hq]

theorem IsForest.parent_not_mem_postorder (h : d.IsForest) (hid : id ∈ d.childrenOf q) :
    q ∉ d.postorder id :=
  fun hl => h.acyclic id (.tail' (mem_postorder.mp hl) hid)

/-- A list that stays mentions nothing below the block but the block itself, and that is taken out. -/
theorem IsForest.unlisted_severed (h : d.IsForest) {x : BlockId} (hx : x ∈ d.postorder id) :
    x ∉ ((d.detach id).eraseAll (d.postorder id)).childrenOf q := by
  intro hxq
  rw [h.childrenOf_severed] at hxq
  split at hxq
  · cases hxq
  · rename_i hq
    obtain ⟨hxq, hne⟩ := List.mem_filter.mp hxq
    rcases Relation.ReflTransGen.cases_tail (mem_postorder.mp hx) with he | ⟨p, hp, hxp⟩
    · exact of_decide_eq_true hne he
    · exact hq (mem_postorder.mpr (h.parent_unique p q x hxp hxq ▸ hp))

end severed

/-- What stays is met in the old order. -/
theorem IsForest.order_severed (h : d.IsForest) {id : BlockId} (hroot : id ≠ d.root)
    (h' : ((d.detach id).eraseAll (d.postorder id)).IsForest) :
    ((d.detach id).eraseAll (d.postorder id)).order = d.order.filter (· ∉ d.postorder id) := by
  have hkeep (x : BlockId) : decide (x ∉ d.postorder id) = true ↔ ¬ Leads d.childrenOf id x := by
    rw [decide_eq_true_eq, mem_postorder]
  have hlists (q : BlockId) (hq : decide (q ∉ d.postorder id) = true) :
      ((d.detach id).eraseAll (d.postorder id)).childrenOf q =
        (d.childrenOf q).filter (· ≠ id) := by
    rw [h.childrenOf_severed, if_neg (of_decide_eq_true hq)]
  have htop : decide (d.root ∉ d.postorder id) = true :=
    (hkeep d.root).mpr fun hl => hroot (h.eq_root_of_leads hl)
  have hrest := h.preordered_without hkeep hlists (h.preordered_subtree d.root)
    fun x hx => .inl (by rwa [List.mem_singleton.mp hx])
  rw [List.filter_cons_of_pos (by simpa using hroot.symm), List.filter_nil] at hrest
  have hsubtree : ((d.detach id).eraseAll (d.postorder id)).subtree d.root =
      (d.subtree d.root).filter (· ∉ d.postorder id) :=
    (h'.preordered_subtree d.root).unique hrest
  rw [h'.order_eq_subtree, h.order_eq_subtree, ← hsubtree, eraseAll_eq_restrict, root_restrict,
    root_detach]

/-- What is left of a clean document is clean, and nothing but the deleted blocks is gone. -/
theorem IsForest.severed (h : d.IsForest) {id : BlockId} (hroot : id ≠ d.root)
    (h' : ((d.detach id).eraseAll (d.postorder id)).IsForest) :
    d.Severed id (d.postorder id) ((d.detach id).eraseAll (d.postorder id)) where
  postordered := h.postordered_postorder id
  nodup := (d.postorder_walked id).nodup
  mem_iff x := mem_postorder
  last := getLast?_of_postordered (h.postordered_postorder id)
  clean := clean_iff.mpr h'
  keys_blocks := by
    rw [eraseAll_eq_restrict, Document.restrict, ExtTreeMap.keys_filter_key, keys_blocks_detach]
  keys_tree := by
    rw [eraseAll_eq_restrict, Document.restrict, ExtTreeMap.keys_filter_key, keys_tree_detach]
  parent p hp := by
    have hkept := h.parent_not_mem_postorder hp
    rw [getElem?_tree_severed hkept, h.getElem?_tree_detach, if_pos hp]
    exact ⟨hkept, rfl⟩
  others q hq hid := by rw [getElem?_tree_severed hq, h.getElem?_tree_detach, if_neg hid]
  unlisted q x hx := h.unlisted_severed hx
  order := h.order_severed hroot h'
  block q hq := (block?_severed hq).trans (h.block?_detach id q)
  edges q hq := by
    rw [block?_severed hq, h.block?_detach, Option.map_map]
    refine congrArg (Option.map · (d.block? q)) (funext fun b => ?_)
    rw [Function.comp_apply]
    split <;> rfl

/-- **A deletion is exact**: a block that is not the root is deleted with all that lies below it and
nothing else. Without leave to delete more than the block, that succeeds exactly if it has no
children, and then it is the same deletion. -/
theorem delete_severs {id : BlockId} (hd : d.Clean) (hid : d.contains id = true)
    (hroot : id ≠ d.root) :
    ∃ removed d', Edit.delete id true d = .ok removed d' ∧ d.Severed id removed d' ∧
      ∀ ids d'', Edit.delete id false d = .ok ids d'' ↔
        d.childrenOf id = [] ∧ ids = removed ∧ d'' = d' := by
  have h := clean_iff.mp hd
  have hdelete : Edit.delete id true d =
      .ok (d.postorder id) ((d.detach id).eraseAll (d.postorder id)) :=
    Edit.delete_eq_ok_iff.mpr ⟨hroot, hid, .inr rfl, rfl, rfl⟩
  have h' : ((d.detach id).eraseAll (d.postorder id)).IsForest := by
    have hafter := h.after_delete id true
    rwa [Edit.after, hdelete] at hafter
  refine ⟨_, _, hdelete, h.severed hroot h', fun ids d'' => ?_⟩
  rw [Edit.delete_eq_ok_iff]
  constructor
  · rintro ⟨-, -, hbare, rfl, rfl⟩
    exact ⟨hbare.resolve_right Bool.false_ne_true, rfl, rfl⟩
  · rintro ⟨hbare, rfl, rfl⟩
    exact ⟨hroot, hid, .inl hbare, rfl, rfl⟩

/-- A block with two children is deleted after them, and not without leave to delete them. -/
theorem delete_severs_branch :
    let branch : BlockId := .ofSuffix 2
    let d := Change.run (create ⟨.sequential, 1⟩)
      [.add (.ofSuffix 1) (.text "a") none none none, .add branch (.text "b") none none none,
        .add branch (.text "c") none none none]
    d.Clean ∧ d.contains branch = true ∧ branch ≠ d.root ∧
      ∃ removed d', Edit.delete branch true d = .ok removed d' ∧ d.Severed branch removed d' ∧
        removed = [.ofSuffix 3, .ofSuffix 4, branch] ∧ d'.order = [.ofSuffix 1] ∧
        ∀ ids d'', Edit.delete branch false d ≠ .ok ids d'' := by
  intro branch d
  have hd : d.Clean := clean_run_create _ _
  have hid : d.contains branch = true := by decide +kernel
  have hroot : branch ≠ d.root := by decide +kernel
  obtain ⟨removed, d', hdelete, hsevered, hplain⟩ := delete_severs hd hid hroot
  have hremoved : removed = d.postorder branch := (Edit.delete_eq_ok hdelete).2.2.2.1
  have hpost : d.postorder branch = [.ofSuffix 3, .ofSuffix 4, branch] := by decide +kernel
  have horder : d.order.filter (· ∉ d.postorder branch) = [.ofSuffix 1] := by decide +kernel
  have hchildren : d.childrenOf branch ≠ [] := by decide +kernel
  refine ⟨hd, hid, hroot, removed, d', hdelete, hsevered, hremoved.trans hpost, ?_,
    fun ids d'' h => hchildren ((hplain ids d'').mp h).1⟩
  rw [hsevered.order, hremoved, horder]

end Document

end BlockDocument
