import BlockDocument.Proofs.Document.Change
import BlockDocument.Proofs.Document.Success
import BlockDocument.Proofs.Document.Traversal

/-!
# Deleting a block and keeping its children

A block may be deleted alone: its children take its place in the list of its parent. On a clean
document this works for every block with a parent, and document order loses the block and nothing
else (`Spliced`). All that lies below the block comes one level up, so the walk is not compared step
by step but row by row: the row with the children in the place of the block is listed as the old row
without the block (`IsForest.preordered_spliced`).
-/

namespace BlockDocument

open Std (ExtTreeMap)

theorem spliceFor_of_not_mem {α : Type} [DecidableEq α] {x : α} {ys zs : List α} (h : x ∉ zs) :
    spliceFor x ys zs = zs := by
  induction zs with
  | nil => rfl
  | cons z zs ih =>
    rw [List.mem_cons, not_or] at h
    rw [spliceFor, if_neg (Ne.symm h.1), ih h.2]

namespace Document

variable {d : Document} {id p : BlockId}

/-! ## Document order -/

/-- Where a block has given its place to its children, each row is listed as before without it. -/
theorem IsForest.preordered_spliced (h : d.IsForest) {children' : BlockId → List BlockId}
    (hlists : ∀ q, q ≠ id → children' q = spliceFor id (d.childrenOf id) (d.childrenOf q))
    {row listed : List BlockId} (ht : Preordered d.childrenOf row listed) (hrow : row.Nodup) :
    Preordered children' (spliceFor id (d.childrenOf id) row) (listed.filter (· ≠ id)) := by
  have hself : id ∉ d.childrenOf id := fun hc => h.acyclic id (.single hc)
  induction ht with
  | nil => exact .nil
  | @cons x row below rest hbelow hrest ihbelow ihrest =>
    obtain ⟨hx, hrow⟩ := List.nodup_cons.mp hrow
    have hbelow' := ihbelow (h.nodup x)
    have hrest' := ihrest hrow
    rw [List.filter_append, spliceFor]
    by_cases hxi : x = id
    · -- in the place of the block stands what was below it, and the rest of the row does not name it
      subst hxi
      rw [spliceFor_of_not_mem hself] at hbelow'
      rw [spliceFor_of_not_mem hx] at hrest'
      rw [if_pos rfl, List.filter_cons_of_neg (by simp)]
      exact hbelow'.append hrest'
    · rw [← hlists x hxi] at hbelow'
      rw [if_neg hxi, List.filter_cons_of_pos (by simpa using hxi)]
      exact .cons hbelow' hrest'

/-! ## What a deletion leaves -/

/-- What a document is after a block was deleted whose children took its place, with the list that its
parent has now. -/
structure Spliced (d : Document) (id p : BlockId) (list : List BlockId) (d' : Document) : Prop where
  clean : d'.Clean
  root : d'.root = d.root
  keys_blocks : d'.blocks.keys = d.blocks.keys.filter (· ≠ id)
  keys_tree : d'.tree.keys = d.tree.keys.filter (· ≠ id)
  parent : d'.tree[p]? = some list
  others : ∀ q, q ≠ id → q ≠ p → d'.tree[q]? = d.tree[q]?
  /-- The parent takes its list over and is marked; the other blocks stay as they are. -/
  block : ∀ q, q ≠ id → d'.block? q = (d.block? q).map fun b =>
    if q = p then { b with children := list }.touch else b
  order : d'.order = d.order.erase id

theorem keys_blocks_withChildren (d : Document) (p : BlockId) (cs : List BlockId) :
    (d.withChildren p cs).blocks.keys = d.blocks.keys :=
  Map.keys_eq_keys fun q => by
    have hcontains := contains_withChildren d p cs q
    exact Bool.eq_iff_iff.mp hcontains

/-- A parent that lists a child has an entry already. -/
theorem keys_tree_withChildren (hid : id ∈ d.childrenOf p) (cs : List BlockId) :
    (d.withChildren p cs).tree.keys = d.tree.keys := by
  refine Map.keys_eq_keys fun q => (mem_tree_withChildren p q cs).trans ⟨?_, .inr⟩
  rintro (rfl | hq)
  · exact mem_tree_of_mem_childrenOf hid
  · exact hq

section spliced

variable {list : List BlockId}

theorem getElem?_tree_spliced {q : BlockId} (hq : q ≠ id) :
    ((d.withChildren p list).eraseAll [id]).tree[q]? = if p = q then some list else d.tree[q]? := by
  rw [eraseAll_eq_restrict, getElem?_tree_restrict, if_pos (by simpa using hq), tree_withChildren,
    ExtTreeMap.getElem?_insert]
  simp

theorem block?_spliced {q : BlockId} (hq : q ≠ id) :
    ((d.withChildren p list).eraseAll [id]).block? q = (d.block? q).map fun b =>
      if q = p then { b with children := list }.touch else b := by
  rw [eraseAll_eq_restrict, block?_restrict, if_pos (by simpa using hq), block?_withChildren]
  by_cases hqp : q = p
  · simp [hqp]
  · simp [hqp, Ne.symm hqp]

/-- Only the list of the parent names the block, so in every list its children have its place. -/
theorem IsForest.childrenOf_spliced (h : d.IsForest) (hid : id ∈ d.childrenOf p) {q : BlockId}
    (hq : q ≠ id) :
    ((d.withChildren p (spliceFor id (d.childrenOf id) (d.childrenOf p))).eraseAll [id]).childrenOf q =
      spliceFor id (d.childrenOf id) (d.childrenOf q) := by
  rw [eraseAll_eq_restrict, childrenOf_restrict, if_pos (by simpa using hq), childrenOf_withChildren]
  by_cases hqp : q = p
  · rw [if_pos hqp, hqp]
  · rw [if_neg hqp, spliceFor_of_not_mem fun hidq => hqp (h.parent_unique q p id hidq hid)]

theorem IsForest.order_spliced (h : d.IsForest) (hid : id ∈ d.childrenOf p)
    (h' : ((d.withChildren p (spliceFor id (d.childrenOf id) (d.childrenOf p))).eraseAll
      [id]).IsForest) :
    ((d.withChildren p (spliceFor id (d.childrenOf id) (d.childrenOf p))).eraseAll [id]).order =
      d.order.erase id := by
  have hroot : id ∉ [d.root] := by
    rw [List.mem_singleton]
    rintro rfl
    exact h.root_unlisted p hid
  have hrest := h.preordered_spliced (fun q hq => h.childrenOf_spliced hid hq)
    (h.preordered_subtree d.root) (List.nodup_singleton d.root)
  rw [spliceFor_of_not_mem hroot] at hrest
  have hnodup : (d.subtree d.root).Nodup := (d.subtree_walked d.root).nodup
  rw [h'.order_eq_subtree, h.order_eq_subtree, hnodup.erase_eq_filter]
  refine (h'.preordered_subtree d.root).unique ?_
  simpa only [ne_eq, decide_not, bne, beq_eq_decide] using hrest

end spliced

theorem IsForest.spliced (h : d.IsForest) (hid : id ∈ d.childrenOf p)
    (h' : ((d.withChildren p (spliceFor id (d.childrenOf id) (d.childrenOf p))).eraseAll
      [id]).IsForest) :
    d.Spliced id p (spliceFor id (d.childrenOf id) (d.childrenOf p))
      ((d.withChildren p (spliceFor id (d.childrenOf id) (d.childrenOf p))).eraseAll [id]) where
  clean := clean_iff.mpr h'
  root := by rw [eraseAll_eq_restrict, root_restrict, root_withChildren]
  keys_blocks := by
    rw [eraseAll_eq_restrict, Document.restrict, ExtTreeMap.keys_filter_key,
      keys_blocks_withChildren]
    simp only [List.mem_singleton, ne_eq]
  keys_tree := by
    rw [eraseAll_eq_restrict, Document.restrict, ExtTreeMap.keys_filter_key,
      keys_tree_withChildren hid]
    simp only [List.mem_singleton, ne_eq]
  parent := by
    have hne : p ≠ id := fun he => h.acyclic id (.single (he ▸ hid))
    rw [getElem?_tree_spliced hne, if_pos rfl]
  others q hq hqp := by rw [getElem?_tree_spliced hq, if_neg (Ne.symm hqp)]
  block q hq := block?_spliced hq
  order := h.order_spliced hid h'

/-- **Deleting a block alone erases it from document order**: a block with a parent can be deleted so,
and its children stand in its place in the list of the parent. Every other list and every other block
is as before. -/
theorem deleteOnly_splices (hd : d.Clean) {before behind : List BlockId}
    (hp : d.childrenOf p = before ++ id :: behind) :
    ∃ d', Edit.deleteOnly id d = .ok [id] d' ∧
      d.Spliced id p (before ++ (d.childrenOf id ++ behind)) d' := by
  have h := clean_iff.mp hd
  have hid : id ∈ d.childrenOf p := by rw [hp]; simp
  have hfirst : id ∉ before := by
    have hnodup := hp ▸ h.nodup p
    exact fun hb => (List.nodup_append.mp hnodup).2.2 id hb id List.mem_cons_self rfl
  have hlist : spliceFor id (d.childrenOf id) (d.childrenOf p) =
      before ++ (d.childrenOf id ++ behind) := by
    rw [hp, spliceFor_eq id _ before behind hfirst]
  have hdelete : Edit.deleteOnly id d = .ok [id]
      ((d.withChildren p (spliceFor id (d.childrenOf id) (d.childrenOf p))).eraseAll [id]) :=
    Edit.deleteOnly_eq_ok_iff.mpr ⟨fun hr => h.root_unlisted p (hr ▸ hid), h.child_mem p id hid, rfl,
      p, h.parent?_eq_some_iff.mpr hid, rfl⟩
  have h' := h.after_deleteOnly id
  rw [Edit.after, hdelete] at h'
  exact ⟨_, hdelete, hlist ▸ h.spliced hid h'⟩

/-- A block between two others gives its place to its two children. -/
theorem deleteOnly_splices_between :
    let middle : BlockId := .ofSuffix 3
    let d := Change.run (create ⟨.sequential, 1⟩)
      [.add (.ofSuffix 1) (.text "a") none none none, .add (.ofSuffix 1) (.text "b") none none none,
        .add (.ofSuffix 1) (.text "c") none none none, .add middle (.text "d") none none none,
        .add middle (.text "e") none none none]
    d.Clean ∧ d.childrenOf (.ofSuffix 1) = [.ofSuffix 2] ++ middle :: [.ofSuffix 4] ∧
      ∃ d', Edit.deleteOnly middle d = .ok [middle] d' ∧
        d'.tree[BlockId.ofSuffix 1]? =
          some [.ofSuffix 2, .ofSuffix 5, .ofSuffix 6, .ofSuffix 4] ∧
        d'.order = [.ofSuffix 1, .ofSuffix 2, .ofSuffix 5, .ofSuffix 6, .ofSuffix 4] := by
  intro middle d
  have hd : d.Clean := clean_run_create _ _
  have hp : d.childrenOf (.ofSuffix 1) = [.ofSuffix 2] ++ middle :: [.ofSuffix 4] := by
    decide +kernel
  have hchildren : d.childrenOf middle = [.ofSuffix 5, .ofSuffix 6] := by decide +kernel
  have horder : d.order.erase middle =
      [.ofSuffix 1, .ofSuffix 2, .ofSuffix 5, .ofSuffix 6, .ofSuffix 4] := by decide +kernel
  obtain ⟨d', hdelete, hspliced⟩ := deleteOnly_splices hd hp
  refine ⟨hd, hp, d', hdelete, ?_, hspliced.order.trans horder⟩
  rw [hspliced.parent, hchildren]
  rfl

end Document

end BlockDocument
