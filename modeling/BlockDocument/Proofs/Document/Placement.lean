import BlockDocument.Proofs.Document.Cascade

/-!
# Moves

A block may go under any block that it does not lead to, and beside any block whose parent is one of
those. On a clean document a move is refused in no other case, and afterwards the block stands where it
was asked for (`Document.Placed`). Positions are meant in the list without the moved block, as it is
taken out of its old list first, also where that is the same list.
-/

namespace BlockDocument

/-! ## Positions -/

section positions

variable {α : Type}

theorem insertAt_length (before behind : List α) (x : α) :
    insertAt (before ++ behind) before.length x = before ++ x :: behind := by
  have hinsert : (before ++ behind).insertIdx before.length x = before ++ x :: behind := by
    induction before with
    | nil => exact List.insertIdx_zero
    | cons y before ih =>
      rw [List.cons_append, List.length_cons, List.insertIdx_succ_cons, ih, List.cons_append]
  have hmin : min before.length (before ++ behind).length = before.length := by simp
  rw [insertAt, hmin, hinsert]

/-- The first place of an item. -/
theorem idxOf?_append_cons [DecidableEq α] {before : List α} {x : α} (h : x ∉ before)
    (behind : List α) : (before ++ x :: behind).idxOf? x = some before.length := by
  induction before with
  | nil => simp [List.idxOf?_cons]
  | cons y before ih =>
    rw [List.mem_cons, not_or] at h
    have hne : (y == x) = false := by simpa using Ne.symm h.1
    rw [List.cons_append, List.idxOf?_cons, hne, ih h.2]
    rfl

end positions

namespace Document

variable {d d' : Document} {id p anchor : BlockId}

/-! ## What a move leaves -/

/-- The children of a parent other than one id. -/
def siblings (d : Document) (id p : BlockId) : List BlockId := (d.childrenOf p).filter (· ≠ id)

/-- What a document is after a block was moved under a parent, with the list that the parent has now.
As it is clean, the lists of the blocks are those of the tree. -/
structure Placed (d : Document) (id p : BlockId) (list : List BlockId) (d' : Document) : Prop where
  clean : d'.Clean
  root : d'.root = d.root
  keys_blocks : d'.blocks.keys = d.blocks.keys
  parent : d'.tree[p]? = some list
  /-- A parent that it had before loses the block and nothing else. -/
  former : ∀ q, q ≠ p → id ∈ d.childrenOf q → d'.tree[q]? = some (d.siblings id q)
  others : ∀ q, q ≠ p → id ∉ d.childrenOf q → d'.tree[q]? = d.tree[q]?

/-- A block that may go under a parent. -/
structure Movable (d : Document) (id p : BlockId) : Prop where
  contains : d.contains id = true
  contains_parent : d.contains p = true
  ne_root : id ≠ d.root
  not_leads : ¬ Leads d.childrenOf id p

theorem movable_iff : d.Movable id p ↔ d.checkMove id p = .ok () := by
  rw [checkMove_eq_ok_iff]
  exact ⟨fun h => ⟨h.contains, h.contains_parent, h.ne_root, h.not_leads⟩,
    fun ⟨hid, hp, hroot, hl⟩ => ⟨hid, hp, hroot, hl⟩⟩

theorem getElem?_tree_attach (id p : BlockId) (n : Nat) (q : BlockId) :
    (d.attach id p n).tree[q]? =
      if p = q then some (insertAt (d.childrenOf p) n id) else d.tree[q]? := by
  rw [attach, tree_touch, tree_withChildren, Std.ExtTreeMap.getElem?_insert]
  simp

theorem IsForest.placed (h : d.IsForest) (hm : d.Movable id p) (n : Nat) :
    d.Placed id p (insertAt (d.siblings id p) n id) ((d.detach id).attach id p n) where
  clean := by
    have hmoved : Edit.Moved id p d ((d.detach id).attach id p n) :=
      ⟨hm.contains, hm.contains_parent, hm.ne_root, hm.not_leads, n, rfl⟩
    exact clean_iff.mpr (h.moved hmoved)
  root := root_detach id
  keys_blocks := Map.keys_eq_keys fun q => by
    have hcontains : ((d.detach id).attach id p n).contains q = d.contains q := by
      rw [contains_attach, contains_detach]
    exact Bool.eq_iff_iff.mp hcontains
  parent := by rw [getElem?_tree_attach, if_pos rfl, h.childrenOf_detach, siblings]
  former q hq hid := by
    rw [getElem?_tree_attach, if_neg (Ne.symm hq), h.getElem?_tree_detach, if_pos hid, siblings]
  others q hq hid := by
    rw [getElem?_tree_attach, if_neg (Ne.symm hq), h.getElem?_tree_detach, if_neg hid]

/-! ## Moves under a parent -/

theorem exists_move_iff {position : Option Nat} :
    (∃ d', Edit.move id p position d = .ok () d') ↔ d.Movable id p := by
  rw [movable_iff]
  exact ⟨fun ⟨d', h⟩ => (Edit.move_eq_ok h).1, fun h => ⟨_, Edit.move_eq_ok_iff.mpr ⟨h, rfl⟩⟩⟩

theorem IsForest.placed_of_move (h : d.IsForest) {position : Option Nat}
    (hmove : Edit.move id p position d = .ok () d') :
    d.Placed id p (insertAt (d.siblings id p) (position.getD (d.siblings id p).length) id) d' := by
  obtain ⟨hcheck, rfl⟩ := Edit.move_eq_ok hmove
  rw [h.childrenOf_detach]
  exact h.placed (movable_iff.mpr hcheck) _

/-! ## Moves beside an anchor -/

/-- A block that may go beside an anchor. -/
structure Joinable (d : Document) (id anchor : BlockId) : Prop where
  ne_anchor : id ≠ anchor
  contains : d.contains id = true
  contains_anchor : d.contains anchor = true
  ne_root : id ≠ d.root
  parent : ∃ p, anchor ∈ d.childrenOf p ∧ ¬ Leads d.childrenOf id p

/-- A move beside an anchor is a move under its parent. -/
theorem IsForest.moveBeside_eq_ok_iff (h : d.IsForest) {offset : Nat} :
    Edit.moveBeside id anchor offset d = .ok () d' ↔
      id ≠ anchor ∧ ∃ p, anchor ∈ d.childrenOf p ∧ d.Movable id p ∧
        d' = (d.detach id).attach id p (((d.siblings id p).idxOf? anchor).getD 0 + offset) := by
  simp only [Edit.moveBeside_eq_ok_iff, h.parent?_eq_some_iff, ← movable_iff, h.childrenOf_detach,
    siblings]
  constructor
  · rintro ⟨-, hne, -, hp⟩
    exact ⟨Ne.symm hne, hp⟩
  · rintro ⟨hne, p, hp, hm⟩
    exact ⟨h.child_mem p anchor hp, Ne.symm hne, fun hr => h.root_unlisted p (hr ▸ hp), p, hp, hm⟩

theorem IsForest.exists_moveBeside_iff (h : d.IsForest) {offset : Nat} :
    (∃ d', Edit.moveBeside id anchor offset d = .ok () d') ↔ d.Joinable id anchor := by
  simp only [h.moveBeside_eq_ok_iff]
  constructor
  · rintro ⟨d', hne, p, hp, hm, -⟩
    exact ⟨hne, hm.contains, h.child_mem p anchor hp, hm.ne_root, p, hp, hm.not_leads⟩
  · rintro ⟨hne, hid, -, hroot, p, hp, hl⟩
    have hcontains := h.parent_mem p (mem_tree_of_mem_childrenOf hp)
    exact ⟨_, hne, p, hp, ⟨hid, hcontains, hroot, hl⟩, rfl⟩

/-- The block comes `offset` places behind the place that the anchor has without it. -/
theorem IsForest.placed_of_moveBeside (h : d.IsForest) {offset : Nat}
    (hmove : Edit.moveBeside id anchor offset d = .ok () d') :
    ∃ p before behind, anchor ∈ d.childrenOf p ∧
      d.siblings id p = before ++ anchor :: behind ∧
      d.Placed id p (insertAt (before ++ anchor :: behind) (before.length + offset) id) d' := by
  obtain ⟨hne, p, hp, hm, rfl⟩ := h.moveBeside_eq_ok_iff.mp hmove
  have hmem : anchor ∈ d.siblings id p := List.mem_filter.mpr ⟨hp, by simpa using Ne.symm hne⟩
  obtain ⟨before, behind, hsplit⟩ := List.append_of_mem hmem
  have hfirst : anchor ∉ before := by
    have hnodup : (before ++ anchor :: behind).Nodup := hsplit ▸ (h.nodup p).filter _
    exact fun hb => (List.nodup_append.mp hnodup).2.2 anchor hb anchor List.mem_cons_self rfl
  refine ⟨p, before, behind, hp, hsplit, ?_⟩
  have hplaced := h.placed hm (((d.siblings id p).idxOf? anchor).getD 0 + offset)
  rw [hsplit, idxOf?_append_cons hfirst, Option.getD_some] at hplaced ⊢
  exact hplaced

/-- **A move succeeds exactly if it is legal, and puts the block exactly where it was asked for**: at a
position in the list of the parent without it, at the end where that is short or no position is given,
or directly before or behind an anchor. The parent that it had before loses it, and every other list is
as before. -/
theorem moves_place (hd : d.Clean) (id : BlockId) :
    (∀ p position, ((∃ d', Edit.move id p position d = .ok () d') ↔ d.Movable id p) ∧
      ∀ d', Edit.move id p position d = .ok () d' →
        let rest := d.siblings id p
        d.Placed id p (rest.insertIdx (min (position.getD rest.length) rest.length) id) d') ∧
    ∀ anchor,
      ((∃ d', Edit.moveBefore id anchor d = .ok () d') ↔ d.Joinable id anchor) ∧
      ((∃ d', Edit.moveAfter id anchor d = .ok () d') ↔ d.Joinable id anchor) ∧
      (∀ d', Edit.moveBefore id anchor d = .ok () d' →
        ∃ p before behind, anchor ∈ d.childrenOf p ∧ d.siblings id p = before ++ anchor :: behind ∧
          d.Placed id p (before ++ id :: anchor :: behind) d') ∧
      ∀ d', Edit.moveAfter id anchor d = .ok () d' →
        ∃ p before behind, anchor ∈ d.childrenOf p ∧ d.siblings id p = before ++ anchor :: behind ∧
          d.Placed id p (before ++ anchor :: id :: behind) d' := by
  have h := clean_iff.mp hd
  refine ⟨fun p position => ⟨exists_move_iff, fun d' hmove => h.placed_of_move hmove⟩, fun anchor =>
    ⟨h.exists_moveBeside_iff, h.exists_moveBeside_iff, fun d' hmove => ?_, fun d' hmove => ?_⟩⟩
  · obtain ⟨p, before, behind, hp, hsplit, hplaced⟩ := h.placed_of_moveBeside hmove
    rw [Nat.add_zero, insertAt_length] at hplaced
    exact ⟨p, before, behind, hp, hsplit, hplaced⟩
  · obtain ⟨p, before, behind, hp, hsplit, hplaced⟩ := h.placed_of_moveBeside hmove
    have hbehind := insertAt_length (before ++ [anchor]) behind id
    rw [List.length_append, List.length_singleton, List.append_assoc, List.append_assoc] at hbehind
    rw [← List.singleton_append, hbehind] at hplaced
    exact ⟨p, before, behind, hp, hsplit, hplaced⟩

/-- Of three siblings the first comes behind the second, a child of the first comes up between the two,
and the first does not go under its child. -/
theorem moves_place_family :
    let first : BlockId := .ofSuffix 2
    let second : BlockId := .ofSuffix 3
    let child : BlockId := .ofSuffix 5
    let d := Change.run (create ⟨.sequential, 1⟩)
      [.add (.ofSuffix 1) (.text "a") none none none, .add (.ofSuffix 1) (.text "b") none none none,
        .add (.ofSuffix 1) (.text "c") none none none, .add first (.text "d") none none none]
    d.Clean ∧
      (∃ d', Edit.moveAfter first second d = .ok () d' ∧
        d'.tree[BlockId.ofSuffix 1]? = some [second, first, .ofSuffix 4]) ∧
      (∃ d', Edit.move child (.ofSuffix 1) (some 1) d = .ok () d' ∧
        d'.tree[BlockId.ofSuffix 1]? = some [first, child, second, .ofSuffix 4] ∧
        d'.tree[first]? = some []) ∧
      ∀ d', Edit.move first child none d ≠ .ok () d' := by
  intro first second child d
  have hd : d.Clean := clean_run_create _ _
  have h := clean_iff.mp hd
  have hroot : d.root = .ofSuffix 1 := by decide +kernel
  have below {x : BlockId} (hx : x ≠ d.root) : ¬ Leads d.childrenOf x (.ofSuffix 1) := fun hl =>
    hx (h.eq_root_of_leads (hroot ▸ hl))
  refine ⟨hd, ?_, ?_, fun d' hmove => ?_⟩
  · have hjoin : d.Joinable first second :=
      ⟨by decide, by decide +kernel, by decide +kernel, by decide +kernel, .ofSuffix 1,
        by decide +kernel, below (by decide +kernel)⟩
    obtain ⟨-, hexists, -, hplace⟩ := (moves_place hd first).2 second
    obtain ⟨d', hmove⟩ := hexists.mpr hjoin
    obtain ⟨p, before, behind, hp, hsplit, hplaced⟩ := hplace d' hmove
    have hp1 : second ∈ d.childrenOf (.ofSuffix 1) := by decide +kernel
    obtain rfl : p = .ofSuffix 1 := h.parent_unique p _ second hp hp1
    have hrest : d.siblings first (.ofSuffix 1) = second :: [.ofSuffix 4] := by decide +kernel
    refine ⟨d', hmove, hplaced.parent.trans ?_⟩
    rw [hrest] at hsplit
    cases before with
    | nil =>
      cases hsplit
      rfl
    | cons x before =>
      have hmem : second ∈ [BlockId.ofSuffix 4] := by
        rw [(List.cons.inj hsplit).2]
        exact List.mem_append_right before List.mem_cons_self
      exact absurd hmem (by decide)
  · have hmovable : d.Movable child (.ofSuffix 1) :=
      ⟨by decide +kernel, by decide +kernel, by decide +kernel, below (by decide +kernel)⟩
    obtain ⟨hexists, hplace⟩ := (moves_place hd child).1 (.ofSuffix 1) (some 1)
    obtain ⟨d', hmove⟩ := hexists.mpr hmovable
    have hplaced := hplace d' hmove
    have hrest : d.siblings child (.ofSuffix 1) = [first, second, .ofSuffix 4] := by decide +kernel
    have hfirst : d.siblings child first = [] := by decide +kernel
    refine ⟨d', hmove, ?_, ?_⟩
    · rw [hplaced.parent, hrest]
      rfl
    · rw [hplaced.former first (by decide) (by decide +kernel), hfirst]
  · have hmovable := ((moves_place hd first).1 child none).1.mp ⟨d', hmove⟩
    exact hmovable.not_leads (.single (by decide +kernel))

end Document

end BlockDocument
