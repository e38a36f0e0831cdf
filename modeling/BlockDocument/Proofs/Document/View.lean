import BlockDocument.Document.Annotation
import BlockDocument.Proofs.Map

/-!
# What a document shows after a change

A document is seen through three readings: the block of an id, whether the tree has an entry for
an id, and the children it lists. Each operation on documents gets one equation for each reading,
so that the theory of trees never opens an operation.
-/

namespace BlockDocument.Document

open Std (ExtTreeMap)

/-! ## The three readings -/

theorem contains_iff {d : Document} {id : BlockId} :
    d.contains id = true ↔ ∃ b, d.block? id = some b := by
  rw [contains, block?, ExtTreeMap.contains_eq_isSome_getElem?, Option.isSome_iff_exists]

theorem contains_eq_isSome (d : Document) (id : BlockId) :
    d.contains id = (d.block? id).isSome :=
  ExtTreeMap.contains_eq_isSome_getElem?

theorem childrenOf_eq (d : Document) (id : BlockId) :
    d.childrenOf id = (d.tree[id]?).getD [] :=
  ExtTreeMap.getD_eq_getD_getElem?

theorem childrenOf_eq_nil {d : Document} {id : BlockId} (h : id ∉ d.tree) :
    d.childrenOf id = [] :=
  ExtTreeMap.getD_eq_fallback h

/-- The parent of a listed child has an entry. -/
theorem mem_tree_of_mem_childrenOf {d : Document} {p c : BlockId} (h : c ∈ d.childrenOf p) :
    p ∈ d.tree := by
  by_contra hp
  simp [childrenOf_eq_nil hp] at h

theorem require_eq (d : Document) (id : BlockId) :
    d.require id = match d.block? id with
      | some b => .ok b
      | none => .error (.notFound id) := rfl

/-! ## Changes to one block -/

section withBlock

variable (d : Document) (id : BlockId) (f : Block → Block)

@[simp] theorem root_withBlock : (d.withBlock id f).root = d.root := rfl

@[simp] theorem tree_withBlock : (d.withBlock id f).tree = d.tree := rfl

@[simp] theorem childrenOf_withBlock (q : BlockId) :
    (d.withBlock id f).childrenOf q = d.childrenOf q := rfl

theorem block?_withBlock (q : BlockId) :
    (d.withBlock id f).block? q = if id = q then (d.block? q).map f else d.block? q := by
  rw [block?, withBlock, ExtTreeMap.getElem?_modify]
  by_cases h : id = q
  · simp [h, block?]
  · simp [h, block?]

@[simp] theorem contains_withBlock (q : BlockId) :
    (d.withBlock id f).contains q = d.contains q := by
  simp [withBlock, contains, ExtTreeMap.contains_modify]

@[simp] theorem root_touch : (d.touch id).root = d.root := rfl

@[simp] theorem tree_touch : (d.touch id).tree = d.tree := rfl

@[simp] theorem childrenOf_touch (q : BlockId) : (d.touch id).childrenOf q = d.childrenOf q := rfl

@[simp] theorem contains_touch (q : BlockId) : (d.touch id).contains q = d.contains q :=
  contains_withBlock ..

end withBlock

/-! ## A new list of children -/

section withChildren

variable (d : Document) (p : BlockId) (cs : List BlockId)

@[simp] theorem root_withChildren : (d.withChildren p cs).root = d.root := rfl

@[simp] theorem contains_withChildren (q : BlockId) :
    (d.withChildren p cs).contains q = d.contains q := by
  rw [withChildren, contains_touch, contains_withBlock]
  rfl

@[simp] theorem tree_withChildren : (d.withChildren p cs).tree = d.tree.insert p cs := rfl

theorem childrenOf_withChildren (q : BlockId) :
    (d.withChildren p cs).childrenOf q = if q = p then cs else d.childrenOf q := by
  rw [childrenOf, childrenOf, tree_withChildren, ExtTreeMap.getD_insert]
  simp [eq_comm (a := p)]

/-- Only the parent's block changes: it takes the list over and is marked. -/
theorem block?_withChildren (q : BlockId) :
    (d.withChildren p cs).block? q =
      if p = q then (d.block? q).map fun b => { b with children := cs }.touch else d.block? q := by
  rw [withChildren, touch, block?_withBlock, block?_withBlock]
  by_cases h : p = q
  · simp [h, block?, Function.comp_def]
  · simp [h, block?]

end withChildren

/-! ## A part of a document -/

/-- The part of a document on the ids of a class. What the tree lists for them stays as it is. -/
def restrict (d : Document) (keep : BlockId → Bool) : Document :=
  { d with
    blocks := d.blocks.filter fun id _ => keep id
    tree := d.tree.filter fun id _ => keep id }

section restrict

variable (d : Document) (keep : BlockId → Bool)

@[simp] theorem root_restrict : (d.restrict keep).root = d.root := rfl

theorem block?_restrict (q : BlockId) :
    (d.restrict keep).block? q = if keep q then d.block? q else none := by
  rw [restrict, block?, ExtTreeMap.getElem?_filter']
  cases hb : d.blocks[q]? <;> simp [block?, hb, Option.filter]

theorem getElem?_tree_restrict (q : BlockId) :
    (d.restrict keep).tree[q]? = if keep q then d.tree[q]? else none := by
  rw [restrict, ExtTreeMap.getElem?_filter']
  cases hb : d.tree[q]? <;> simp [Option.filter]

theorem mem_tree_restrict (q : BlockId) :
    q ∈ (d.restrict keep).tree ↔ keep q = true ∧ q ∈ d.tree := by
  rw [ExtTreeMap.mem_iff_isSome_getElem?, getElem?_tree_restrict, ExtTreeMap.mem_iff_isSome_getElem?]
  cases keep q <;> simp

theorem contains_restrict (q : BlockId) :
    (d.restrict keep).contains q = (keep q && d.contains q) := by
  rw [contains_eq_isSome, block?_restrict, contains_eq_isSome]
  cases keep q <;> simp

theorem childrenOf_restrict (q : BlockId) :
    (d.restrict keep).childrenOf q = if keep q then d.childrenOf q else [] := by
  rw [childrenOf_eq, getElem?_tree_restrict, childrenOf_eq]
  cases keep q <;> simp

/-- Erasing ids leaves the part on all others. -/
theorem eraseAll_eq_restrict (ids : List BlockId) :
    d.eraseAll ids = d.restrict fun id => decide (id ∉ ids) := by
  have hb : d.blocks.eraseMany ids = d.blocks.filter fun id _ => decide (id ∉ ids) := by
    apply ExtTreeMap.ext_getElem?
    intro k
    rw [Map.getElem?_eraseMany, ExtTreeMap.getElem?_filter']
    by_cases hk : k ∈ ids <;> cases d.blocks[k]? <;> simp [hk, Option.filter]
  have ht : d.tree.eraseMany ids = d.tree.filter fun id _ => decide (id ∉ ids) := by
    apply ExtTreeMap.ext_getElem?
    intro k
    rw [Map.getElem?_eraseMany, ExtTreeMap.getElem?_filter']
    by_cases hk : k ∈ ids <;> cases d.tree[k]? <;> simp [hk, Option.filter]
  rw [eraseAll, restrict, hb, ht]

end restrict

end BlockDocument.Document
