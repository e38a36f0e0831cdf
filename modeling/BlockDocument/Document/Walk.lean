import Std.Data.ExtTreeSet
import BlockDocument.Document.Basic

/-!
# Walks through a document

Walks from a block to its descendants. Each is a loop over a list of work with a record of the ids
already met, so it ends on any document: an id is replaced by its children at most once, and no list
of work is longer than all lists of children together.
-/

namespace BlockDocument

open Std (ExtTreeSet)

/-- A walk that meets every id before its children. It stands at the head of the list of work, and
what it has met is listed last first. -/
def preorderWalk (children : BlockId → List BlockId) :
    Nat → List BlockId → ExtTreeSet BlockId → List BlockId → List BlockId
  | 0, _, _, listed => listed.reverse
  | _, [], _, listed => listed.reverse
  | fuel + 1, id :: work, met, listed =>
    if id ∈ met then preorderWalk children fuel work met listed
    else preorderWalk children fuel (children id ++ work) (met.insert id) (id :: listed)

/-- A walk that leaves every id after its children. An id in the list of work is marked once its
children stand before it. -/
def postorderWalk (children : BlockId → List BlockId) :
    Nat → List (BlockId × Bool) → ExtTreeSet BlockId → List BlockId → List BlockId
  | 0, _, _, left => left.reverse
  | _, [], _, left => left.reverse
  | fuel + 1, (id, true) :: work, met, left =>
    postorderWalk children fuel work met (id :: left)
  | fuel + 1, (id, false) :: work, met, left =>
    if id ∈ met then postorderWalk children fuel work met left
    else
      postorderWalk children fuel ((children id).map (·, false) ++ (id, true) :: work)
        (met.insert id) left

/-- A walk that goes to the last child first and keeps the greatest level that it meets. -/
def heightWalk (children : BlockId → List BlockId) :
    Nat → List (BlockId × Nat) → ExtTreeSet BlockId → Nat → Nat
  | 0, _, _, height => height
  | _, [], _, height => height
  | fuel + 1, (id, level) :: work, met, height =>
    if id ∈ met then heightWalk children fuel work met height
    else
      heightWalk children fuel ((children id).reverse.map (·, level + 1) ++ work)
        (met.insert id) (max height level)

namespace Document

/-- How many children the tree lists in all. -/
def listedCount (d : Document) : Nat := d.tree.values.flatten.length

/-- An id and all its descendants, each before its children. -/
def subtree (d : Document) (id : BlockId) : List BlockId :=
  preorderWalk d.childrenOf (d.listedCount + 1) [id] ∅ []

/-- An id and all its descendants, each after its children. -/
def postorder (d : Document) (id : BlockId) : List BlockId :=
  postorderWalk d.childrenOf (2 * (d.listedCount + 1)) [(id, false)] ∅ []

/-- The number of levels below an id. -/
def height (d : Document) (id : BlockId) : Nat :=
  heightWalk d.childrenOf (d.listedCount + 1) [(id, 0)] ∅ 0

/-- The blocks that a walk from the root meets, in document order. -/
def order (d : Document) : List BlockId := (d.subtree d.root).filter d.contains

/-- The blocks that a walk from the root meets, in the order of ids. -/
def reachable (d : Document) : ExtTreeSet BlockId := .ofList d.order

/-- Whether an id lies below another. -/
def isBelow (d : Document) (id ancestor : BlockId) : Bool :=
  id != ancestor && (d.subtree ancestor).contains id

end Document

end BlockDocument
