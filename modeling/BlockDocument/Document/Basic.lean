import BlockDocument.Allocator
import BlockDocument.Block
import BlockDocument.Failure

/-!
# Documents

A document is a set of blocks and a tree over them. The tree lists the children of every block in
document order; each block also holds its own list, and the operations of this library change the
two together. A document that comes from elsewhere may break any rule of a tree, so nothing here
relies on them.
-/

namespace BlockDocument

open Std (ExtTreeMap)

/-- Blocks and the tree that orders them. -/
structure Document where
  root : BlockId
  blocks : ExtTreeMap BlockId Block
  /-- The children of each parent, in document order. -/
  tree : ExtTreeMap BlockId (List BlockId)
  allocator : Allocator

namespace Document

/-- The document that holds an empty root only. -/
def create (a : Allocator) : Document :=
  let content := Content.text ""
  let (id?, allocator) := a.allocate content none fun _ => false
  let root := id?.getD (.ofSuffix 1)
  { root, allocator
    blocks := ExtTreeMap.empty.insert root { id := root, content }
    tree := ExtTreeMap.empty.insert root [] }

/-- The document of the given parts, whatever they are. Its allocator passes over the ids of the
blocks. -/
def ofParts (root : BlockId) (blocks : ExtTreeMap BlockId Block)
    (tree : ExtTreeMap BlockId (List BlockId)) (a : Allocator) : Document :=
  { root, blocks, tree, allocator := blocks.keys.foldl Allocator.observe a }

/-- The block with an id. -/
def block? (d : Document) (id : BlockId) : Option Block := d.blocks[id]?

/-- Whether there is a block with an id. -/
def contains (d : Document) (id : BlockId) : Bool := d.blocks.contains id

/-- The number of blocks. -/
def size (d : Document) : Nat := d.blocks.size

/-- The children that the tree lists for an id. -/
def childrenOf (d : Document) (id : BlockId) : List BlockId := d.tree.getD id []

/-- The block with an id, which has to exist. -/
def require (d : Document) (id : BlockId) : Except Failure Block :=
  match d.block? id with
  | some b => .ok b
  | none => .error (.notFound id)

/-- The children of a block. -/
def children (d : Document) (id : BlockId) : Except Failure (List BlockId) :=
  (d.require id).map fun _ => d.childrenOf id

/-- The parent of an id: the first, in the order of ids, that lists it. -/
def parent? (d : Document) (id : BlockId) : Option BlockId :=
  (d.tree.toList.find? fun e => e.2.contains id).map Prod.fst

/-- The number of steps from an id up to the root, if there are no more than `bound`. -/
def climb (d : Document) : Nat → BlockId → Option Nat
  | 0, id => if id = d.root then some 0 else none
  | bound + 1, id =>
    if id = d.root then some 0
    else (d.parent? id).bind fun p => (d.climb bound p).map (· + 1)

/-- The distance of an id from the root. A climb that takes more steps than there are blocks never
ends. -/
def depth? (d : Document) (id : BlockId) : Option Nat := d.climb d.size id

end Document

end BlockDocument
