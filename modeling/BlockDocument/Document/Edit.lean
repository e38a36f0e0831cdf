import BlockDocument.Document.Walk

/-!
# Changes to the tree

Operations that add, delete and move blocks. An edit reads and changes a document and may fail; what
it changed before it failed would stay, so each one checks everything before its first change.
-/

namespace BlockDocument

/-- A change to a document with an answer, or a failure. -/
abbrev Edit (α : Type) := EStateM Failure Document α

/-- Puts an item into a list, at the end when the position lies beyond it. -/
def insertAt {α : Type} (xs : List α) (position : Nat) (x : α) : List α :=
  xs.insertIdx (min position xs.length) x

/-- Replaces the first occurrence of an item by a list. -/
def spliceFor {α : Type} [DecidableEq α] (x : α) (ys : List α) : List α → List α
  | [] => []
  | z :: zs => if z = x then ys ++ zs else z :: spliceFor x ys zs

namespace Document

/-- Changes a block, if it exists. -/
def withBlock (d : Document) (id : BlockId) (f : Block → Block) : Document :=
  { d with blocks := d.blocks.modify id f }

/-- Marks a block as changed, if it exists. -/
def touch (d : Document) (id : BlockId) : Document := d.withBlock id Block.touch

/-- Gives a parent a list of children, in the tree and in its block, and marks the block. -/
def withChildren (d : Document) (parent : BlockId) (children : List BlockId) : Document :=
  ({ d with tree := d.tree.insert parent children }.withBlock parent
    fun b => { b with children }).touch parent

/-- Takes an id out of the list of its parent. -/
def detach (d : Document) (id : BlockId) : Document :=
  match d.parent? id with
  | some p => d.withChildren p ((d.childrenOf p).filter (· ≠ id))
  | none => d

/-- Puts an id into the list of a parent and marks both. -/
def attach (d : Document) (id parent : BlockId) (position : Nat) : Document :=
  (d.withChildren parent (insertAt (d.childrenOf parent) position id)).touch id

/-- Removes blocks and what the tree lists for them. -/
def eraseAll (d : Document) (ids : List BlockId) : Document :=
  { d with blocks := d.blocks.eraseMany ids, tree := d.tree.eraseMany ids }

/-- Why a block may not be moved under a parent. -/
def checkMove (d : Document) (id parent : BlockId) : Except Failure Unit := do
  let _ ← d.require id
  let _ ← d.require parent
  if id = d.root then throw (.refused .movesRoot)
  if id = parent then throw (.refused (.intoItself id))
  if d.isBelow parent id then throw (.refused (.intoDescendant id parent))

end Document

namespace Edit

open Document

/-- The block with an id, which has to exist. -/
def require (id : BlockId) : Edit Block := do ofExcept ((← get).require id)

/-- Adds a block under a parent, at a position among its children or as the last one. -/
def add (parent : BlockId) (content : Content) (role : Option Role) (label : Option String)
    (position : Option Nat) : Edit BlockId := do
  let _ ← require parent
  let d ← get
  let (id?, allocator) := d.allocator.allocate content role d.contains
  set { d with allocator }
  match id? with
  | none => throw (.refused .noIdLeft)
  | some id =>
    modify fun d =>
      let siblings := d.childrenOf parent
      { d with
        blocks := d.blocks.insert id { id, content, metadata := { role, label } }
        tree := d.tree.insert id [] }.withChildren parent
          (insertAt siblings (position.getD siblings.length) id)
    pure id

/-- Replaces the content of a block. -/
def setContent (id : BlockId) (content : Content) : Edit Unit := do
  let _ ← require id
  modify fun d => d.withBlock id fun b => b.withContent content

/-- Deletes a block, with everything below it if `cascade` is set; without, it may have no children.
The answer lists the deleted ids, children before parents. Edges that lead to them stay. -/
def delete (id : BlockId) (cascade : Bool) : Edit (List BlockId) := do
  let d ← get
  if id = d.root then throw (.refused .deletesRoot)
  let children ← ofExcept (d.children id)
  if !children.isEmpty && !cascade then throw (.refused (.hasChildren id))
  let removed := d.postorder id
  set ((d.detach id).eraseAll removed)
  pure removed

/-- Deletes a block and puts its children in its place. -/
def deleteOnly (id : BlockId) : Edit (List BlockId) := do
  let d ← get
  if id = d.root then throw (.refused .deletesRoot)
  let children ← ofExcept (d.children id)
  match d.parent? id with
  | none => throw (.refused (.noHeir id))
  | some p =>
    let d := d.withChildren p (spliceFor id children (d.childrenOf p))
    set (d.eraseAll [id])
    pure [id]

/-- Moves a block under a parent, at a position among the children other than itself or as the last
one. -/
def move (id parent : BlockId) (position : Option Nat) : Edit Unit := do
  let d ← get
  ofExcept (d.checkMove id parent)
  let d := d.detach id
  set (d.attach id parent (position.getD (d.childrenOf parent).length))

/-- Moves a block next to an anchor, `offset` places after the anchor's own. -/
def moveBeside (id anchor : BlockId) (offset : Nat) : Edit Unit := do
  let d ← get
  let _ ← require anchor
  if anchor = id then throw (.refused (.besideItself id))
  if anchor = d.root then throw (.refused .besideRoot)
  match d.parent? anchor with
  | none => throw (.refused (.anchorWithoutParent anchor))
  | some p =>
    ofExcept (d.checkMove id p)
    let d := d.detach id
    set (d.attach id p (((d.childrenOf p).idxOf? anchor).getD 0 + offset))

/-- Moves a block to just before an anchor. -/
def moveBefore (id anchor : BlockId) : Edit Unit := moveBeside id anchor 0

/-- Moves a block to just after an anchor. -/
def moveAfter (id anchor : BlockId) : Edit Unit := moveBeside id anchor 1

/-- Deletes every block that a walk from the root does not meet. The answer lists them in the order
of ids. -/
def prune : Edit (List BlockId) := do
  let d ← get
  let met := d.reachable
  let removed := d.blocks.keys.filter fun id => !met.contains id
  set { d with
    blocks := d.blocks.filter fun id _ => met.contains id
    tree := d.tree.filter fun id _ => met.contains id }
  pure removed

end Edit

end BlockDocument
