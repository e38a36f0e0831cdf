import BlockDocument.Document.Basic
import BlockDocument.Failure

/-!
# The body of a saved document

A body lists the blocks of a document and, apart from them, its edges. Every document has a body,
with its blocks in the order of ids and its edges in the order of the blocks that they leave. A body
is the one of a document unless an id occurs twice, the root has no block, or an edge has no source;
a tree that is damaged in another way is taken as it is.
-/

namespace BlockDocument.Archive

/-- A block without its edges. -/
structure BlockRecord where
  id : BlockId
  content : Content
  metadata : Metadata
  children : List BlockId

/-- An edge with the block that it leaves. -/
structure EdgeRecord where
  source : BlockId
  edge : Edge

/-- What is saved of a document. -/
structure Body where
  policy : Policy
  root : BlockId
  blocks : List BlockRecord
  edges : List EdgeRecord

/-- The block of a record, without edges. -/
def BlockRecord.block (r : BlockRecord) : Block :=
  { id := r.id, content := r.content, metadata := r.metadata, children := r.children }

namespace Body

/-- The body of a document. -/
def ofDocument (d : Document) : Body where
  policy := d.allocator.policy
  root := d.root
  blocks := d.blocks.toList.map fun (id, b) => ⟨id, b.content, b.metadata, b.children⟩
  edges := d.blocks.toList.flatMap fun (id, b) => b.edges.map (⟨id, ·⟩)

/-- Puts blocks together, no two with the same id. -/
def collectBlocks : Std.ExtTreeMap BlockId Block → List BlockRecord →
    Except ArchiveFault (Std.ExtTreeMap BlockId Block)
  | blocks, [] => .ok blocks
  | blocks, r :: rest =>
    if r.id ∈ blocks then .error (.duplicateBlock r.id)
    else collectBlocks (blocks.insert r.id r.block) rest

/-- Gives each edge to the block that it leaves. -/
def collectEdges : Std.ExtTreeMap BlockId Block → List EdgeRecord →
    Except ArchiveFault (Std.ExtTreeMap BlockId Block)
  | blocks, [] => .ok blocks
  | blocks, r :: rest =>
    if r.source ∈ blocks then
      collectEdges (blocks.modify r.source fun b => { b with edges := b.edges ++ [r.edge] }) rest
    else .error (.edgeWithoutSource r.source)

/-- The document of a body. The tree lists what the blocks hold. -/
def document (body : Body) : Except ArchiveFault Document := do
  let blocks ← collectBlocks ∅ body.blocks
  if body.root ∉ blocks then throw (.rootWithoutBlock body.root)
  let tree := blocks.map fun _ b => b.children
  let blocks ← collectEdges blocks body.edges
  pure (.ofParts body.root blocks tree { policy := body.policy })

end Body

end BlockDocument.Archive
