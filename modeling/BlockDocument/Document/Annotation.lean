import BlockDocument.Document.Edit

/-!
# Edges, tags and other annotations

Operations that change one block and leave the tree alone. Each marks the block as changed, the ones
on edges and tags only if there was something to change.
-/

namespace BlockDocument

namespace Edit

open Document

/-- Changes a block that exists. -/
def update (id : BlockId) (f : Block → Block) : Edit Unit := do
  let _ ← require id
  modify fun d => d.withBlock id f

/-- Changes what is known about a block. -/
def annotate (id : BlockId) (f : Metadata → Metadata) : Edit Unit := update id (·.annotate f)

/-- Adds an edge, unless the block has one with the same relation and target. The answer says
whether it was added. -/
def addEdge (source : BlockId) (edge : Edge) : Edit Bool := do
  let b ← require source
  if b.edges.any (·.sameEnds edge) then pure false
  else
    update source fun b => { b with edges := b.edges ++ [edge] }.touch
    pure true

/-- Removes the edges with a relation and a target. The answer says whether there was one. -/
def removeEdge (source : BlockId) (relation : Relation) (target : BlockId) : Edit Bool := do
  let b ← require source
  if b.edges.any (·.matches relation target) then
    update source fun b => { b with edges := b.edges.filter fun e => !e.matches relation target }.touch
    pure true
  else pure false

/-- Adds a tag. The answer says whether it is new. -/
def addTag (id : BlockId) (tag : String) : Edit Bool := do
  let b ← require id
  if b.metadata.tags.contains tag then pure false
  else
    annotate id fun m => { m with tags := m.tags.insert tag }
    pure true

/-- Removes a tag. The answer says whether it was there. -/
def removeTag (id : BlockId) (tag : String) : Edit Bool := do
  let b ← require id
  if b.metadata.tags.contains tag then
    annotate id fun m => { m with tags := m.tags.erase tag }
    pure true
  else pure false

/-- Sets or clears the role of a block. -/
def setRole (id : BlockId) (role : Option Role) : Edit Unit := annotate id fun m => { m with role }

/-- Sets or clears the label of a block. -/
def setLabel (id : BlockId) (label : Option String) : Edit Unit :=
  annotate id fun m => { m with label }

/-- Sets an attribute of a block. -/
def setAttribute (id : BlockId) (name : String) (value : Attribute) : Edit Unit :=
  update id (·.withAttribute name value)

/-- Sets or clears the estimate of a block's tokens. -/
def setTokenEstimate (id : BlockId) (tokenEstimate : Option Nat) : Edit Unit :=
  annotate id fun m => { m with tokenEstimate }

end Edit

namespace Document

/-- The edges that leave a block. -/
def edges (d : Document) (source : BlockId) : Except Failure (List Edge) :=
  (d.require source).map Block.edges

/-- Whether an edge leads from a source to a target, by any relation or by the given one. -/
def hasEdge (d : Document) (source target : BlockId) (relation : Option Relation) : Bool :=
  (d.block? source).any (·.hasEdgeTo target relation)

/-- The edges that lead to a target, with the blocks that they leave. -/
def incoming (d : Document) (target : BlockId) : List (BlockId × Edge) :=
  d.blocks.values.flatMap fun b => (b.edges.filter (·.target == target)).map (b.id, ·)

/-- The blocks with a tag, in the order of ids. -/
def tagged (d : Document) (tag : String) : List BlockId :=
  (d.blocks.values.filter (·.metadata.tags.contains tag)).map Block.id

end Document

end BlockDocument
