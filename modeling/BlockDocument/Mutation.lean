import BlockDocument.Field
import BlockDocument.Place

/-!
# Mutations

A mutation is a request for one change to a document. `Mutation.apply` checks it against limits
before it changes anything, so a mutation that is refused leaves the tree and the blocks as they are.
-/

namespace BlockDocument

/-- A block that is to be added. -/
structure Draft where
  content : Content
  role : Option Role := none
  label : Option String := none
  tags : Std.ExtTreeSet String := ∅
  attributes : Attributes := ∅

/-- A request for one change. -/
inductive Mutation where
  /-- Adds a block under a parent, at a position among its children or as the last one. -/
  | add (parent : BlockId) (position : Option Nat) (draft : Draft)
  /-- Sets the field that a path names. -/
  | set (id : BlockId) (path value : String)
  | delete (id : BlockId) (children : Fate)
  | move (id : BlockId) (place : Place BlockId)
  | addEdge (source : BlockId) (relation : Relation) (target : BlockId) (note : Note)
  | removeEdge (source : BlockId) (relation : Relation) (target : BlockId)
  | addTag (id : BlockId) (tag : String)
  | removeTag (id : BlockId) (tag : String)
  /-- Deletes the blocks that no walk from the root meets. -/
  | prune

/-- What a mutation did. -/
inductive Outcome where
  | created (id : BlockId)
  | removed (ids : List BlockId)
  | updated
  /-- There was nothing to change. -/
  | unchanged
  deriving DecidableEq

/-- The outcome of a change that may have had nothing to do. -/
def Outcome.ofChange (changed : Bool) : Outcome := if changed then .updated else .unchanged

namespace Document

/-- Checks that a block may be added under a parent. -/
def checkAdd (d : Document) (limits : Limits) (parent : BlockId) (content : Content) :
    Except Failure Unit := do
  let _ ← d.require parent
  requireNone ((limits.blockCountIssue (d.size + 1)).toList ++
    ((d.depth? parent).bind fun depth => limits.depthIssue (depth + 1) parent).toList ++
    (limits.blockSizeIssue content.byteSize parent).toList)

/-- Checks the depth of a block and what is below it under a new parent. A parent that no climb leads
from sets no depth. -/
def checkDepth (d : Document) (limits : Limits) (id parent : BlockId) : Except Failure Unit :=
  requireNone ((d.depth? parent).bind fun depth =>
    limits.depthIssue (depth + 1 + d.height id) id).toList

/-- The parent of a place. -/
def parentOf? (d : Document) : Place BlockId → Option BlockId
  | .under parent _ => some parent
  | .before anchor | .after anchor => d.parent? anchor

/-- Checks the depth of a block and what is below it at a new place. -/
def checkPlace (d : Document) (limits : Limits) (id : BlockId) (place : Place BlockId) :
    Except Failure Unit :=
  match d.parentOf? place with
  | some parent => d.checkDepth limits id parent
  | none => .ok ()

/-- Checks that a block may have one edge more, unless it has this one. -/
def checkEdge (d : Document) (limits : Limits) (source : BlockId) (relation : Relation)
    (target : BlockId) : Except Failure Unit := do
  let b ← d.require source
  if b.hasEdgeTo target (some relation) then pure ()
  else requireNone (limits.edgeCountIssue (b.edges.length + 1) source).toList

end Document

/-- Moves a block to a place. -/
def Edit.moveTo (id : BlockId) : Place BlockId → Edit Unit
  | .under parent position => Edit.move id parent position
  | .before anchor => Edit.moveBefore id anchor
  | .after anchor => Edit.moveAfter id anchor

/-- Deletes a block. -/
def Edit.remove (id : BlockId) : Fate → Edit (List BlockId)
  | .none => Edit.delete id false
  | .deleted => Edit.delete id true
  | .kept => Edit.deleteOnly id

/-- Adds a block with all that its draft says. -/
def Edit.addDraft (parent : BlockId) (position : Option Nat) (draft : Draft) : Edit BlockId := do
  let id ← Edit.add parent draft.content draft.role draft.label position
  Edit.annotate id fun m =>
    { m with
      tags := m.tags.insertMany draft.tags.toList
      attributes := m.attributes.insertMany draft.attributes.toList }
  pure id

/-- Checks a mutation against limits, then carries it out. -/
def Mutation.apply (limits : Limits) : Mutation → Edit Outcome
  | add parent position draft => do
    ofExcept ((← get).checkAdd limits parent draft.content)
    .created <$> Edit.addDraft parent position draft
  | set id path value => do
    let field ← ofExcept (Field.read path)
    Edit.setField limits id field value
    pure .updated
  | delete id children => .removed <$> Edit.remove id children
  | move id place => do
    ofExcept ((← get).checkPlace limits id place)
    Edit.moveTo id place
    pure .updated
  | addEdge source relation target note => do
    ofExcept ((← get).checkEdge limits source relation target)
    .ofChange <$> Edit.addEdge source { relation, target, note }
  | removeEdge source relation target => .ofChange <$> Edit.removeEdge source relation target
  | addTag id tag => .ofChange <$> Edit.addTag id tag
  | removeTag id tag => .ofChange <$> Edit.removeTag id tag
  | prune => .removed <$> Edit.prune

end BlockDocument
