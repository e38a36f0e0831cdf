import Std.Data.ExtTreeSet
import BlockDocument.Content
import BlockDocument.Edge
import BlockDocument.Role

/-!
# Blocks

A block is a node of a document: a content, what is known about it, the edges that leave it and its
children in order. Blocks are told apart by their ids alone.
-/

namespace BlockDocument

/-- What is known about a block. -/
structure Metadata where
  role : Option Role := none
  label : Option String := none
  tags : Std.ExtTreeSet String := ∅
  attributes : Attributes := ∅
  /-- The estimate of the content's tokens, once it has been made. -/
  tokenEstimate : Option Nat := none
  created : Stamp := .current
  modified : Stamp := .current

/-- A node of a document. -/
structure Block where
  id : BlockId
  content : Content
  metadata : Metadata := {}
  edges : List Edge := []
  /-- The children, in document order. -/
  children : List BlockId := []

/-- The number of characters of an excerpt where none is asked for. -/
def excerptLength : Nat := 50

/-- The metadata with the mark that it was changed. -/
def Metadata.touch (m : Metadata) : Metadata := { m with modified := .current }

namespace Block

/-- Changes the metadata of a block and marks the change. -/
def annotate (b : Block) (f : Metadata → Metadata) : Block :=
  { b with metadata := (f b.metadata).touch }

/-- Marks a block as changed. -/
def touch (b : Block) : Block := b.annotate fun m => m

/-- Replaces the content; the estimate of its tokens is forgotten. -/
def withContent (b : Block) (c : Content) : Block :=
  { b with content := c }.annotate fun m => { m with tokenEstimate := none }

/-- Sets an attribute. -/
def withAttribute (b : Block) (name : String) (value : Attribute) : Block :=
  b.annotate fun m => { m with attributes := m.attributes.insert name value }

/-- The estimate of the content's tokens. -/
def tokens (b : Block) : Nat := b.metadata.tokenEstimate.getD b.content.tokens

/-- The block with the estimate of its tokens kept. -/
def withTokens (b : Block) : Block :=
  { b with metadata := { b.metadata with tokenEstimate := some b.tokens } }

/-- Whether two blocks are the same block. -/
def same (a b : Block) : Bool := a.id == b.id

/-- The edges of a relation. -/
def edgesOf (b : Block) (relation : Relation) : List Edge := b.edges.filter (·.relation == relation)

/-- Whether an edge leads to a target, by any relation or by the given one. -/
def hasEdgeTo (b : Block) (target : BlockId) (relation : Option Relation) : Bool :=
  b.edges.any fun e => e.target == target && relation.all (e.relation == ·)

end Block

end BlockDocument
