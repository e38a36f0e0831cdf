import BlockDocument.Attribute
import BlockDocument.BlockId
import BlockDocument.Relation
import BlockDocument.Time.Instant

/-!
# Edges

An edge leads from the block that holds it to a target, which need not exist. Its note may carry a
confidence between zero and one, a description and attributes.
-/

namespace BlockDocument

open BlockDocument.Number

/-- When something was made or changed. -/
inductive Stamp where
  /-- At a time that a saved document records. -/
  | recorded (time : Time.Instant)
  /-- Since the document was opened; saving records the time. -/
  | current
  deriving DecidableEq

/-- What is said about an edge. -/
structure Note where
  /-- From zero to one, unless a saved document says otherwise. -/
  confidence : Option Single := none
  description : Option String := none
  attributes : Attributes := ∅

/-- A directed connection to another block. -/
structure Edge where
  relation : Relation
  target : BlockId
  note : Note := {}
  created : Stamp := .current

/-- The note with a confidence, kept between zero and one. What is not a number clears it. -/
def Note.withConfidence (n : Note) (x : Single) : Note :=
  { n with confidence := if x = .nan then none else some x.clampUnit }

/-- Whether nothing is said. -/
def Note.isEmpty (n : Note) : Bool :=
  n.confidence.isNone && n.description.isNone && n.attributes.isEmpty

/-- Whether an edge has the given relation and target. -/
def Edge.matches (e : Edge) (relation : Relation) (target : BlockId) : Bool :=
  e.relation == relation && e.target == target

/-- Whether two edges have the same relation and target. -/
def Edge.sameEnds (a b : Edge) : Bool := a.matches b.relation b.target

end BlockDocument
