import BlockDocument.Text.Name

/-!
# Relations

The kinds of edges between blocks, with three facts about each: its family, the relation that its
target sees, and whether it reads the same from both ends.
-/

namespace BlockDocument

/-- What a group of relations is about. -/
inductive Family where
  | derivation
  | reference
  | semantic
  | structural
  | version
  deriving DecidableEq, Repr

/-- The name of a family. -/
def Family.name : Family → String
  | derivation => "derivation"
  | reference => "reference"
  | semantic => "semantic"
  | structural => "structural"
  | version => "version"

/-- The kind of an edge. -/
inductive Relation where
  | derivedFrom
  | supersedes
  | transformedFrom
  | references
  | citedBy
  | linksTo
  | supports
  | contradicts
  | elaborates
  | summarizes
  | parentOf
  | childOf
  | siblingOf
  | previousSibling
  | nextSibling
  | versionOf
  | alternativeOf
  /-- The same in another language. -/
  | otherLanguageOf
  deriving DecidableEq, Repr

namespace Relation

/-- Every relation. -/
def all : List Relation :=
  [.derivedFrom, .supersedes, .transformedFrom, .references, .citedBy, .linksTo, .supports,
   .contradicts, .elaborates, .summarizes, .parentOf, .childOf, .siblingOf, .previousSibling,
   .nextSibling, .versionOf, .alternativeOf, .otherLanguageOf]

/-- The name of a relation. -/
def name : Relation → String
  | derivedFrom => "derived_from"
  | supersedes => "supersedes"
  | transformedFrom => "transformed_from"
  | references => "references"
  | citedBy => "cited_by"
  | linksTo => "links_to"
  | supports => "supports"
  | contradicts => "contradicts"
  | elaborates => "elaborates"
  | summarizes => "summarizes"
  | parentOf => "parent_of"
  | childOf => "child_of"
  | siblingOf => "sibling_of"
  | previousSibling => "previous_sibling"
  | nextSibling => "next_sibling"
  | versionOf => "version_of"
  | alternativeOf => "alternative_of"
  | otherLanguageOf => "translation_of"

/-- The relation with a name, in any case. -/
def parse? (name : String) : Option Relation := all.find? fun r => Text.sameName r.name name

/-- The family of a relation. -/
def family : Relation → Family
  | derivedFrom | supersedes | transformedFrom => .derivation
  | references | citedBy | linksTo => .reference
  | supports | contradicts | elaborates | summarizes => .semantic
  | parentOf | childOf | siblingOf | previousSibling | nextSibling => .structural
  | versionOf | alternativeOf | otherLanguageOf => .version

/-- The relation seen from the target. One without a counterpart is its own. -/
def inverse : Relation → Relation
  | references => citedBy
  | citedBy => references
  | parentOf => childOf
  | childOf => parentOf
  | previousSibling => nextSibling
  | nextSibling => previousSibling
  | r => r

/-- Whether the relation reads the same from both ends. -/
def isSymmetric : Relation → Bool
  | contradicts | siblingOf => true
  | _ => false

/-- Whether the relation repeats one of the tree. -/
def isStructural (r : Relation) : Bool := r.family == .structural

end Relation

end BlockDocument
