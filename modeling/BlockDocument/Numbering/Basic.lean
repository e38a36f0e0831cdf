import BlockDocument.Document.Walk

/-!
# Short numbers for blocks

A numbering counts the blocks of a document from one: first those that a walk from the root meets, in
document order, then the others in the order of ids. It is a list of ids, so no two blocks share a
number.
-/

namespace BlockDocument

/-- Blocks in the order of their numbers. -/
structure Numbering where
  ids : List BlockId

namespace Numbering

/-- The numbering of a document. -/
def ofDocument (d : Document) : Numbering :=
  let met := d.reachable
  ⟨d.order ++ d.blocks.keys.filter fun id => !met.contains id⟩

/-- How many blocks are numbered. -/
def size (n : Numbering) : Nat := n.ids.length

/-- The number of a block. -/
def short? (n : Numbering) (id : BlockId) : Option Nat := (n.ids.idxOf? id).map (· + 1)

/-- The block with a number. -/
def long? (n : Numbering) : Nat → Option BlockId
  | 0 => none
  | i + 1 => n.ids[i]?

/-- The numbers with their blocks, in order. -/
def pairs (n : Numbering) : List (Nat × BlockId) := n.ids.zipIdx.map fun (id, i) => (i + 1, id)

/-- The numbers and blocks as a table. -/
def table (n : Numbering) : String :=
  "| Short | Full ID |\n|-------|---------|\n" ++
    String.join (n.pairs.map fun (short, long) => s!"| {short} | {long} |\n")

end Numbering

end BlockDocument
