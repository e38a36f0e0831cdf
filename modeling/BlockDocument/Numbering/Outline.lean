import BlockDocument.Numbering.Basic

/-!
# Outlines

An outline of a document for a reader who knows blocks by their numbers: one line for each block,
two blanks deeper at each level.
-/

namespace BlockDocument

-- Sums start at the zero of the core library, whatever else is imported.
attribute [local instance (high)] Zero.ofOfNat0

/-- What a line of an outline shows: a block, with the id under which it is stored and its level. -/
structure OutlineEntry where
  id : BlockId
  block : Block
  level : Nat

/-- A walk over the lists of children that blocks hold. The blocks met so far are kept last first; an
id that is no block is passed over. -/
def outlineWalk (block? : BlockId → Option Block) :
    Nat → List (BlockId × Nat) → Std.ExtTreeSet BlockId → List OutlineEntry → List OutlineEntry
  | 0, _, _, met => met.reverse
  | _, [], _, met => met.reverse
  | fuel + 1, (id, level) :: work, seen, met =>
    if id ∈ seen then outlineWalk block? fuel work seen met
    else match block? id with
      | none => outlineWalk block? fuel work (seen.insert id) met
      | some b =>
        outlineWalk block? fuel (b.children.map (·, level + 1) ++ work) (seen.insert id)
          (⟨id, b, level⟩ :: met)

namespace Document

/-- How many children the blocks hold in all. -/
def heldCount (d : Document) : Nat := (d.blocks.values.map fun b => b.children.length).sum

/-- The lines of an outline. -/
def outline (d : Document) : List OutlineEntry :=
  outlineWalk d.block? (d.heldCount + 1) [(d.root, 0)] ∅ []

end Document

/-- What a block is: its role, or else the kind of its content. -/
def Block.caption (b : Block) : String :=
  match b.metadata.role with
  | some role => role.name
  | none => b.content.kind.name

namespace OutlineEntry

/-- The name of a block in an outline: its number, or else its id. -/
def label (short? : BlockId → Option Nat) (e : OutlineEntry) : String :=
  match short? e.id with
  | some short => toString short
  | none => e.id.text

/-- The line of a block in an outline. -/
def line (short? : BlockId → Option Nat) (e : OutlineEntry) : String :=
  String.ofList (List.replicate (2 * e.level) ' ') ++ "[" ++ e.label short? ++ "] " ++
    e.block.caption ++ " - " ++ e.block.content.excerpt excerptLength

end OutlineEntry

/-- The outline of a document for a reader who has the numbers of its blocks. -/
def Document.describe (d : Document) (short? : BlockId → Option Nat) : String :=
  "Document Structure:\n" ++ String.join (d.outline.map fun e => e.line short? ++ "\n")

/-- The outline of a document, with the numbers of a numbering. -/
def Numbering.describe (n : Numbering) (d : Document) : String := d.describe n.short?

end BlockDocument
