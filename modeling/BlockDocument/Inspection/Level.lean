import Std.Data.ExtTreeSet
import BlockDocument.Document.Basic

/-!
# Levels

The level of a block is the least number of steps from the root down to it. The blocks are met level
by level, so no path is followed twice, whatever the tree looks like.
-/

namespace BlockDocument

open Std (ExtTreeMap ExtTreeSet)

/-- Notes the level of the ids in a row and of everything below them. Ids that have a level already
keep it. -/
def spreadLevels (children : BlockId → List BlockId) :
    Nat → Nat → ExtTreeSet BlockId → ExtTreeMap BlockId Nat → ExtTreeMap BlockId Nat
  | 0, _, _, levels => levels
  | fuel + 1, level, row, levels =>
    let fresh := row.toList.filter fun id => !levels.contains id
    if fresh.isEmpty then levels
    else
      spreadLevels children fuel (level + 1) (.ofList (fresh.flatMap children))
        (levels.insertMany (fresh.map (·, level)))

namespace Document

/-- The children of an id that are blocks. -/
def presentChildren (d : Document) (id : BlockId) : List BlockId :=
  (d.childrenOf id).filter d.contains

/-- The levels of the blocks that lie below the root, and of the root. -/
def levels (d : Document) : ExtTreeMap BlockId Nat :=
  spreadLevels d.presentChildren (d.size + 1) 0 (.ofList ([d.root].filter d.contains)) ∅

/-- The block on the greatest level, the last of them in the order of ids, with its level. -/
def deepest? (d : Document) : Option (BlockId × Nat) :=
  d.levels.toList.foldl
    (fun best e => match best with
      | some b => if b.2 ≤ e.2 then some e else some b
      | none => some e)
    none

end Document

end BlockDocument
