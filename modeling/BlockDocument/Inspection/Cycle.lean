import Std.Data.ExtTreeMap
import BlockDocument.Document.Walk

/-!
# Cycles

A depth-first walk over all lists of children. Wherever the walk comes back to an id that it is still
below, it has closed a cycle.
-/

namespace BlockDocument

/-- How far a depth-first walk is with an id. -/
inductive Mark where
  /-- The walk is at the id or below it. -/
  | entered
  /-- The walk has been everywhere below the id. -/
  | left
  deriving DecidableEq

/-- What a depth-first walk has behind it. -/
structure Trace where
  /-- The ids that the walk has met. -/
  marks : Std.ExtTreeMap BlockId Mark := ∅
  /-- The ids at which it closed a cycle, last first. -/
  closed : List BlockId := []

namespace Trace

/-- Comes to an id for the first time. -/
def enter (t : Trace) (id : BlockId) : Trace := { t with marks := t.marks.insert id .entered }

/-- Goes up from an id for good. -/
def leave (t : Trace) (id : BlockId) : Trace := { t with marks := t.marks.insert id .left }

/-- Closes a cycle at an id. -/
def close (t : Trace) (id : BlockId) : Trace := { t with closed := id :: t.closed }

/-- Goes on with a walk. The path leads from the last id entered back to the first, each with the
children that are still to be looked at. -/
def walk (children : BlockId → List BlockId) :
    Nat → List (BlockId × List BlockId) → Trace → Trace
  | 0, _, t => t
  | _, [], t => t
  | fuel + 1, (id, []) :: path, t => walk children fuel path (t.leave id)
  | fuel + 1, (id, child :: rest) :: path, t =>
    match t.marks[child]? with
    | some .entered => walk children fuel ((id, rest) :: path) (t.close child)
    | some .left => walk children fuel ((id, rest) :: path) t
    | none => walk children fuel ((child, children child) :: (id, rest) :: path) (t.enter child)

end Trace

namespace Document

/-- Steps that are enough for a walk: one to leave each id and one for each listed child. -/
def walkBound (d : Document) : Nat := d.tree.size + 2 * d.listedCount + 1

/-- Walks from every id that has a list of children and was not met before. -/
def trace (d : Document) : Trace :=
  let bound := d.walkBound
  d.tree.keys.foldl
    (fun t id =>
      if id ∈ t.marks then t
      else (t.enter id).walk d.childrenOf bound [(id, d.childrenOf id)])
    {}

/-- The ids at which walks close a cycle, one for each time that they do. -/
def cycleEntries (d : Document) : List BlockId := d.trace.closed.reverse

end Document

end BlockDocument
