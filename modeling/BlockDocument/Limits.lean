/-!
# Limits

Bounds on the size of a document. A bound that is absent does not bound.
-/

namespace BlockDocument

/-- What a document may grow to. -/
structure Limits where
  /-- The number of blocks. -/
  blocks : Option Nat := none
  /-- The distance of a block from the root. -/
  depth : Option Nat := none
  /-- The bytes of one block's content. -/
  blockSize : Option Nat := none
  /-- The bytes of all contents. -/
  documentSize : Option Nat := none
  /-- The edges that leave one block. -/
  edges : Option Nat := none
  deriving DecidableEq, Repr

/-- Bounds for documents from untrusted hands. -/
def Limits.standard : Limits where
  blocks := some 100000
  depth := some 50
  blockSize := some (5 * 1024 * 1024)
  documentSize := some (50 * 1024 * 1024)
  edges := some 1000

/-- The bound that a measure exceeds. -/
def exceeded? (bound : Option Nat) (measure : Nat) : Option Nat := bound.filter (· < measure)

end BlockDocument
