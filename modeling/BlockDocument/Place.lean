/-!
# Places

Where a block goes in the tree, said with whatever names blocks.
-/

namespace BlockDocument

/-- A place for a block. -/
inductive Place (α : Type) where
  /-- Under a parent, at a position among its children or as the last one. -/
  | under (parent : α) (position : Option Nat)
  /-- Just before an anchor. -/
  | before (anchor : α)
  /-- Just after an anchor. -/
  | after (anchor : α)
  deriving DecidableEq, Repr

/-- What happens to the children of a deleted block. -/
inductive Fate where
  /-- There may be none. -/
  | none
  /-- They are deleted as well. -/
  | deleted
  /-- They take the place of the block. -/
  | kept
  deriving DecidableEq, Repr

/-- The fate that two wishes amount to. To keep the children weighs more than to delete them. -/
def Fate.ofWishes (delete keep : Bool) : Fate :=
  if keep then .kept else if delete then .deleted else .none

end BlockDocument
