import BlockDocument.BlockId
import BlockDocument.Limits
import BlockDocument.Relation

/-!
# Issues

What an inspection of a document can find. Only errors make a document invalid.
-/

namespace BlockDocument

/-- How much an issue matters. -/
inductive Severity where
  | error
  | warning
  | info
  deriving DecidableEq, Repr

theorem Severity.warning_ne_error : Severity.warning ≠ .error := nofun

/-- The name of a severity. -/
def Severity.name : Severity → String
  | error => "ERROR"
  | warning => "WARNING"
  | info => "INFO"

/-- One thing that an inspection finds. -/
inductive Finding where
  /-- The root is no block. -/
  | rootMissing (root : BlockId)
  /-- Children are listed for something that is no block. -/
  | parentMissing (parent : BlockId)
  /-- A child is listed that is no block. -/
  | childMissing (parent child : BlockId)
  /-- The root is somebody's child. -/
  | rootListed
  /-- A block is listed more than once. -/
  | manyParents (count : Nat)
  /-- The children that a block holds are not the ones that the tree lists. -/
  | childrenDiffer
  /-- A walk from parents to children comes back. -/
  | cycle
  /-- No walk leads from the root to the block. -/
  | orphan
  /-- An edge leads to something that is no block. -/
  | dangling (relation : Relation) (target : BlockId)
  | documentTooLarge (size bound : Nat)
  | tooManyBlocks (count bound : Nat)
  | blockTooLarge (size bound : Nat)
  | tooDeep (depth bound : Nat)
  | tooManyEdges (count bound : Nat)
  deriving DecidableEq

namespace Finding

/-- The code of a finding. -/
def code : Finding → String
  | rootMissing _ | parentMissing _ | childMissing .. => "E001"
  | cycle => "E201"
  | manyParents _ | rootListed => "E202"
  | orphan => "E203"
  | childrenDiffer => "E204"
  | dangling .. => "E205"
  | documentTooLarge .. => "E400"
  | tooManyBlocks .. => "E401"
  | blockTooLarge .. => "E402"
  | tooDeep .. => "E403"
  | tooManyEdges .. => "E404"

/-- A finding in words. -/
def message : Finding → String
  | rootMissing root => s!"root block {root} is missing"
  | parentMissing parent => s!"structure lists children for missing block {parent}"
  | childMissing parent child => s!"{parent} lists missing child {child}"
  | rootListed => "root is listed as a child"
  | manyParents count => s!"block has {count} parents"
  | childrenDiffer => "block children diverge from the structure index"
  | cycle => "cycle in structure"
  | orphan => "block is unreachable from root"
  | dangling relation target => relation.name ++ s!" edge targets missing block {target}"
  | documentTooLarge size bound => s!"document size {size} bytes exceeds limit {bound}"
  | tooManyBlocks count bound => s!"block count {count} exceeds limit {bound}"
  | blockTooLarge size bound => s!"block size {size} bytes exceeds limit {bound}"
  | tooDeep depth bound => s!"depth {depth} exceeds limit {bound}"
  | tooManyEdges count bound => s!"{count} outgoing edges exceed limit {bound}"

end Finding

/-- A finding, how much it matters and the block that it is about. -/
structure Issue where
  severity : Severity
  finding : Finding
  block : Option BlockId
  deriving DecidableEq

namespace Issue

/-- An issue that makes a document invalid. -/
def error (finding : Finding) (block : Option BlockId) : Issue := ⟨.error, finding, block⟩

/-- Whether the issue makes a document invalid. -/
def isError (i : Issue) : Bool := i.severity == .error

/-- What tells issues apart when two inspections are compared. -/
def key (i : Issue) : String × Option BlockId := (i.finding.code, i.block)

/-- The issue on one line. -/
def text (i : Issue) : String :=
  i.severity.name ++ " " ++ i.finding.code ++ ": " ++ i.finding.message ++
    match i.block with
    | some id => s!" ({id})"
    | none => ""

end Issue

namespace Limits

/-- The issue of a number of blocks. -/
def blockCountIssue (l : Limits) (count : Nat) : Option Issue :=
  (exceeded? l.blocks count).map fun bound => .error (.tooManyBlocks count bound) none

/-- The issue of a block at a depth. -/
def depthIssue (l : Limits) (depth : Nat) (id : BlockId) : Option Issue :=
  (exceeded? l.depth depth).map fun bound => .error (.tooDeep depth bound) (some id)

/-- The issue of a block with a content of some bytes. -/
def blockSizeIssue (l : Limits) (size : Nat) (id : BlockId) : Option Issue :=
  (exceeded? l.blockSize size).map fun bound => .error (.blockTooLarge size bound) (some id)

/-- The issue of contents of some bytes in all. -/
def documentSizeIssue (l : Limits) (size : Nat) : Option Issue :=
  (exceeded? l.documentSize size).map fun bound => .error (.documentTooLarge size bound) none

/-- The issue of a block with a number of edges. -/
def edgeCountIssue (l : Limits) (count : Nat) (id : BlockId) : Option Issue :=
  (exceeded? l.edges count).map fun bound => .error (.tooManyEdges count bound) (some id)

end Limits

end BlockDocument
