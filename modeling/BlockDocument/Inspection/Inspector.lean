import BlockDocument.Document.Walk
import BlockDocument.Inspection.Cycle
import BlockDocument.Inspection.Level
import BlockDocument.Inspection.Report

/-!
# Inspection of documents

An inspector reads a document and reports what breaks the rules of a tree or exceeds a limit. It
changes nothing, and every check stands on its own.
-/

namespace BlockDocument

-- Sums start at the zero of the core library, whatever else is imported.
attribute [local instance (high)] Zero.ofOfNat0

/-- How often each id occurs in a list. -/
def tally (ids : List BlockId) : Std.ExtTreeMap BlockId Nat :=
  ids.foldl (fun counts id => counts.insert id (counts.getD id 0 + 1)) ∅

namespace Document

/-- Whether the root is a block. -/
def rootIssues (d : Document) : List Issue :=
  if d.contains d.root then [] else [.error (.rootMissing d.root) (some d.root)]

/-- Parents and children of the tree that are no blocks. -/
def absenceIssues (d : Document) : List Issue :=
  d.tree.toList.flatMap fun (parent, children) =>
    (if d.contains parent then [] else [.error (.parentMissing parent) (some parent)]) ++
      (children.filter fun c => !d.contains c).map fun c =>
        .error (.childMissing parent c) (some c)

/-- Every listed child, as often as it is listed. -/
def listed (d : Document) : List BlockId := d.tree.values.flatten

/-- What is wrong with a child that is listed a number of times. -/
def parentIssue? (d : Document) (child : BlockId) (times : Nat) : Option Issue :=
  if child = d.root then some (.error .rootListed (some child))
  else if 1 < times then some (.error (.manyParents times) (some child))
  else none

/-- Children that are listed too often. -/
def parentIssues (d : Document) : List Issue :=
  (tally d.listed).toList.filterMap fun (child, times) => d.parentIssue? child times

/-- Blocks with other children than the tree lists for them. -/
def childrenIssues (d : Document) : List Issue :=
  (d.blocks.values.filter fun b => b.children != d.childrenOf b.id).map fun b =>
    .error .childrenDiffer (some b.id)

/-- Cycles of the tree. -/
def cycleIssues (d : Document) : List Issue :=
  d.cycleEntries.map fun id => .error .cycle (some id)

/-- Everything that breaks the rules of a tree. -/
def treeIssues (d : Document) : List Issue :=
  d.rootIssues ++ d.absenceIssues ++ d.parentIssues ++ d.childrenIssues ++ d.cycleIssues

/-- Blocks that have no level. -/
def orphanIssues (d : Document) : List Issue :=
  let levels := d.levels
  (d.blocks.keys.filter fun id => !levels.contains id).map fun id => ⟨.warning, .orphan, some id⟩

/-- Edges that lead to something that is no block. -/
def danglingIssues (d : Document) (severity : Severity) : List Issue :=
  d.blocks.values.flatMap fun b =>
    (b.edges.filter fun e => !d.contains e.target).map fun e =>
      ⟨severity, .dangling e.relation e.target, some b.id⟩

/-- The bytes of all contents. -/
def byteSize (d : Document) : Nat := (d.blocks.values.map fun b => b.content.byteSize).sum

end Document

namespace Limits

/-- The issues of one block. -/
def blockIssues (l : Limits) (b : Block) : List Issue :=
  (l.blockSizeIssue b.content.byteSize b.id).toList ++ (l.edgeCountIssue b.edges.length b.id).toList

/-- The issues of a document. -/
def issues (l : Limits) (d : Document) : List Issue :=
  (l.blockCountIssue d.size).toList ++
    (d.deepest?.bind fun (id, level) => l.depthIssue level id).toList ++
    d.blocks.values.flatMap l.blockIssues ++
    (l.documentSizeIssue d.byteSize).toList

end Limits

/-- What is asked of a document, and how much an edge without a target matters. -/
structure Inspector where
  limits : Limits := {}
  /-- The severity of edges without a target. -/
  dangling : Severity := .warning
  /-- Edges without a target never make a document invalid. -/
  dangling_ne_error : dangling ≠ .error := by exact Severity.warning_ne_error

namespace Inspector

/-- The inspector with a severity for edges without a target. Where an error is asked for, they are
warnings. -/
def withDangling (i : Inspector) (severity : Severity) : Inspector :=
  if h : severity = .error then
    { i with dangling := .warning, dangling_ne_error := Severity.warning_ne_error }
  else { i with dangling := severity, dangling_ne_error := h }

/-- The report on a document. -/
def inspect (i : Inspector) (d : Document) : Report :=
  ⟨d.treeIssues ++ d.orphanIssues ++ d.danglingIssues i.dangling ++ i.limits.issues d⟩

end Inspector

end BlockDocument
