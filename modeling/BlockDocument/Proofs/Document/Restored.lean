import BlockDocument.Proofs.Document.Forest

/-!
# Trees apart from blocks

Walks and depths read the tree of a document and which ids are blocks, never what the blocks hold. So
they are those of a forest wherever an inspection finds no error, even if blocks are stored under ids
that are not their own: `Document.restored` gives every block its own id and the children that the
tree lists for it, and no walk sees the difference.
-/

namespace BlockDocument.Document

open Std (ExtTreeMap)

/-- The document in which every block has the id under which it is stored, and the children that the
tree lists. -/
def restored (d : Document) : Document :=
  { d with blocks := d.blocks.map fun id b => { b with id, children := d.childrenOf id } }

variable {d : Document}

theorem block?_restored (id : BlockId) :
    d.restored.block? id =
      (d.block? id).map fun b => { b with id, children := d.childrenOf id } :=
  ExtTreeMap.getElem?_map

@[simp] theorem root_restored : d.restored.root = d.root := rfl

@[simp] theorem tree_restored : d.restored.tree = d.tree := rfl

@[simp] theorem childrenOf_restored (id : BlockId) : d.restored.childrenOf id = d.childrenOf id := rfl

@[simp] theorem contains_restored (id : BlockId) : d.restored.contains id = d.contains id :=
  ExtTreeMap.contains_map

@[simp] theorem size_restored : d.restored.size = d.size := ExtTreeMap.size_map

/-- An inspection that finds no error finds nothing that breaks the rules of a tree. -/
theorem treeIssues_eq_nil_of_errors {i : Inspector} (h : (i.inspect d).errors = []) :
    d.treeIssues = [] := by
  apply List.eq_nil_iff_forall_not_mem.mpr
  intro issue hissue
  have hmem : issue ∈ (i.inspect d).issues := by
    simp [Inspector.inspect, hissue]
  have herror : issue ∈ (i.inspect d).errors :=
    List.mem_filter.mpr ⟨hmem, isError_of_mem_treeIssues hissue⟩
  simp [h] at herror

/-- Where an inspection finds no error, the tree is that of a forest. -/
theorem isForest_restored {i : Inspector} (h : (i.inspect d).errors = []) : d.restored.IsForest := by
  have htree := treeIssues_eq_nil_of_errors h
  simp only [treeIssues, List.append_eq_nil_iff, rootIssues_eq_nil, absenceIssues_eq_nil,
    parentIssues_eq_nil, cycleIssues_eq_nil, nodup_listed_iff] at htree
  obtain ⟨⟨⟨⟨hroot, hparents, hchildren⟩, hunlisted, hnodup, hunique⟩, -⟩, hacyclic⟩ := htree
  have hblock (id : BlockId) (b : Block) (hb : d.restored.block? id = some b) :
      b.id = id ∧ b.children = d.childrenOf id := by
    rw [block?_restored, Option.map_eq_some_iff] at hb
    obtain ⟨b', -, rfl⟩ := hb
    exact ⟨rfl, rfl⟩
  constructor
  case stored => exact fun id b hb => (hblock id b hb).1
  case root_mem => simpa using hroot
  case parent_mem => simpa using hparents
  case child_mem => simpa using hchildren
  case root_unlisted => exact hunlisted
  case nodup => exact hnodup
  case parent_unique => exact hunique
  case lockstep => exact fun id b hb => (hblock id b hb).2
  case acyclic => exact hacyclic

/-- A root above two blocks, of which the first has a child, and an orphan. Each block of the tree is
stored under the id of another one. -/
def misfiled : Document :=
  let blocks : List (BlockId × Block) :=
    [(⟨"a"⟩, { id := ⟨"b"⟩, content := .text "", children := [⟨"d"⟩] }),
      (⟨"b"⟩, { id := ⟨"a"⟩, content := .text "", children := [⟨"b"⟩, ⟨"c"⟩] }),
      (⟨"c"⟩, { id := ⟨"d"⟩, content := .text "" }), (⟨"d"⟩, { id := ⟨"c"⟩, content := .text "" }),
      (⟨"e"⟩, { id := ⟨"e"⟩, content := .text "" })]
  let tree : List (BlockId × List BlockId) := [(⟨"a"⟩, [⟨"b"⟩, ⟨"c"⟩]), (⟨"b"⟩, [⟨"d"⟩])]
  .ofParts ⟨"a"⟩ (.ofList blocks) (.ofList tree) { policy := .sequential }

theorem errors_misfiled : (Inspector.inspect {} misfiled).errors = [] := by decide +kernel

end BlockDocument.Document
