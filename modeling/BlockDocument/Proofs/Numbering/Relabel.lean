import Mathlib
import BlockDocument.Execution.Executor
import BlockDocument.Numbering.Replacement
import BlockDocument.Proofs.Numbering.Cut

/-!
# Programs with ids for numbers

A program in which every number of a block is replaced by its id asks for the same as the program
itself, though no number stands for a block then: it passes the same checks and does the same to a
document.
-/

namespace BlockDocument

/-! ## Relabelling -/

/-- A reference with the id of the block, if it was a number that stands for one. -/
def Reference.relabel (n : Numbering) : Reference → Reference
  | short k =>
    match n.long? k with
    | some id => long id.text
    | none => short k
  | long text => long text

/-- The place, said with ids for numbers. -/
def Place.relabel (n : Numbering) : Place Reference → Place Reference
  | under parent position => under (parent.relabel n) position
  | before anchor => before (anchor.relabel n)
  | after anchor => after (anchor.relabel n)

/-- The command with ids for numbers in its references. Nothing else of it changes. -/
def Command.relabel (n : Numbering) : Command → Command
  | edit id path op value => edit (id.relabel n) path op value
  | append parent kind position content properties =>
    append (parent.relabel n) kind position content properties
  | delete id children => delete (id.relabel n) children
  | move id place => move (id.relabel n) (place.relabel n)
  | link source relation target properties =>
    link (source.relabel n) relation (target.relabel n) properties
  | unlink source relation target => unlink (source.relabel n) relation (target.relabel n)
  | prune => prune

/-- The statement with ids for numbers. -/
def Statement.relabel (n : Numbering) (s : Statement) : Statement :=
  ⟨s.line, s.command.relabel n⟩

/-- The batch with ids for numbers. -/
def Batch.relabel (n : Numbering) : Batch → Batch
  | single s => single (s.relabel n)
  | atomic line members => atomic line (members.map (Statement.relabel n))

/-- The program with ids for numbers. -/
def Program.relabel (n : Numbering) (p : Program) : Program := p.map (Batch.relabel n)

variable {n : Numbering}

@[simp] theorem Place.reference_relabel (place : Place Reference) :
    (place.relabel n).reference = place.reference.relabel n := by
  cases place <;> rfl

@[simp] theorem Command.references_relabel (c : Command) :
    (c.relabel n).references = c.references.map (Reference.relabel n) := by
  cases c <;> simp [relabel, references]

@[simp] theorem Batch.members_relabel (b : Batch) :
    (b.relabel n).members = b.members.map (Statement.relabel n) := by
  cases b <;> rfl

@[simp] theorem Batch.size_relabel (b : Batch) : (b.relabel n).size = b.size := by
  simp [size]

@[simp] theorem Batch.line_relabel (b : Batch) : (b.relabel n).line = b.line := by
  cases b <;> rfl

theorem Program.statements_relabel (p : Program) :
    Program.statements (p.relabel n) = p.statements.map (Statement.relabel n) := by
  simp [statements, relabel, List.flatMap_map, List.map_flatMap]

/-! ## What relabelled commands ask for -/

theorem Reference.resolve_relabel (r : Reference) :
    (r.relabel n).resolve (fun _ => none) = r.resolve n.long? := by
  cases r with
  | long text => rfl
  | short k =>
    rw [relabel, resolve]
    cases n.long? k <;> rfl

theorem Reference.unknown?_relabel (r : Reference) :
    (r.relabel n).unknown? (fun _ => none) = r.unknown? n.long? := by
  cases r with
  | long text => rfl
  | short k =>
    rw [relabel, unknown?]
    cases n.long? k <;> rfl

theorem Place.resolve_relabel (place : Place Reference) :
    (place.relabel n).resolve (fun _ => none) = place.resolve n.long? := by
  cases place <;> simp only [relabel, resolve, Reference.resolve_relabel]

/-- A command asks for the same with ids for numbers. -/
theorem Command.mutation_relabel (c : Command) :
    (c.relabel n).mutation (fun _ => none) = c.mutation n.long? := by
  cases c <;> simp only [relabel, mutation, Reference.resolve_relabel, Place.resolve_relabel]

/-! ## Checks and runs -/

theorem Program.overrun?_relabel (bound before : Nat) (p : Program) :
    Program.overrun? bound before (p.relabel n) =
      (p.overrun? bound before).map (Batch.relabel n) := by
  induction p generalizing before with
  | nil => rfl
  | cons b rest ih =>
    rw [relabel, List.map_cons, overrun?, overrun?, Batch.size_relabel]
    split
    · rfl
    · exact ih _

theorem Program.unknownShort?_relabel (p : Program) :
    Program.unknownShort? (fun _ => none) (p.relabel n) = p.unknownShort? n.long? := by
  have hunknown : Reference.unknown? (fun _ => none) ∘ Reference.relabel n =
      Reference.unknown? n.long? := funext Reference.unknown?_relabel
  rw [unknownShort?, statements_relabel, ← List.map_reverse, List.findSome?_map, unknownShort?]
  congr 1
  funext s
  rw [Function.comp_apply, Statement.relabel, Command.references_relabel, List.findSome?_map,
    hunknown]

/-- **A program passes the same checks with ids for numbers.** -/
theorem Program.check_relabel (bound : Nat) (p : Program) :
    Program.check bound (fun _ => none) (p.relabel n) = p.check bound n.long? := by
  rw [check, check, overrun?_relabel, unknownShort?_relabel]
  cases p.overrun? bound 0 with
  | none => rfl
  | some b =>
    dsimp only [Option.map_some]
    rw [Batch.line_relabel]

namespace Executor

variable (e : Executor)

theorem step_relabel (known : List (String × Option BlockId)) (c : Command) :
    e.step (fun _ => none) known (c.relabel n) = e.step n.long? known c := by
  rw [step, step, Command.mutation_relabel]

theorem runMembers_relabel (known : List (String × Option BlockId)) (ms : List Statement)
    (d : Document) :
    e.runMembers (fun _ => none) known (ms.map (Statement.relabel n)) d =
      e.runMembers n.long? known ms d := by
  induction ms generalizing d with
  | nil => rfl
  | cons s rest ih =>
    rw [List.map_cons, runMembers, runMembers, Statement.relabel, step_relabel]
    cases e.step n.long? known s.command d with
    | error failure d => rfl
    | ok outcome d =>
      dsimp only
      rw [ih]

theorem runBatch_relabel (b : Batch) (d : Document) :
    e.runBatch (fun _ => none) (b.relabel n) d = e.runBatch n.long? b d := by
  rw [runBatch, Batch.members_relabel, runMembers_relabel, runBatch]

theorem runFrom_relabel (k : Nat) (p : Program) (x : Execution) (d : Document) :
    e.runFrom (fun _ => none) k (p.relabel n) x d = e.runFrom n.long? k p x d := by
  induction p generalizing k x d with
  | nil => rfl
  | cons b rest ih =>
    rw [Program.relabel, List.map_cons, runFrom, runFrom, runBatch_relabel, Batch.size_relabel]
    cases e.runBatch n.long? b d with
    | error failure => exact ih _ _ _
    | ok result => exact ih _ _ _

/-- **A program does the same with ids for numbers.** -/
theorem run_relabel (p : Program) (d : Document) :
    e.run (fun _ => none) (p.relabel n) d = e.run n.long? p d :=
  e.runFrom_relabel 0 p {} d

end Executor

/-! ## Commands in which only references change -/

/-- Whether a reference is the word `WITH`. -/
def Reference.isWith (r : Reference) : Bool := BlockDocument.isWith r.text

/-- The path of an edit. -/
def Command.path? : Command → Option String
  | edit _ path .. => some path
  | _ => none

/-- The paths of the edits of a program, in order. -/
def Program.paths (p : Program) : List String := p.statements.filterMap (·.command.path?)

theorem Program.paths_relabel (p : Program) : Program.paths (p.relabel n) = p.paths := by
  rw [paths, statements_relabel, List.filterMap_map, paths]
  congr 1
  funext s
  rw [Function.comp_apply, Statement.relabel]
  cases s.command <;> rfl

/-- A command in which only references change when ids are put for numbers: none of them is the word
`WITH`, and a path has no number of a block as a part. -/
structure Command.Expandable (n : Numbering) (c : Command) : Prop where
  references : ∀ r ∈ c.references, r.isWith = false
  path : ∀ path ∈ c.path?, n.expand path = path

instance (n : Numbering) (c : Command) : Decidable (c.Expandable n) :=
  decidable_of_iff ((∀ r ∈ c.references, r.isWith = false) ∧ ∀ path ∈ c.path?, n.expand path = path)
    ⟨fun h => ⟨h.1, h.2⟩, fun h => ⟨h.references, h.path⟩⟩

/-- A batch in which only references change when ids are put for numbers. -/
def Batch.Expandable (n : Numbering) (b : Batch) : Prop :=
  ∀ s ∈ b.members, s.command.Expandable n

instance (n : Numbering) (b : Batch) : Decidable (b.Expandable n) :=
  inferInstanceAs (Decidable (∀ s ∈ b.members, s.command.Expandable n))

/-- A program in which only references change when ids are put for numbers. -/
def Program.Expandable (n : Numbering) (p : Program) : Prop := ∀ b ∈ p, b.Expandable n

instance (n : Numbering) (p : Program) : Decidable (p.Expandable n) :=
  inferInstanceAs (Decidable (∀ b ∈ p, b.Expandable n))

end BlockDocument
