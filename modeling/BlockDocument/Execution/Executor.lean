import BlockDocument.Command.Mutation
import BlockDocument.Command.Parse
import BlockDocument.Inspection.Inspector

/-!
# Execution of programs

A program is read as a whole, its size and its short numbers are checked, and then its batches run
one after the other. A batch runs on a copy of the document: it takes effect as a whole when every
command of it applies and brings no new error, and not at all otherwise. Later batches run in either
case.
-/

namespace BlockDocument

/-- Why a batch did not take effect. -/
structure BatchFailure where
  /-- The number of the batch, counted from zero. -/
  batch : Nat
  /-- The line of the command that failed. -/
  line : Nat
  failure : Failure

/-- What became of a program. -/
structure Execution where
  /-- Whether every batch took effect. -/
  success : Bool := true
  /-- The commands of the batches that took effect. -/
  commandsApplied : Nat := 0
  /-- The batches that took effect. -/
  batchesApplied : Nat := 0
  /-- The batches that did not take effect. -/
  batchesFailed : Nat := 0
  /-- The blocks that they created, in order. -/
  created : List BlockId := []
  /-- What the failed batches failed for, in order. -/
  errors : List BatchFailure := []

namespace Program

/-- All commands of a program, in order. -/
def statements (p : Program) : List Statement := p.flatMap Batch.members

/-- The first batch that takes the number of commands beyond a bound. -/
def overrun? (bound : Nat) : Nat → Program → Option Batch
  | _, [] => none
  | before, b :: rest =>
    if bound < before + b.size then some b else overrun? bound (before + b.size) rest

/-- The last command with a short number that names no block, and the first such number in it. -/
def unknownShort? (resolver : Resolver) (p : Program) : Option (Nat × Nat) :=
  p.statements.reverse.findSome? fun s =>
    (s.command.references.findSome? (Reference.unknown? resolver)).map (s.line, ·)

/-- Checks the size of a program and its short numbers. A fault comes with its line. -/
def check (bound : Nat) (resolver : Resolver) (p : Program) : Except (Nat × Command.Fault) Unit :=
  match p.overrun? bound 0 with
  | some b => .error (b.line, .tooManyCommands bound)
  | none =>
    match p.unknownShort? resolver with
    | some (line, n) => .error (line, .unknownShortId n)
    | none => .ok ()

end Program

/-- What carries out programs: an inspector whose limits hold before and after each command, and a
bound on the number of commands. -/
structure Executor where
  inspector : Inspector := {}
  maxCommands : Nat := 10000

namespace Executor

/-- The errors that an inspection finds. -/
def errors (e : Executor) (d : Document) : List Issue := (e.inspector.inspect d).errors

/-- Carries out one command. It fails when it brings an error that is not among the known ones. -/
def step (e : Executor) (resolver : Resolver) (known : List (String × Option BlockId))
    (c : Command) : Edit Outcome := do
  let m ← ofExcept (c.mutation resolver)
  let outcome ← m.apply e.inspector.limits
  let introduced := (e.errors (← get)).filter fun i => i.key ∉ known
  ofExcept (requireNone introduced)
  pure outcome

/-- The block that an outcome reports as created. -/
def created? : Outcome → Option BlockId
  | .created id => some id
  | _ => none

/-- Carries out commands on a document. A failure comes with the line of its command. -/
def runMembers (e : Executor) (resolver : Resolver) (known : List (String × Option BlockId)) :
    List Statement → Document → Except (Nat × Failure) (List BlockId × Document)
  | [], d => .ok ([], d)
  | s :: rest, d =>
    match e.step resolver known s.command d with
    | .error failure _ => .error (s.line, failure)
    | .ok outcome d =>
      match runMembers e resolver known rest d with
      | .error failure => .error failure
      | .ok (ids, d) => .ok ((created? outcome).toList ++ ids, d)

/-- Carries out a batch. The errors of the document before it do not count against it. -/
def runBatch (e : Executor) (resolver : Resolver) (b : Batch) (d : Document) :
    Except (Nat × Failure) (List BlockId × Document) :=
  e.runMembers resolver ((e.errors d).map Issue.key) b.members d

/-- Goes on with a program whose next batch has the given number. -/
def runFrom (e : Executor) (resolver : Resolver) :
    Nat → Program → Execution → Document → Execution × Document
  | _, [], x, d => (x, d)
  | n, b :: rest, x, d =>
    match e.runBatch resolver b d with
    | .ok (ids, d) =>
      runFrom e resolver (n + 1) rest
        { x with
          commandsApplied := x.commandsApplied + b.size
          batchesApplied := x.batchesApplied + 1
          created := x.created ++ ids } d
    | .error (line, failure) =>
      runFrom e resolver (n + 1) rest
        { x with
          success := false
          batchesFailed := x.batchesFailed + 1
          errors := x.errors ++ [⟨n, line, failure⟩] } d

/-- Carries out a program that passed its checks. -/
def run (e : Executor) (resolver : Resolver) (p : Program) (d : Document) : Execution × Document :=
  e.runFrom resolver 0 p {} d

/-- Reads a program, checks it and carries it out. -/
def execute (e : Executor) (resolver : Resolver) (source : String) : Edit Execution := do
  let p ← ofExcept (Program.parse source)
  ofExcept (Command.located source.toList (p.check e.maxCommands resolver))
  modifyGet (e.run resolver p)

end Executor

end BlockDocument
