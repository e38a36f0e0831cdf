import BlockDocument.Execution.Executor
import BlockDocument.Toml.Parse

/-!
# Settings

Settings choose limits, the way in which new blocks are named, how much an edge without a target
matters, and how many commands a program may have. Each of them has a default, and nothing unknown is
accepted.
-/

namespace BlockDocument

-- Powers are those of the core library, whatever else is imported.
attribute [local instance (high)] instPowNat

/-- What can be set. -/
structure Settings where
  limits : Limits := {}
  policy : Policy := .sequential
  /-- The severity of edges without a target. -/
  dangling : Severity := .warning
  maxCommands : Nat := 10000

namespace Settings

open Toml (Value)

/-- Numbers stay below this. -/
def numberBound : Nat := 2 ^ (64 : Nat)

/-- A natural number. -/
def number? : Value → Option Nat
  | .integer (.ofNat n) => if n < numberBound then some n else none
  | _ => none

/-- One of several names: as a text, or as the only key of a table, with nothing in it. -/
def named? {α : Type} (parse? : String → Option α) : Value → Option α
  | .string s => parse? s
  | .table [(key, .table [])] => parse? key
  | .table [(key, .array [])] => parse? key
  | _ => none

/-- The severity with exactly this name. -/
def severityOf? : String → Option Severity
  | "error" => some .error
  | "warning" => some .warning
  | "info" => some .info
  | _ => none

/-- The settings of a group by name: a table without unknown names, or an array of the first of
them. -/
def group? (names : List String) : Value → Option (List (String × Value))
  | .table entries => if entries.all fun e => names.contains e.1 then some entries else none
  | .array items => some (names.zip items)
  | _ => none

/-- A setting of a group, which has a value when it is absent. -/
def setting {α : Type} (group : List (String × Value)) (name : String) (value : α)
    (decode : Value → Option α) : Option α :=
  match group.lookup name with
  | some v => decode v
  | none => some value

/-- The limits. -/
def limits? (v : Value) : Option Limits := do
  let group ← group? ["max_block_count", "max_depth", "max_block_size", "max_document_size",
    "max_edges_per_block"] v
  let bound (name : String) : Option (Option Nat) := setting group name none fun v =>
    (number? v).map some
  pure
    { blocks := ← bound "max_block_count"
      depth := ← bound "max_depth"
      blockSize := ← bound "max_block_size"
      documentSize := ← bound "max_document_size"
      edges := ← bound "max_edges_per_block" }

/-- A group with one setting. -/
def single {α : Type} (name : String) (value : α) (decode : Value → Option α) (v : Value) :
    Option α := do
  setting (← group? [name] v) name value decode

/-- The settings that a table holds. -/
def ofTable? (entries : List (String × Value)) : Option Settings := do
  let group ← group? ["limits", "addressing", "validation", "executor"] (.table entries)
  let limits ← setting group "limits" {} limits?
  let policy ← setting group "addressing" .sequential
    (single "policy" .sequential (named? Policy.parse?))
  let dangling ← setting group "validation" .warning
    (single "dangling_edge_severity" .warning (named? severityOf?))
  let maxCommands ← setting group "executor" 10000 (single "max_commands" 10000 number?)
  pure { limits, policy, dangling, maxCommands }

/-- Accepts settings under which edges without a target are no errors and programs have room for a
command. -/
def check (s : Settings) : Except SettingsFault Settings :=
  if s.dangling = .error then .error .danglingSeverity
  else if s.maxCommands = 0 then .error .noCommands
  else .ok s

/-- The settings that a text asks for. -/
def parse (text : String) : Except Failure Settings :=
  match (Toml.parse? text.toList).bind ofTable? with
  | none => .error (.misconfigured .unreadable)
  | some s =>
    match s.check with
    | .ok s => .ok s
    | .error fault => .error (.misconfigured fault)

/-- A new document. -/
def document (s : Settings) : Document := .create { policy := s.policy }

/-- The inspector. -/
def inspector (s : Settings) : Inspector := ({ limits := s.limits } : Inspector).withDangling s.dangling

/-- The executor. -/
def executor (s : Settings) : Executor := { inspector := s.inspector, maxCommands := s.maxCommands }

end Settings

end BlockDocument
