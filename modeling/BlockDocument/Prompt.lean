import BlockDocument.BlockId
import BlockDocument.Failure
import BlockDocument.Text.Blank

/-!
# Prompts

Texts that teach a language model the part of the command language that it may use.
-/

namespace BlockDocument

/-- A family of commands. -/
inductive Capability where
  | edit
  | append
  | move
  | delete
  | link
  | prune
  | atomic
  deriving DecidableEq, Repr

namespace Capability

/-- Every family, in the order of prompts. -/
def all : List Capability := [.edit, .append, .move, .delete, .link, .prune, .atomic]

/-- The name of a family. -/
def name : Capability → String
  | edit => "edit"
  | append => "append"
  | move => "move"
  | delete => "delete"
  | link => "link"
  | prune => "prune"
  | atomic => "atomic"

/-- The family with exactly this name. -/
def parse? (s : String) : Option Capability := all.find? (·.name == s)

/-- The lines that describe the commands of a family. -/
def grammar : Capability → List String
  | edit =>
    ["EDIT <id> SET <path> = \"<value>\"   (paths: text, label, role, tags, language, custom.<key>)",
     "EDIT <id> SET tags += \"<tag>\"  |  EDIT <id> SET tags -= \"<tag>\""]
  | append =>
    ["APPEND <parent_id> [<type>] [AT <n>] :: \"<content>\" [WITH key=value, ...]   " ++
      "(types: text, code, table, json, math)"]
  | move =>
    ["MOVE <id> TO <parent_id> [INDEX <n>]",
     "MOVE <id> BEFORE <anchor_id>",
     "MOVE <id> AFTER <anchor_id>"]
  | delete =>
    ["DELETE <id> [CASCADE | PRESERVE_CHILDREN]   (blocks with children need one of them)"]
  | link =>
    ["LINK <source_id> <edge_type> <target_id> [WITH confidence=<0..1>, description=\"<text>\"]",
     "UNLINK <source_id> <edge_type> <target_id>"]
  | prune => ["PRUNE unreachable"]
  | atomic => ["ATOMIC \x7b <command>; <command> \x7d   (all commands apply, or none do)"]

/-- A command of the family, where `id` names the blocks. -/
def sample (id : Nat → String) : Capability → String
  | edit => "EDIT " ++ id 2 ++ " SET text = \"Revised opening sentence.\""
  | append => "APPEND " ++ id 1 ++ " :: \"A new closing paragraph.\" WITH role=paragraph"
  | move => "MOVE " ++ id 3 ++ " AFTER " ++ id 4
  | delete => "DELETE " ++ id 5 ++ " CASCADE"
  | link => "LINK " ++ id 3 ++ " supports " ++ id 2 ++ " WITH confidence=0.9"
  | prune => "PRUNE unreachable"
  | atomic =>
    "ATOMIC \x7b EDIT " ++ id 4 ++ " SET label = \"Summary\"; MOVE " ++ id 4 ++ " TO " ++ id 1 ++
      " INDEX 0 \x7d"

end Capability

/-- The form in which an answer is asked for. -/
inductive AnswerForm where
  /-- Commands, one a line. -/
  | commands
  /-- An array of commands. -/
  | json
  deriving DecidableEq, Repr

namespace AnswerForm

/-- The form with a name. -/
def parse? : String → Option AnswerForm
  | "ucl" => some commands
  | "json" => some json
  | _ => none

/-- The sentence that asks for a form. -/
def instruction : AnswerForm → String
  | commands => "Respond with UCL commands only."
  | json =>
    "Respond with a JSON array of strings, one UCL command per element, and nothing else."

end AnswerForm

/-- What a prompt is made of. -/
structure Prompt where
  /-- Which families may be used. -/
  allows : Capability → Bool := fun _ => false
  shortIds : Bool := false
  rules : List String := []
  /-- A text before everything else. -/
  systemContext : Option String := none
  /-- A text before the task. -/
  taskContext : Option String := none
  /-- Whether each family comes with an example. -/
  examples : Bool := false
  answerForm : AnswerForm := .commands

namespace Prompt

/-- The families that may be used, in order. -/
def capabilities (p : Prompt) : List Capability := Capability.all.filter p.allows

/-- Allows or forbids a family. -/
def setCapability (p : Prompt) (c : Capability) (allowed : Bool) : Prompt :=
  { p with allows := fun c' => if c' = c then allowed else p.allows c' }

/-- A prompt that allows the given families. -/
def ofCapabilities (cs : List Capability) : Prompt := { allows := fun c => cs.contains c }

/-- A prompt that allows everything. -/
def everything : Prompt := ofCapabilities Capability.all

/-- A prompt for changes to texts. -/
def basicEditing : Prompt := ofCapabilities [.edit, .append, .delete]

/-- A prompt for changes to the tree and to edges. -/
def structureManipulation : Prompt := ofCapabilities [.move, .link]

/-- A prompt that allows everything but groups. -/
def fullEditing : Prompt := everything.setCapability .atomic false

/-- A prompt for changes to texts with few tokens. -/
def tokenEfficient : Prompt :=
  { basicEditing with
    shortIds := true
    rules := ["Use short numeric ids only; never write full block ids."] }

/-- The prompt with a name. -/
def preset? : String → Option Prompt
  | "all" => some everything
  | "basic_editing" => some basicEditing
  | "structure_manipulation" => some structureManipulation
  | "full_editing" => some fullEditing
  | "token_efficient" => some tokenEfficient
  | _ => none

/-- A paragraph of its own, if there is one. -/
def paragraph : Option String → String
  | some s => s ++ "\n\n"
  | none => ""

/-- A heading with lines under it. -/
def passage (heading : String) (lines : List String) : String :=
  "## " ++ heading ++ "\n" ++ String.join (lines.map (· ++ "\n"))

/-- What is written between quotes, and how. -/
def valueLines : List String :=
  ["- Quote string values with double quotes.",
   "- Escape newlines as \\n, quotes as \\\" and backslashes as \\\\.",
   "- Lines starting with // are comments."]

/-- How blocks are named. -/
def idLines : List String :=
  ["- Blocks are referenced by the short numbers shown in the document structure, e.g. " ++
    "`EDIT 3 SET text = \"...\"`."]

/-- How an example names a block. -/
def exampleId (p : Prompt) (n : Nat) : String :=
  if p.shortIds then toString n else (BlockId.ofSuffix n).text

/-- The prompt without a task. It has to allow something. -/
def system (p : Prompt) : Except Failure String :=
  if p.capabilities.isEmpty then .error (.refused .noCapability)
  else
    .ok <|
      paragraph p.systemContext ++
      "You edit a structured document by emitting UCL commands, one per line.\n\n" ++
      passage "Commands" ((p.capabilities.flatMap Capability.grammar).map ("- " ++ ·)) ++
      "\n" ++ passage "Values" valueLines ++
      (if p.shortIds then "\n" ++ passage "Block ids" idLines else "") ++
      (if p.examples then
        "\n" ++ passage "Examples" (p.capabilities.map fun c =>
          "Example: " ++ c.sample p.exampleId)
      else "") ++
      (if p.rules.isEmpty then "" else "\n" ++ passage "Rules" (p.rules.map ("- " ++ ·))) ++
      "\n" ++ p.answerForm.instruction

/-- The prompt with the description of a document and a task. -/
def withTask (p : Prompt) (description task : String) : Except Failure String :=
  p.system.map fun system =>
    system ++ "\n\n" ++ String.ofList (Text.trimEnd description.toList) ++ "\n\n" ++
      paragraph p.taskContext ++ "## Task\n" ++ task

end Prompt

end BlockDocument
