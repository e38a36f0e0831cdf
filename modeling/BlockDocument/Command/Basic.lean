import BlockDocument.Attribute
import BlockDocument.BlockId
import BlockDocument.Content
import BlockDocument.Place
import BlockDocument.Relation

/-!
# Commands

The commands of the command language. A program is a list of batches: a batch is one command or a
group of commands that apply together or not at all. Groups hold commands only, so they never nest.
-/

namespace BlockDocument

-- Powers and sums are those of the core library, whatever else is imported.
attribute [local instance (high)] instPowNat Zero.ofOfNat0

/-- A block as a command names it: by a short number or by its id. -/
inductive Reference where
  | short (n : Nat)
  | long (text : String)
  deriving DecidableEq, Repr

/-- Short numbers stay below this. -/
def Reference.bound : Nat := 2 ^ (32 : Nat)

namespace Reference

/-- The characters of a reference. -/
def isIdChar (c : Char) : Bool := c.isAlphanum || c == '_'

/-- The reference that a word is. A word of digits only is a short number. -/
def ofWord? (word : List Char) : Option Reference :=
  if word.isEmpty || !word.all isIdChar then none
  else if word.all Char.isDigit then (Number.below? bound word).map short
  else some (long (String.ofList word))

/-- The reference as text. -/
def text : Reference → List Char
  | short n => Number.digits n
  | long text => text.toList

end Reference

/-- What an edit does with the value that it names. -/
inductive Assignment where
  | set
  | add
  | remove
  deriving DecidableEq, Repr

/-- The mark of an assignment. -/
def Assignment.mark : Assignment → String
  | set => "="
  | add => "+="
  | remove => "-="

/-- A command. -/
inductive Command where
  | edit (id : Reference) (path : String) (op : Assignment) (value : String)
  | append (parent : Reference) (kind : Option ContentKind) (position : Option Nat)
      (content : String) (properties : Attributes)
  | delete (id : Reference) (children : Fate)
  | move (id : Reference) (place : Place Reference)
  | link (source : Reference) (relation : Relation) (target : Reference) (properties : Attributes)
  | unlink (source : Reference) (relation : Relation) (target : Reference)
  | prune

/-- A command and the line on which it starts. -/
structure Statement where
  /-- Counted from one; zero for a command that was not read from a text. -/
  line : Nat
  command : Command

/-- One command, or several that apply together. -/
inductive Batch where
  | single (statement : Statement)
  | atomic (line : Nat) (members : List Statement)

namespace Batch

/-- The commands of a batch, in order. -/
def members : Batch → List Statement
  | single s => [s]
  | atomic _ members => members

/-- The line on which a batch starts. -/
def line : Batch → Nat
  | single s => s.line
  | atomic line _ => line

/-- The number of commands. -/
def size (b : Batch) : Nat := b.members.length

end Batch

/-- A list of batches. -/
abbrev Program := List Batch

/-- The number of commands of a program. -/
def Program.size (p : Program) : Nat := (p.map Batch.size).sum

end BlockDocument
