import BlockDocument.Command.Basic

/-!
# The text of commands

Every command has one canonical text. Values stand between quotes, with escapes for what could not
stand there.
-/

namespace BlockDocument

namespace Command

/-- A character as it is written between quotes. -/
def escapeChar : Char → List Char
  | '\n' => ['\\', 'n']
  | '\t' => ['\\', 't']
  | '\r' => ['\\', 'r']
  | '"' => ['\\', '"']
  | '\\' => ['\\', '\\']
  | c => [c]

/-- A text as it is written between quotes. -/
def escape (s : String) : List Char := s.toList.flatMap escapeChar

/-- A text between quotes. -/
def quoted (s : String) : List Char := '"' :: (escape s ++ ['"'])

end Command

/-- The literal of an attribute's value. Texts stand between quotes. -/
def Attribute.literal : Attribute → List Char
  | .text s => Command.quoted s
  | a => a.display.toList

namespace Command

/-- One property. -/
def propertyText (entry : String × Attribute) : List Char :=
  entry.1.toList ++ '=' :: entry.2.literal

/-- The properties at the end of a command, by name. There is nothing to write when there are none. -/
def propertiesText (properties : Attributes) : List Char :=
  if properties.isEmpty then []
  else " WITH ".toList ++ Text.join [',', ' '] (properties.toList.map propertyText)

/-- What a command says about the children of a block that it deletes. -/
def fateText : Fate → List Char
  | .none => []
  | .deleted => " CASCADE".toList
  | .kept => " PRESERVE_CHILDREN".toList

/-- Where a command moves a block. -/
def placeText : Place Reference → List Char
  | .under parent none => "TO ".toList ++ parent.text
  | .under parent (some position) =>
    "TO ".toList ++ parent.text ++ " INDEX ".toList ++ Number.digits position
  | .before anchor => "BEFORE ".toList ++ anchor.text
  | .after anchor => "AFTER ".toList ++ anchor.text

/-- The kind of content and the blank after it. -/
def kindText (kind : Option ContentKind) : List Char :=
  match kind with
  | some kind => kind.name.toList ++ [' ']
  | none => []

/-- The position among the children and the blank after it. -/
def positionText (position : Option Nat) : List Char :=
  match position with
  | some n => "AT ".toList ++ Number.digits n ++ [' ']
  | none => []

/-- The canonical text of a command. -/
def render : Command → List Char
  | edit id path op value =>
    "EDIT ".toList ++ id.text ++ " SET ".toList ++ path.toList ++ ' ' :: op.mark.toList ++
      ' ' :: quoted value
  | append parent kind position content properties =>
    "APPEND ".toList ++ parent.text ++ ' ' :: kindText kind ++ positionText position ++
      ":: ".toList ++ quoted content ++ propertiesText properties
  | delete id children => "DELETE ".toList ++ id.text ++ fateText children
  | move id place => "MOVE ".toList ++ id.text ++ ' ' :: placeText place
  | link source relation target properties =>
    "LINK ".toList ++ source.text ++ ' ' :: relation.name.toList ++ ' ' :: target.text ++
      propertiesText properties
  | unlink source relation target =>
    "UNLINK ".toList ++ source.text ++ ' ' :: relation.name.toList ++ ' ' :: target.text
  | prune => "PRUNE unreachable".toList

end Command

/-- The canonical text of a batch. The commands of a group stand on lines of their own. -/
def Batch.render : Batch → List Char
  | single s => s.command.render
  | atomic _ members =>
    "ATOMIC \x7b\n".toList ++
      (members.flatMap fun s => ' ' :: ' ' :: s.command.render ++ ['\n']) ++ ['\x7d']

/-- The canonical text of a program, one batch after the other. -/
def Program.render (p : Program) : List Char := Text.join ['\n'] (p.map Batch.render)

end BlockDocument
