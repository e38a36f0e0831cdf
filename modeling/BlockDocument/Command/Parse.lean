import BlockDocument.Command.Basic
import BlockDocument.Command.Scan
import BlockDocument.Failure

/-!
# Reading programs

Builds the batches of a program from its tokens. Reading is all or nothing: the first fault refuses
the whole text, and it is reported for the line of the token at which reading stands.
-/

namespace BlockDocument

namespace Command

-- Powers are those of the core library, whatever else is imported.
attribute [local instance (high)] instPowNat

/-- A reader of commands. What it has not read yet is the list of tokens. -/
abbrev Reader (α : Type) := EStateM Fault (List Token) α

namespace Reader

/-- The next token, if there is one. -/
def peek : Reader (Option Token) := List.head? <$> get

/-- Goes past the next token. -/
def advance : Reader Unit := modify List.tail

/-- Whether a token is of a kind. -/
def isKind (kind : TokenKind) (t : Option Token) : Bool := t.any (·.kind == kind)

/-- Whether a token is a word, in any case. -/
def isKeyword (keyword : String) (t : Option Token) : Bool :=
  t.any fun t => t.kind == .word && Text.sameName t.text keyword

/-- Goes past a keyword, if it comes next. -/
def accept (keyword : String) : Reader Bool := do
  if isKeyword keyword (← peek) then
    advance
    pure true
  else pure false

/-- Goes past a token of a kind, which has to come next, and returns its text. -/
def expect (kind : TokenKind) : Reader String := do
  match ← peek with
  | some t =>
    if t.kind = kind then
      advance
      pure t.text
    else throw (.expected kind (some t))
  | none => throw (.expected kind none)

/-- A value that has to be there. -/
def orFault {α : Type} (fault : Fault) : Option α → Reader α
  | some a => pure a
  | none => throw fault

/-- Reads a reference to a block. -/
def reference : Reader Reference := do
  let word ← expect .word
  orFault (.invalidId word) (Reference.ofWord? word.toList)

/-- Reads the name of a relation. -/
def relation : Reader Relation := do
  let word ← expect .word
  orFault (.unknownRelation word) (Relation.parse? word)

/-- Positions stay below this. -/
def positionBound : Nat := 2 ^ (64 : Nat)

/-- The position that a word denotes: digits, which may follow a plus sign. -/
def positionOf? (word : List Char) : Option Nat :=
  let ds := match word with
    | '+' :: ds => ds
    | ds => ds
  if !ds.isEmpty && ds.all Char.isDigit then Number.below? positionBound ds else none

/-- Reads a position among children after its keyword, if the keyword comes next. -/
def position? (keyword : String) : Reader (Option Nat) := do
  if ← accept keyword then
    let word ← expect .word
    some <$> orFault (.invalidIndex word) (positionOf? word.toList)
  else pure none

/-- Reads the value of a property: a quoted text, or a word that is taken as a literal. -/
def propertyValue : Reader Attribute := do
  if isKind .quoted (← peek) then .text <$> expect .quoted
  else .ofLiteral <$> expect .word

/-- Reads properties, separated by commas, and adds them to the ones read before. -/
def propertiesFrom : Nat → Attributes → Reader Attributes
  | 0, read => pure read
  | fuel + 1, read => do
    let key ← expect .word
    let _ ← expect .equals
    let value ← propertyValue
    let read := read.insert key value
    if isKind .comma (← peek) then
      advance
      propertiesFrom fuel read
    else pure read

/-- Reads the properties after the keyword `WITH`, if it comes next. -/
def properties : Reader Attributes := do
  if ← accept "WITH" then propertiesFrom ((← get).length + 1) ∅ else pure ∅

/-- Reads the operator of an edit. -/
def assignment : Reader Assignment := do
  let op ← match (← peek).map Token.kind with
    | some .equals => pure .set
    | some .plusEquals => pure .add
    | some .minusEquals => pure .remove
    | _ => throw .expectedOperator
  advance
  pure op

/-- Reads what an edit sets, and how. Without a path it sets the text. -/
def target : Reader (String × Assignment) := do
  match (← peek).map Token.kind with
  | some .quoted => pure ("text", .set)
  | some .equals =>
    advance
    pure ("text", .set)
  | _ =>
    let path ← expect .word
    let op ← assignment
    pure (path, op)

/-- Reads an edit after its keyword. -/
def edit : Reader Command := do
  let id ← reference
  if !(← accept "SET") then throw .expectedSet
  let (path, op) ← target
  let value ← expect .quoted
  pure (.edit id path op value)

/-- Reads the kind of a content, if one stands before the position. -/
def kind? : Reader (Option ContentKind) := do
  let next ← peek
  if isKind .word next && !isKeyword "AT" next then
    let word ← expect .word
    some <$> orFault (.unknownKind word) (ContentKind.parse? word)
  else pure none

/-- Reads an addition after its keyword. Properties only follow a quoted content. -/
def append : Reader Command := do
  let parent ← reference
  let kind ← kind?
  let position ← position? "AT"
  let _ ← expect .doubleColon
  match (← peek).map Token.kind with
  | some .quoted =>
    let content ← expect .quoted
    pure (.append parent kind position content (← properties))
  | some .raw => pure (.append parent kind position (← expect .raw) ∅)
  | _ => throw .expectedContent

/-- Reads a deletion after its keyword. -/
def delete : Reader Command := do
  let id ← reference
  if ← accept "CASCADE" then pure (.delete id .deleted)
  else if ← accept "PRESERVE_CHILDREN" then pure (.delete id .kept)
  else pure (.delete id .none)

/-- Reads a place. -/
def place : Reader (Place Reference) := do
  let direction := Text.upper (← expect .word)
  match direction with
  | "TO" =>
    let parent ← reference
    .under parent <$> position? "INDEX"
  | "BEFORE" => .before <$> reference
  | "AFTER" => .after <$> reference
  | _ => throw (.expectedDirection direction)

/-- Reads a move after its keyword. -/
def move : Reader Command := do
  let id ← reference
  .move id <$> place

/-- Reads an edge that is to be added, after its keyword. -/
def link : Reader Command := do
  let source ← reference
  let relation ← relation
  let target ← reference
  .link source relation target <$> properties

/-- Reads an edge that is to be removed, after its keyword. -/
def unlink : Reader Command := do
  let source ← reference
  let relation ← relation
  .unlink source relation <$> reference

/-- Reads what is pruned, after the keyword. -/
def prune : Reader Command := do
  let word ← expect .word
  if Text.sameName word "unreachable" then pure .prune else throw (.unknownPruneTarget word)

/-- Reads one command. -/
def command : Reader Command := do
  let keyword := Text.upper (← expect .word)
  match keyword with
  | "EDIT" => edit
  | "APPEND" => append
  | "DELETE" => delete
  | "MOVE" => move
  | "LINK" => link
  | "UNLINK" => unlink
  | "PRUNE" => prune
  | _ => throw (.unknownCommand keyword)

/-- Whether a token separates batches. -/
def isSeparator (t : Token) : Bool := t.kind == .newline || t.kind == .semicolon

/-- Goes past separators. -/
def skipSeparators : Reader Unit := modify (·.dropWhile isSeparator)

/-- Asks that a command ends here. Inside a group a closing brace ends it too. -/
def expectEnd (grouped : Bool) : Reader Unit := do
  match ← peek with
  | none => pure ()
  | some t =>
    if isSeparator t || (grouped && t.kind == .closeBrace) then pure ()
    else throw (.unexpectedToken t.text)

/-- Reads a command and the separator or brace behind it. -/
def statement (grouped : Bool) (line : Nat) : Reader Statement := do
  let command ← command
  expectEnd grouped
  pure ⟨line, command⟩

/-- Reads the members of a group up to its closing brace. Those read so far are kept last first. -/
def members : Nat → List Statement → Reader (List Statement)
  | 0, read => pure read.reverse
  | fuel + 1, read => do
    skipSeparators
    match ← peek with
    | none => throw .openGroup
    | some t =>
      if t.kind = .closeBrace then
        advance
        pure read.reverse
      else if isKeyword "ATOMIC" (some t) then throw .nestedGroup
      else
        let s ← statement true t.line
        members fuel (s :: read)

/-- Reads a group after its keyword. -/
def group (line : Nat) : Reader Batch := do
  let _ ← expect .openBrace
  let read ← members ((← get).length + 1) []
  expectEnd false
  pure (.atomic line read)

/-- Reads batches up to the end. Those read so far are kept last first. -/
def batches : Nat → List Batch → Reader Program
  | 0, read => pure read.reverse
  | fuel + 1, read => do
    skipSeparators
    match ← peek with
    | none => pure read.reverse
    | some t =>
      if isKeyword "ATOMIC" (some t) then
        advance
        let b ← group t.line
        batches fuel (b :: read)
      else
        let s ← statement false t.line
        batches fuel (.single s :: read)

end Reader

/-- The batches of a list of tokens. A fault comes with its line. -/
def Tokens.program (t : Tokens) : Except (Nat × Fault) Program :=
  match Reader.batches (t.tokens.length + 1) [] t.tokens with
  | .ok p _ => .ok p
  | .error fault rest => .error ((rest.head?.map Token.line).getD t.lastLine, fault)

/-- The bytes that the text of a program may have. -/
def sourceBound : Nat := 1024 * 1024

/-- A fault as the failure of a text, with the line where it is. -/
def Fault.failure (source : List Char) (line : Nat) (fault : Fault) : Failure :=
  .malformed line (fragment source line) fault

/-- A result whose fault is put before the text. -/
def located {α : Type} (source : List Char) : Except (Nat × Fault) α → Except Failure α
  | .ok a => .ok a
  | .error (line, fault) => .error (fault.failure source line)

/-- The tokens of a text, or its failure. -/
def tokens (source : List Char) : Except Failure Tokens := located source (scan source)

end Command

/-- The program that a text is. -/
def Program.parse (source : String) : Except Failure Program :=
  if Command.sourceBound < source.utf8ByteSize then
    .error (.malformed 0 "" (.sourceTooLong source.utf8ByteSize Command.sourceBound))
  else do
    let cs := source.toList
    let t ← Command.tokens cs
    Command.located cs t.program

end BlockDocument
