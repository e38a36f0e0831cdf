/-!
# Tokens

The words and marks of a program in the command language, each with the line on which it starts, and
the faults that a program can have.
-/

namespace BlockDocument.Command

/-- The kind of a token. -/
inductive TokenKind where
  | word
  /-- A text between quotes. -/
  | quoted
  /-- A text without quotes, up to the end of its command. -/
  | raw
  | doubleColon
  | equals
  | plusEquals
  | minusEquals
  | comma
  | semicolon
  | openBrace
  | closeBrace
  | newline
  deriving DecidableEq, Repr

/-- What a kind of token is called. -/
def TokenKind.name : TokenKind → String
  | word => "word"
  | quoted => "string literal"
  | raw => "content"
  | doubleColon => "'::'"
  | equals => "'='"
  | plusEquals => "'+='"
  | minusEquals => "'-='"
  | comma => "','"
  | semicolon => "';'"
  | openBrace => "'\x7b'"
  | closeBrace => "'\x7d'"
  | newline => "end of line"

/-- A word or mark of a program. -/
structure Token where
  kind : TokenKind
  /-- The word, the text that a quoted one stands for, the raw text, or the mark itself. -/
  text : String
  /-- The line, counted from one. -/
  line : Nat
  deriving DecidableEq, Repr

/-- A token, or the end of the program, as a message names it. -/
def describeToken : Option Token → String
  | none => "end of input"
  | some t => if t.kind = .word then "'" ++ t.text ++ "'" else t.kind.name

/-- What can be wrong with a program. -/
inductive Fault where
  | sourceTooLong (bytes bound : Nat)
  | unexpectedCharacter (c : Char)
  | openString
  | unknownEscape (c : Char)
  | expected (kind : TokenKind) (found : Option Token)
  | expectedSet
  | expectedOperator
  | expectedContent
  | expectedDirection (found : String)
  | unknownCommand (word : String)
  | unknownKind (word : String)
  | unknownRelation (word : String)
  | unknownPruneTarget (word : String)
  | invalidId (word : String)
  | invalidIndex (word : String)
  | unexpectedToken (text : String)
  | openGroup
  | nestedGroup
  | tooManyCommands (bound : Nat)
  | unknownShortId (n : Nat)
  deriving DecidableEq

/-- A fault in words. -/
def Fault.message : Fault → String
  | sourceTooLong bytes bound => s!"source is {bytes} bytes, limit is {bound}"
  | unexpectedCharacter c => s!"unexpected character '{c}'"
  | openString => "unterminated string literal"
  | unknownEscape c => "unknown escape '\\" ++ c.toString ++ "'"
  | expected kind found => "expected " ++ kind.name ++ ", found " ++ describeToken found
  | expectedSet => "expected SET"
  | expectedOperator => "expected '=', '+=' or '-='"
  | expectedContent => "expected content after '::'"
  | expectedDirection found => s!"expected TO, BEFORE or AFTER, found '{found}'"
  | unknownCommand word => s!"unknown command '{word}'"
  | unknownKind word => s!"unknown content type '{word}'"
  | unknownRelation word => s!"unknown edge type '{word}'"
  | unknownPruneTarget word => s!"unknown prune target '{word}'"
  | invalidId word => s!"invalid block id '{word}'"
  | invalidIndex word => s!"invalid index '{word}'"
  | unexpectedToken text => s!"unexpected '{text}' after command"
  | openGroup => "unclosed ATOMIC block"
  | nestedGroup => "ATOMIC blocks cannot be nested"
  | tooManyCommands bound => s!"program exceeds {bound} commands"
  | unknownShortId n => s!"unknown short id {n}"

end BlockDocument.Command
