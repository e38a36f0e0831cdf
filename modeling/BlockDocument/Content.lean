import BlockDocument.Json.Source
import BlockDocument.Json.Writer
import BlockDocument.Text.Blank
import BlockDocument.Text.Name

/-!
# Contents

What a block holds. Every content has a textual form, `Content.asText`, from which a content of its
kind is read back by `Content.ofText?`.
-/

namespace BlockDocument

/-- The kind of a content. -/
inductive ContentKind where
  | text
  | code
  | table
  | json
  | math
  deriving DecidableEq, Repr

namespace ContentKind

/-- Every kind. -/
def all : List ContentKind := [.text, .code, .table, .json, .math]

/-- The name of a kind. -/
def name : ContentKind → String
  | text => "text"
  | code => "code"
  | table => "table"
  | json => "json"
  | math => "math"

/-- The kind with a name, in any case. -/
def parse? (name : String) : Option ContentKind := all.find? fun k => Text.sameName k.name name

end ContentKind

/-- The content of a block. -/
inductive Content where
  | text (s : String)
  | code (language : String) (source : String)
  /-- Rows of cells. -/
  | table (rows : List (List String))
  | json (value : Json.Value)
  | math (expression : String)

/-- Characters to a token of a language model. -/
def charsPerToken : Nat := 4

/-- An estimate of the tokens of a text: one for every four characters, the last four begun counting
as whole. -/
def estimateTokens (s : String) : Nat := (s.length + (charsPerToken - 1)) / charsPerToken

/-- The cells of a line of a table: its blanks and bars at both ends do not count, and the bars
between divide it. -/
def tableRow (line : List Char) : List String :=
  let isBar : Char → Bool := (· == '|')
  let line := Text.dropEndWhile isBar ((Text.trim line).dropWhile isBar)
  (Text.splitAt '|' line).map fun cell => String.ofList (Text.trim cell)

/-- The rows of a table: one for every line that is not blank. -/
def tableRows (raw : List Char) : List (List String) :=
  ((Text.splitAt '\n' raw).filter fun line => !(Text.trim line).isEmpty).map tableRow

namespace Content

/-- The kind of a content. -/
def kind : Content → ContentKind
  | text _ => .text
  | code .. => .code
  | table _ => .table
  | json _ => .json
  | math _ => .math

/-- The content of a kind with the given textual form, where `language` is the language of code.
There is none when JSON is asked for and the text is none. -/
def ofText? (kind : ContentKind) (raw : String) (language : String) : Option Content :=
  match kind with
  | .text => some (text raw)
  | .code => some (code language raw)
  | .table => some (table (tableRows raw.toList))
  | .json => (Json.Value.parse? raw.toList).map json
  | .math => some (math raw)

/-- The language of code, and the empty text for any other content. -/
def language : Content → String
  | code language _ => language
  | _ => ""

/-- The textual form. -/
def asText : Content → String
  | text s => s
  | code _ source => source
  | table rows => "\n".intercalate (rows.map (" | ".intercalate ·))
  | json value => value.compactText
  | math expression => expression

/-- The content of the same kind, and of the same language, with another textual form. -/
def withText? (c : Content) (raw : String) : Option Content := ofText? c.kind raw c.language

/-- The bytes of the textual form. -/
def byteSize (c : Content) : Nat := c.asText.utf8ByteSize

/-- An estimate of the tokens of the textual form. -/
def tokens (c : Content) : Nat := estimateTokens c.asText

/-- Whether there is nothing in the content. -/
def isEmpty : Content → Bool
  | text s => s.isEmpty
  | code _ source => source.isEmpty
  | table rows => rows.isEmpty
  | json value => value.isNull
  | math expression => expression.isEmpty

/-- The text from which an excerpt is taken. -/
def excerptSource : Content → String
  | code language source => s!"```{language} {source}"
  | table rows => s!"table {rows.length}x{(rows.head?.map List.length).getD 0}"
  | c => c.asText

/-- The first characters of the content on one line. What is cut off is marked by three dots. -/
def excerpt (c : Content) (length : Nat) : String :=
  let line := Text.join [' '] (Text.words c.excerptSource.toList)
  if length < line.length then String.ofList (line.take length ++ ['.', '.', '.'])
  else String.ofList line

end Content

end BlockDocument
