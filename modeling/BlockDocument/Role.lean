import BlockDocument.Text.Name

/-!
# Roles

The part that a block plays in its document.
-/

namespace BlockDocument

/-- The role of a block. -/
inductive Role where
  | heading1
  | heading2
  | heading3
  | heading4
  | heading5
  | heading6
  | paragraph
  | quote
  | list
  | code
  | table
  | equation
  | title
  | subtitle
  | abstractText
  | sectionBody
  | intro
  | body
  | conclusion
  | note
  | warning
  | tip
  | sidebar
  | callout
  | metadata
  | citation
  | footnote
  deriving DecidableEq, Repr

namespace Role

/-- Every role. -/
def all : List Role :=
  [.heading1, .heading2, .heading3, .heading4, .heading5, .heading6, .paragraph, .quote,
   .list, .code, .table, .equation, .title, .subtitle, .abstractText, .sectionBody, .intro,
   .body, .conclusion, .note, .warning, .tip, .sidebar, .callout, .metadata, .citation,
   .footnote]

/-- The name of a role. -/
def name : Role → String
  | heading1 => "heading1"
  | heading2 => "heading2"
  | heading3 => "heading3"
  | heading4 => "heading4"
  | heading5 => "heading5"
  | heading6 => "heading6"
  | paragraph => "paragraph"
  | quote => "quote"
  | list => "list"
  | code => "code"
  | table => "table"
  | equation => "equation"
  | title => "title"
  | subtitle => "subtitle"
  | abstractText => "abstract"
  | sectionBody => "section"
  | intro => "intro"
  | body => "body"
  | conclusion => "conclusion"
  | note => "note"
  | warning => "warning"
  | tip => "tip"
  | sidebar => "sidebar"
  | callout => "callout"
  | metadata => "metadata"
  | citation => "citation"
  | footnote => "footnote"

/-- The role with a name, in any case. -/
def parse? (name : String) : Option Role := all.find? fun r => Text.sameName r.name name

/-- The level of a heading. -/
def headingLevel? : Role → Option Nat
  | heading1 => some 1
  | heading2 => some 2
  | heading3 => some 3
  | heading4 => some 4
  | heading5 => some 5
  | heading6 => some 6
  | _ => none

end Role

end BlockDocument
