import BlockDocument.Document.Annotation

/-!
# Fields

What an edit of a block can set: its text, one of its annotations, or one of its attributes. A path
names a field in either case of the letters from A to Z.
-/

namespace BlockDocument

/-- A part of a block that an edit can set. -/
inductive Field where
  | text
  | label
  | role
  | tags
  | language
  | attribute (name : String)
  deriving DecidableEq

/-- The rest of a path after a lower-case beginning, if it begins so in any case. -/
def afterStart? (start : List Char) (path : List Char) : Option (List Char) :=
  if (path.take start.length).map Char.toLower = start then some (path.drop start.length) else none

/-- The name of the attribute that a path leads to. -/
def attributeName? (path : List Char) : Option (List Char) :=
  ((afterStart? "metadata.custom.".toList path).or (afterStart? "custom.".toList path)).filter
    (!·.isEmpty)

namespace Field

/-- The field that a path other than that of an attribute names, in lower case. -/
def named? : String → Option Field
  | "text" | "content" => some .text
  | "label" | "metadata.label" => some .label
  | "role" | "metadata.role" | "metadata.semantic_role" => some .role
  | "tags" | "metadata.tags" => some .tags
  | "language" | "metadata.language" => some .language
  | _ => none

/-- The field that a path names. The name of an attribute keeps its case. -/
def parse? (path : String) : Option Field :=
  match attributeName? path.toList with
  | some name => some (.attribute (String.ofList name))
  | none => named? (Text.lower path)

/-- The field that a path names, which has to name one. -/
def read (path : String) : Except Failure Field :=
  match parse? path with
  | some f => .ok f
  | none => .error (.refused (.unknownPath path))

end Field

/-- The text without the blanks at its ends, if anything is left. -/
def nonBlank? (s : String) : Option String :=
  let cs := Text.trim s.toList
  if cs.isEmpty then none else some (String.ofList cs)

/-- The tags that a text lists, separated by commas. -/
def tagsOfText (s : String) : Std.ExtTreeSet String :=
  .ofList ((Text.splitAt ',' s.toList).filterMap fun piece => nonBlank? (String.ofList piece))

/-- The role with a name, which has to be the name of one. -/
def Role.read (name : String) : Except Failure Role :=
  match Role.parse? name with
  | some r => .ok r
  | none => .error (.refused (.unknownRole name))

/-- Accepts a change that raises no issue. -/
def requireNone (issues : List Issue) : Except Failure Unit :=
  if issues.isEmpty then .ok () else .error (.invalid issues)

/-- Sets a field of a block to what a text says. Blank texts clear the label and the role. -/
def Edit.setField (limits : Limits) (id : BlockId) (field : Field) (value : String) : Edit Unit := do
  let b ← Edit.require id
  match field with
  | .text =>
    let c ← ofExcept (b.content.reread value)
    ofExcept (requireNone (limits.blockSizeIssue c.byteSize id).toList)
    setContent id c
  | .language =>
    match b.content with
    | .code _ source => setContent id (.code value source)
    | c => throw (.refused (.notCode c.kind))
  | .label => setLabel id (nonBlank? value)
  | .role =>
    match nonBlank? value with
    | none => setRole id none
    | some name => setRole id (some (← ofExcept (Role.read name)))
  | .tags => annotate id fun m => { m with tags := tagsOfText value }
  | .attribute name => setAttribute id name (.text value)

end BlockDocument
