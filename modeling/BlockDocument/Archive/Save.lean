import BlockDocument.Archive.Body
import BlockDocument.Json.Writer
import BlockDocument.Time.Rfc3339

/-!
# Saving documents

Writes a document as a JSON text: the header of the format, then the body. Whatever has no time of its
own gets the time of saving.
-/

namespace BlockDocument.Archive

open BlockDocument.Json

/-- A text, or null. -/
def textOrNull : Option String → Value
  | some s => .string s
  | none => .null

/-- An id. -/
def idValue (id : BlockId) : Value := .string id.text

/-- The value of an attribute. -/
def attributeValue : Attribute → Value
  | .flag b => .bool b
  | .number x => .number (.double x)
  | .text s => .string s

/-- Attributes by name. -/
def attributesValue (a : Attributes) : Value :=
  .object (a.toList.map fun e => (e.1, attributeValue e.2))

/-- The time of a stamp, given the time of saving. -/
def stampValue (now : Time.Instant) (s : Stamp) : Value :=
  let time := match s with
    | .recorded time => time
    | .current => now
  .string (String.ofList time.text)

/-- A natural number. -/
def natValue (n : Nat) : Value := .number (.natural n)

/-- The parts of a content, by name. -/
def contentEntries : Content → List (String × Value)
  | .text s => [("text", .string s)]
  | .code language source => [("language", .string language), ("source", .string source)]
  | .table rows => [("rows", .array (rows.map fun row => .array (row.map .string)))]
  | .json v => [("value", v)]
  | .math expression => [("expression", .string expression)]

/-- A content with its kind. -/
def contentValue (c : Content) : Value :=
  .object (("type", .string c.kind.name) :: contentEntries c)

/-- The metadata of a block. -/
def metadataValue (now : Time.Instant) (m : Metadata) : Value :=
  .object
    [("semantic_role", textOrNull (m.role.map Role.name)),
     ("label", textOrNull m.label),
     ("tags", .array (m.tags.toList.map .string)),
     ("custom", attributesValue m.attributes),
     ("token_estimate", (m.tokenEstimate.map natValue).getD .null),
     ("created_at", stampValue now m.created),
     ("modified_at", stampValue now m.modified)]

/-- A block without its edges. -/
def blockValue (now : Time.Instant) (r : BlockRecord) : Value :=
  .object
    [("id", idValue r.id),
     ("content", contentValue r.content),
     ("metadata", metadataValue now r.metadata),
     ("children", .array (r.children.map idValue))]

/-- The note of an edge. -/
def noteValue (n : Note) : Value :=
  .object
    [("confidence", (n.confidence.map fun x => .number (.single x)).getD .null),
     ("description", textOrNull n.description),
     ("custom", attributesValue n.attributes)]

/-- An edge with the block that it leaves. A note that says nothing is left out. -/
def edgeValue (now : Time.Instant) (r : EdgeRecord) : Value :=
  .object
    ([("source", idValue r.source),
      ("edge_type", .string r.edge.relation.name),
      ("target", idValue r.edge.target)] ++
     (if r.edge.note.isEmpty then [] else [("metadata", noteValue r.edge.note)]) ++
     [("created_at", stampValue now r.edge.created)])

/-- A body with the header of the format. -/
def bodyValue (now : Time.Instant) (body : Body) : Value :=
  .object
    [("format", .string formatName),
     ("version", natValue formatVersion),
     ("id_policy", .string body.policy.name),
     ("root", idValue body.root),
     ("blocks", .array (body.blocks.map (blockValue now))),
     ("edges", .array (body.edges.map (edgeValue now)))]

/-- The text of a document that is saved at a time. -/
def save (now : Time.Instant) (d : Document) : String := (bodyValue now (.ofDocument d)).indentedText

end BlockDocument.Archive
