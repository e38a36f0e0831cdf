import BlockDocument.Archive.Body
import BlockDocument.Archive.Decode

/-!
# Opening saved documents

Reads a document from a JSON text. First its size is looked at, then the header, which names format
and version, then the body; nothing is decoded past a check that failed.
A document whose tree is damaged is opened as it is; only ids that occur twice, a root without a
block and edges without a source are refused.
-/

namespace BlockDocument.Archive

open BlockDocument.Json BlockDocument.Number

/-! ## The header -/

/-- What a saved document says about itself. -/
structure Header where
  format : String
  version : Nat

/-- Decodes the header of a saved document. -/
def header? (source : Source) : Option Header := do
  let fields ← record? ["format", "version"] 0 source
  let format ← fields.required "format" text?
  let version ← fields.required "version" word32?
  pure ⟨format, version⟩

/-- Accepts the header of this format. -/
def Header.check (h : Header) : Except ArchiveFault Unit :=
  if h.format ≠ formatName then .error (.unknownFormat h.format)
  else if h.version ≠ formatVersion then .error (.unknownVersion h.version)
  else .ok ()

/-! ## Records -/

/-- Arrays and objects of a content nest less deep than this, counting the content itself. -/
def contentDepth : Nat := nestingBound - 4

/-- The names of the parts of a content. -/
def contentParts : ContentKind → List String
  | .text => ["text"]
  | .code => ["language", "source"]
  | .table => ["rows"]
  | .json => ["value"]
  | .math => ["expression"]

/-- The text that a value is. -/
def stringOf? : Value → Option String
  | .string s => some s
  | _ => none

/-- The texts of a row. -/
def rowOf? : Value → Option (List String)
  | .array cells => cells.mapM stringOf?
  | _ => none

/-- The content of a kind with the given parts. -/
def contentOf? : ContentKind → List Value → Option Content
  | .text, [.string s] => some (.text s)
  | .code, [.string language, .string source] => some (.code language source)
  | .table, [.array rows] => (rows.mapM rowOf?).map .table
  | .json, [v] => some (.json v)
  | .math, [.string expression] => some (.math expression)
  | _, _ => none

/-- The kind with exactly this name. -/
def kindOf? (name : String) : Option ContentKind := ContentKind.all.find? (·.name == name)

/-- Decodes a content: an object with its kind as `type`, or an array that starts with its kind. -/
def content? : Source → Option Content
  | .object ms => do
    let entries ← Source.entries? (contentDepth - 1) [] ms
    let tag ← pick? ["type"] entries
    let kind ← (tag.lookup "type").bind stringOf? |>.bind kindOf?
    let parts ← pick? (contentParts kind) (entries.filter (·.1 ≠ "type"))
    contentOf? kind (← (contentParts kind).mapM fun name => parts.lookup name)
  | .array items => do
    match ← Source.values? (contentDepth - 1) [] items with
    | .string name :: parts => contentOf? (← kindOf? name) parts
    | _ => none
  | _ => none

/-- The role with exactly this name. -/
def roleOf? (name : String) : Option Role := Role.all.find? (·.name == name)

/-- The relation with exactly this name. -/
def relationOf? (name : String) : Option Relation := Relation.all.find? (·.name == name)

/-- Decodes the metadata of a block. -/
def metadata? (source : Source) : Option Metadata := do
  let fields ← record? ["semantic_role", "label", "tags", "custom", "token_estimate", "created_at",
    "modified_at"] 0 source
  let role ← fields.optional "semantic_role" (named? roleOf?)
  let label ← fields.optional "label" text?
  let tags ← fields.required "tags" (list? text?)
  let attributes ← fields.required "custom" attributes?
  let tokenEstimate ← fields.optional "token_estimate" word32?
  let created ← fields.required "created_at" time?
  let modified ← fields.required "modified_at" time?
  pure { role, label, attributes, tokenEstimate
         tags := .ofList tags
         created := .recorded created
         modified := .recorded modified }

/-- Decodes a block without its edges. -/
def block? (source : Source) : Option BlockRecord := do
  let fields ← record? ["id", "content", "metadata", "children"] 1 source
  let id ← fields.required "id" id?
  let content ← fields.required "content" content?
  let metadata ← fields.required "metadata" metadata?
  let children ← fields.withDefault "children" [] (list? id?)
  pure { id, content, metadata, children }

/-- Decodes the note of an edge. -/
def note? (source : Source) : Option Note := do
  let fields ← record? ["confidence", "description", "custom"] 0 source
  let confidence ← fields.optional "confidence" (binary? binary32)
  let description ← fields.optional "description" text?
  let attributes ← fields.required "custom" attributes?
  pure { confidence, description, attributes }

/-- Decodes an edge with the block that it leaves. -/
def edge? (source : Source) : Option EdgeRecord := do
  let fields ← record? ["source", "edge_type", "target", "metadata", "created_at"] 0 source
  let origin ← fields.required "source" id?
  let relation ← fields.required "edge_type" (named? relationOf?)
  let target ← fields.required "target" id?
  let note ← fields.withDefault "metadata" {} note?
  let created ← fields.required "created_at" time?
  pure ⟨origin, { relation, target, note, created := .recorded created }⟩

/-! ## The body -/

/-- The fields of a body that are records of their own. All other members have to be values, with
one level of nesting less than a whole text. -/
def bodyFields : List String := ["id_policy", "root", "blocks", "edges"]

/-- Decodes the body of a saved document, which has to be an object. -/
def body? : Source → Option Body
  | .object ms => do
    let entries ← members? ms
    let fields ← pick? bodyFields entries
    let others := entries.filter fun e => !bodyFields.contains e.1
    if others.any fun e => (e.2.value? (nestingBound - 2)).isNone then none
    let fields : Fields := fields
    let policy ← fields.withDefault "id_policy" .sequential (named? Policy.parse?)
    let root ← fields.required "root" id?
    let blocks ← fields.required "blocks" (list? block?)
    let edges ← fields.withDefault "edges" [] (list? edge?)
    pure { policy, root, blocks, edges }
  | _ => none

/-- Decodes a saved document. -/
def decode (source : Option Source) : Except ArchiveFault Document := do
  let some header := source.bind header? | throw .unreadableHeader
  header.check
  let some body := source.bind body? | throw .unreadableBody
  body.document

/-- The document that a text is. -/
def load (text : String) : Except Failure Document :=
  if archiveBound < text.utf8ByteSize then .error (.unreadable (.tooLong text.utf8ByteSize))
  else
    let cs := text.toList
    match decode (Source.parse? cs.length cs) with
    | .ok d => .ok d
    | .error fault => .error (.unreadable fault)

end BlockDocument.Archive
