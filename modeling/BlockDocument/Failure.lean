import BlockDocument.Command.Token
import BlockDocument.Content
import BlockDocument.Issue

/-!
# Failures

Why an operation was not carried out. A failure is a cause with its data; `Failure.message` puts it
into words.
-/

namespace BlockDocument

/-- Why a request is refused by the document as it is. -/
inductive Objection where
  | malformedId (text : String)
  | malformedReference (text : String)
  | noIdLeft
  | deletesRoot
  | hasChildren (id : BlockId)
  | noHeir (id : BlockId)
  | movesRoot
  | intoItself (id : BlockId)
  | intoDescendant (id parent : BlockId)
  | besideItself (id : BlockId)
  | besideRoot
  | anchorWithoutParent (anchor : BlockId)
  | notJson
  | unknownPath (path : String)
  | unknownRole (name : String)
  | notCode (kind : ContentKind)
  | notTags (operator path : String)
  | emptyTag
  | confidenceNotNumber (value : String)
  | unknownShortId (n : Nat)
  | noCapability
  deriving DecidableEq

/-- An objection in words. -/
def Objection.message : Objection → String
  | malformedId text => s!"malformed block id '{text}' (expected blk_ + 12 hex digits)"
  | malformedReference text => s!"invalid block id '{text}'"
  | noIdLeft => "sequential id space exhausted"
  | deletesRoot => "cannot delete the root block"
  | hasChildren id => s!"block {id} has children; delete with cascade or move them first"
  | noHeir id => s!"block {id} has no parent to inherit its children"
  | movesRoot => "cannot move the root block"
  | intoItself id => s!"cannot move block {id} into itself"
  | intoDescendant id parent => s!"cannot move block {id} into its descendant {parent}"
  | besideItself id => s!"cannot position block {id} relative to itself"
  | besideRoot => "cannot position a block next to the root"
  | anchorWithoutParent anchor => s!"anchor {anchor} has no parent"
  | notJson => "content is not valid JSON"
  | unknownPath path => s!"unknown edit path '{path}'"
  | unknownRole name => s!"unknown semantic role '{name}'"
  | notCode kind => "language applies to code blocks, not " ++ kind.name
  | notTags operator path => s!"'{operator}' applies to tags, not '{path}'"
  | emptyTag => "empty tag"
  | confidenceNotNumber value => s!"confidence must be a number, got '{value}'"
  | unknownShortId n => s!"unknown short id {n}"
  | noCapability => "prompt needs at least one capability"

/-- Why a saved document is not opened. -/
inductive ArchiveFault where
  | tooLong (size : Nat)
  | unreadableHeader
  | unreadableBody
  | unknownFormat (format : String)
  | unknownVersion (version : Nat)
  | duplicateBlock (id : BlockId)
  | rootWithoutBlock (root : BlockId)
  | edgeWithoutSource (source : BlockId)
  deriving DecidableEq

/-- The format that a saved document names. -/
def formatName : String := "ucp-graph"

/-- The version of the format. -/
def formatVersion : Nat := 1

/-- The bytes that the text of a saved document may have. -/
def archiveBound : Nat := 256 * 1024 * 1024

/-- A fault of a saved document in words. -/
def ArchiveFault.message : ArchiveFault → String
  | tooLong size => s!"document size {size} bytes exceeds maximum allowed {archiveBound} bytes"
  | unreadableHeader => "invalid document header"
  | unreadableBody => "failed to decode graph"
  | unknownFormat format => s!"unknown document format '{format}' (expected '{formatName}')"
  | unknownVersion version => s!"unsupported version: {version} (expected {formatVersion})"
  | duplicateBlock id => s!"duplicate block id {id}"
  | rootWithoutBlock root => s!"root {root} has no block record"
  | edgeWithoutSource source => s!"edge source {source} has no block record"

/-- Why settings are not taken over. -/
inductive SettingsFault where
  /-- The text is not one of settings, for whatever reason. -/
  | unreadable
  | danglingSeverity
  | noCommands
  deriving DecidableEq

/-- A fault of settings in words. A text that is not one of settings goes without words. -/
def SettingsFault.message : SettingsFault → String
  | unreadable => ""
  | danglingSeverity => ": dangling_edge_severity must be \"warning\" or \"info\""
  | noCommands => ": max_commands must be at least 1"

/-- Why an operation was not carried out. -/
inductive Failure where
  | notFound (id : BlockId)
  | refused (objection : Objection)
  | malformed (line : Nat) (near : String) (fault : Command.Fault)
  | invalid (issues : List Issue)
  | unreadable (fault : ArchiveFault)
  | misconfigured (fault : SettingsFault)
  deriving DecidableEq

/-- The class of a failure. -/
inductive FailureKind where
  | notFound
  | invalidOperation
  | syntaxError
  | validationFailure
  | serialization
  | config
  deriving DecidableEq, Repr

/-- The name of a class of failures. -/
def FailureKind.name : FailureKind → String
  | notFound => "not_found"
  | invalidOperation => "invalid_operation"
  | syntaxError => "syntax"
  | validationFailure => "validation_failure"
  | serialization => "serialization"
  | config => "config"

namespace Failure

/-- The class of a failure. -/
def kind : Failure → FailureKind
  | notFound _ => .notFound
  | refused _ => .invalidOperation
  | malformed .. => .syntaxError
  | invalid _ => .validationFailure
  | unreadable _ => .serialization
  | misconfigured _ => .config

/-- A failure in words. -/
def message : Failure → String
  | notFound id => s!"block not found: {id}"
  | refused objection => "invalid operation: " ++ objection.message
  | malformed line near fault =>
    s!"syntax error at line {line}: " ++ fault.message ++ s!" (near `{near}`)"
  | invalid issues =>
    "validation failed: " ++
      "; ".intercalate (issues.map fun i => "[" ++ i.finding.code ++ "] " ++ i.finding.message)
  | unreadable fault => "serialization error: " ++ fault.message
  | misconfigured fault => "configuration error" ++ fault.message

end Failure

/-- The id that a text names, which has to have the form of an issued one. -/
def BlockId.read (text : String) : Except Failure BlockId :=
  let id : BlockId := ⟨text⟩
  if id.isWellFormed then .ok id else .error (.refused (.malformedId text))

/-- The content of a kind with the given textual form. -/
def Content.read (kind : ContentKind) (raw language : String) : Except Failure Content :=
  match Content.ofText? kind raw language with
  | some c => .ok c
  | none => .error (.refused .notJson)

/-- The content with another textual form. -/
def Content.reread (c : Content) (raw : String) : Except Failure Content :=
  Content.read c.kind raw c.language

end BlockDocument
