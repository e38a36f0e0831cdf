import BlockDocument.Allocator
import BlockDocument.Archive.Body
import BlockDocument.Archive.Decode
import BlockDocument.Archive.Load
import BlockDocument.Archive.Save
import BlockDocument.Attribute
import BlockDocument.Block
import BlockDocument.BlockId
import BlockDocument.Command.Basic
import BlockDocument.Command.Mutation
import BlockDocument.Command.Parse
import BlockDocument.Command.Render
import BlockDocument.Command.Scan
import BlockDocument.Command.Script
import BlockDocument.Command.Token
import BlockDocument.Content
import BlockDocument.Document.Annotation
import BlockDocument.Document.Basic
import BlockDocument.Document.Edit
import BlockDocument.Document.Walk
import BlockDocument.Edge
import BlockDocument.Execution.Executor
import BlockDocument.Failure
import BlockDocument.Field
import BlockDocument.Hash.Blake3
import BlockDocument.Inspection.Cycle
import BlockDocument.Inspection.Inspector
import BlockDocument.Inspection.Level
import BlockDocument.Inspection.Report
import BlockDocument.Issue
import BlockDocument.Json.Source
import BlockDocument.Json.Value
import BlockDocument.Json.Writer
import BlockDocument.Limits
import BlockDocument.Mutation
import BlockDocument.Number.Binary
import BlockDocument.Number.Decimal
import BlockDocument.Number.Hex
import BlockDocument.Number.Shortest
import BlockDocument.Numbering.Basic
import BlockDocument.Numbering.Offset
import BlockDocument.Numbering.Outline
import BlockDocument.Numbering.Replacement
import BlockDocument.Numbering.Segment
import BlockDocument.Place
import BlockDocument.Prompt
import BlockDocument.Proofs.Allocator
import BlockDocument.Proofs.Applied
import BlockDocument.Proofs.Archive.Body
import BlockDocument.Proofs.Archive.Capture
import BlockDocument.Proofs.Archive.Decode
import BlockDocument.Proofs.Archive.Load
import BlockDocument.Proofs.Archive.Recover
import BlockDocument.Proofs.BlockId
import BlockDocument.Proofs.Census
import BlockDocument.Proofs.Command.Accepted
import BlockDocument.Proofs.Command.Braces
import BlockDocument.Proofs.Command.Derivation
import BlockDocument.Proofs.Command.Grammar
import BlockDocument.Proofs.Command.Joined
import BlockDocument.Proofs.Command.Lines
import BlockDocument.Proofs.Command.Phrase
import BlockDocument.Proofs.Command.Read
import BlockDocument.Proofs.Command.ReadProgram
import BlockDocument.Proofs.Command.RoundTrip
import BlockDocument.Proofs.Command.Scan
import BlockDocument.Proofs.Command.Shift
import BlockDocument.Proofs.Command.Spelling
import BlockDocument.Proofs.Commute
import BlockDocument.Proofs.Content
import BlockDocument.Proofs.Document.Cascade
import BlockDocument.Proofs.Document.Change
import BlockDocument.Proofs.Document.Depth
import BlockDocument.Proofs.Document.Descent
import BlockDocument.Proofs.Document.Forest
import BlockDocument.Proofs.Document.Graft
import BlockDocument.Proofs.Document.Issued
import BlockDocument.Proofs.Document.Outcome
import BlockDocument.Proofs.Document.Placement
import BlockDocument.Proofs.Document.Ranged
import BlockDocument.Proofs.Document.Refusal
import BlockDocument.Proofs.Document.Restored
import BlockDocument.Proofs.Document.Splice
import BlockDocument.Proofs.Document.Success
import BlockDocument.Proofs.Document.Supply
import BlockDocument.Proofs.Document.Traversal
import BlockDocument.Proofs.Document.Tree
import BlockDocument.Proofs.Document.Upkeep
import BlockDocument.Proofs.Document.View
import BlockDocument.Proofs.Document.Walk
import BlockDocument.Proofs.EdgeAct
import BlockDocument.Proofs.EdgeHistory
import BlockDocument.Proofs.Execution.Executor
import BlockDocument.Proofs.Execution.Grouping
import BlockDocument.Proofs.Execution.Growth
import BlockDocument.Proofs.Execution.Preflight
import BlockDocument.Proofs.Execution.Removal
import BlockDocument.Proofs.Execution.Rollback
import BlockDocument.Proofs.Execution.Unlimited
import BlockDocument.Proofs.Footprint
import BlockDocument.Proofs.Freshness
import BlockDocument.Proofs.IdOrder
import BlockDocument.Proofs.Inspection.Climb
import BlockDocument.Proofs.Inspection.Cycle
import BlockDocument.Proofs.Inspection.Growth
import BlockDocument.Proofs.Inspection.Level
import BlockDocument.Proofs.Inspection.Orphan
import BlockDocument.Proofs.Inspection.Precheck
import BlockDocument.Proofs.Inspection.Validity
import BlockDocument.Proofs.Json.Number
import BlockDocument.Proofs.Json.Numeral
import BlockDocument.Proofs.Json.Read
import BlockDocument.Proofs.Json.Reread
import BlockDocument.Proofs.Limits
import BlockDocument.Proofs.Map
import BlockDocument.Proofs.Mutation
import BlockDocument.Proofs.Number.Decimal
import BlockDocument.Proofs.Number.Rounding
import BlockDocument.Proofs.Number.Shortest
import BlockDocument.Proofs.Numbering.Basic
import BlockDocument.Proofs.Numbering.Cut
import BlockDocument.Proofs.Numbering.Expansion
import BlockDocument.Proofs.Numbering.Offset
import BlockDocument.Proofs.Numbering.Outline
import BlockDocument.Proofs.Numbering.Read
import BlockDocument.Proofs.Numbering.Registry
import BlockDocument.Proofs.Numbering.Replacement
import BlockDocument.Proofs.Numbering.Scan
import BlockDocument.Proofs.Numbering.Stance
import BlockDocument.Proofs.Numbering.Word
import BlockDocument.Proofs.Operation
import BlockDocument.Proofs.Refusal
import BlockDocument.Proofs.Resolution
import BlockDocument.Proofs.Root
import BlockDocument.Proofs.Sorting
import BlockDocument.Proofs.Text.Blank
import BlockDocument.Proofs.Text.Name
import BlockDocument.Proofs.Time.Calendar
import BlockDocument.Proofs.Time.Rfc3339
import BlockDocument.Relation
import BlockDocument.Role
import BlockDocument.Settings
import BlockDocument.Text.Blank
import BlockDocument.Text.Name
import BlockDocument.Time.Instant
import BlockDocument.Time.Rfc3339
import BlockDocument.Toml.Parse
import BlockDocument.Toml.Scalar
import BlockDocument.Toml.Table
import BlockDocument.Toml.Value
