import Typewright.CommandLine.Arguments
import Typewright.CommandLine.Basic
import Typewright.Compile
import Typewright.Declaration.Basic
import Typewright.Declaration.Comment
import Typewright.Declaration.Expression
import Typewright.Domain.Basic
import Typewright.Domain.Mapping
import Typewright.Domain.Punycode
import Typewright.Environment
import Typewright.Error
import Typewright.Fragment
import Typewright.Graph.Basic
import Typewright.Graph.Load
import Typewright.Identifier.Basic
import Typewright.Identifier.Letters
import Typewright.Json.Decimal
import Typewright.Json.Double
import Typewright.Json.Printer
import Typewright.Json.Reader
import Typewright.Json.Value
import Typewright.Layout
import Typewright.Location.Authority
import Typewright.Location.FilePath
import Typewright.Location.FileUrl
import Typewright.Location.Host
import Typewright.Location.Percent
import Typewright.Main
import Typewright.Options
import Typewright.Pointer
import Typewright.Proofs.BodyKeys
import Typewright.Proofs.Build.Basic
import Typewright.Proofs.Build.Branches
import Typewright.Proofs.Build.Consistent
import Typewright.Proofs.Build.DefinitionNames
import Typewright.Proofs.Build.Enums
import Typewright.Proofs.Build.Finished
import Typewright.Proofs.Build.Graph
import Typewright.Proofs.Build.Inheritance
import Typewright.Proofs.Build.Interface
import Typewright.Proofs.Build.Membership
import Typewright.Proofs.Build.Memo
import Typewright.Proofs.Build.Names
import Typewright.Proofs.Build.Notes
import Typewright.Proofs.Build.References
import Typewright.Proofs.Build.Renders
import Typewright.Proofs.Build.Reordered
import Typewright.Proofs.Build.Sources
import Typewright.Proofs.Build.Steps
import Typewright.Proofs.Build.Titles
import Typewright.Proofs.Build.Traces
import Typewright.Proofs.Build.Trail
import Typewright.Proofs.Build.Visit
import Typewright.Proofs.Capture
import Typewright.Proofs.CommandLine
import Typewright.Proofs.Compile
import Typewright.Proofs.Declaration.Comment
import Typewright.Proofs.Declaration.Expression
import Typewright.Proofs.Declaration.Keys
import Typewright.Proofs.Declaration.Layout
import Typewright.Proofs.Declaration.Marked
import Typewright.Proofs.Declaration.Names
import Typewright.Proofs.Declaration.Operands
import Typewright.Proofs.Declaration.Output
import Typewright.Proofs.Declaration.Pieces
import Typewright.Proofs.Declaration.Plan
import Typewright.Proofs.Declaration.Reading
import Typewright.Proofs.Declaration.Text
import Typewright.Proofs.Declaration.Walk
import Typewright.Proofs.Definitions
import Typewright.Proofs.Graph.Addresses
import Typewright.Proofs.Graph.Chains
import Typewright.Proofs.Graph.Distance
import Typewright.Proofs.Graph.Load
import Typewright.Proofs.Graph.Located
import Typewright.Proofs.Graph.Normal
import Typewright.Proofs.Graph.Places
import Typewright.Proofs.Graph.Reordered
import Typewright.Proofs.Graph.Targets
import Typewright.Proofs.Identifier
import Typewright.Proofs.IndexSignature
import Typewright.Proofs.Json.Characters
import Typewright.Proofs.Json.Decimal
import Typewright.Proofs.Json.Keys
import Typewright.Proofs.Json.Number
import Typewright.Proofs.Json.Place
import Typewright.Proofs.Json.Text
import Typewright.Proofs.KeywordOrder
import Typewright.Proofs.Layout.Comment
import Typewright.Proofs.Layout.Marked
import Typewright.Proofs.Layout.Pieces
import Typewright.Proofs.Layout.Scan
import Typewright.Proofs.Layout.Stable
import Typewright.Proofs.Layout.Statements
import Typewright.Proofs.Layout.Step
import Typewright.Proofs.Location
import Typewright.Proofs.Names
import Typewright.Proofs.Pointer
import Typewright.Proofs.Pointer.RoundTrip
import Typewright.Proofs.Precedence
import Typewright.Proofs.Reading.Operand
import Typewright.Proofs.Reading.Scan
import Typewright.Proofs.Reading.Shape
import Typewright.Proofs.Root
import Typewright.Proofs.Schema.Addresses
import Typewright.Proofs.Schema.BasicForm
import Typewright.Proofs.Schema.Form
import Typewright.Proofs.Schema.Normal
import Typewright.Proofs.Schema.Positions
import Typewright.Proofs.Schema.Reordered
import Typewright.Proofs.Schema.Traversal
import Typewright.Proofs.Schema.Validity
import Typewright.Proofs.Text.Content
import Typewright.Proofs.Text.Layout
import Typewright.Proofs.Text.Marked
import Typewright.Proofs.TypeGraph.Basic
import Typewright.Proofs.TypeGraph.Compact
import Typewright.Proofs.TypeGraph.Copy
import Typewright.Proofs.TypeGraph.Cycles
import Typewright.Proofs.TypeGraph.Done
import Typewright.Proofs.TypeGraph.Duplicates
import Typewright.Proofs.TypeGraph.Edit
import Typewright.Proofs.TypeGraph.Equivalence
import Typewright.Proofs.TypeGraph.Fingerprint
import Typewright.Proofs.TypeGraph.Fixpoint
import Typewright.Proofs.TypeGraph.Frame
import Typewright.Proofs.TypeGraph.Grounded
import Typewright.Proofs.TypeGraph.Idempotent
import Typewright.Proofs.TypeGraph.IndexSignature
import Typewright.Proofs.TypeGraph.Interfaces
import Typewright.Proofs.TypeGraph.Kept
import Typewright.Proofs.TypeGraph.Keys
import Typewright.Proofs.TypeGraph.Marks
import Typewright.Proofs.TypeGraph.Meaning
import Typewright.Proofs.TypeGraph.Member
import Typewright.Proofs.TypeGraph.Names
import Typewright.Proofs.TypeGraph.NormalForm
import Typewright.Proofs.TypeGraph.Numbering
import Typewright.Proofs.TypeGraph.Redirects
import Typewright.Proofs.TypeGraph.Renumber
import Typewright.Proofs.TypeGraph.Settled
import Typewright.Proofs.TypeGraph.Stable
import Typewright.Proofs.TypeGraph.Sweep
import Typewright.Proofs.TypeGraph.WellFormed
import Typewright.Proofs.TypeGraph.Widening
import Typewright.Proofs.Walk
import Typewright.Schema.Children
import Typewright.Schema.Fault
import Typewright.Schema.Form
import Typewright.Schema.Normal
import Typewright.Text.Blank
import Typewright.Text.Lines
import Typewright.Text.Utf8
import Typewright.TypeGraph.Basic
import Typewright.TypeGraph.Build
import Typewright.TypeGraph.Fingerprint
import Typewright.TypeGraph.Simplify
import Typewright.Unicode.Combining
import Typewright.Unicode.Composed
import Typewright.Unicode.Decomposition
import Typewright.Unicode.Direction
import Typewright.Unicode.Hidden
import Typewright.Unicode.Joining
import Typewright.Unicode.Mark
import Typewright.Unicode.Table
import Typewright.Walk
