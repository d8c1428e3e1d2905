import SlotTemplates.CommandLine.Options
import SlotTemplates.CommandLine.Run
import SlotTemplates.Component.Binding
import SlotTemplates.Component.Catalog
import SlotTemplates.Component.Declaration
import SlotTemplates.Component.Error
import SlotTemplates.Component.Header
import SlotTemplates.Component.Name
import SlotTemplates.Config
import SlotTemplates.Decimal.Binary64
import SlotTemplates.Decimal.Notation
import SlotTemplates.Decimal.Power
import SlotTemplates.Decimal.Shortest
import SlotTemplates.Entries
import SlotTemplates.Files.Path
import SlotTemplates.Files.Tree
import SlotTemplates.Json.Fault
import SlotTemplates.Json.Number
import SlotTemplates.Json.Printer
import SlotTemplates.Json.Reader
import SlotTemplates.Json.Value
import SlotTemplates.Main
import SlotTemplates.Proofs.Component.AllowList
import SlotTemplates.Proofs.Component.Binding
import SlotTemplates.Proofs.Component.Catalog
import SlotTemplates.Proofs.Component.Containment
import SlotTemplates.Proofs.Component.Defaults
import SlotTemplates.Proofs.Component.Discovery
import SlotTemplates.Proofs.Component.Header
import SlotTemplates.Proofs.Component.Name
import SlotTemplates.Proofs.Component.Resolvable
import SlotTemplates.Proofs.Component.Slots
import SlotTemplates.Proofs.Decimal.Whole
import SlotTemplates.Proofs.Entries
import SlotTemplates.Proofs.Except
import SlotTemplates.Proofs.Files.Path
import SlotTemplates.Proofs.Files.Places
import SlotTemplates.Proofs.Files.WellFormed
import SlotTemplates.Proofs.History
import SlotTemplates.Proofs.Render.Attributes
import SlotTemplates.Proofs.Render.Calls
import SlotTemplates.Proofs.Render.Chain
import SlotTemplates.Proofs.Render.Cycle
import SlotTemplates.Proofs.Render.Forwarding
import SlotTemplates.Proofs.Render.Interchange
import SlotTemplates.Proofs.Render.Invocation
import SlotTemplates.Proofs.Render.Isolation
import SlotTemplates.Proofs.Render.Lookups
import SlotTemplates.Proofs.Render.Machine
import SlotTemplates.Proofs.Render.Outlet
import SlotTemplates.Proofs.Render.Places
import SlotTemplates.Proofs.Render.Requests
import SlotTemplates.Proofs.Render.Scope
import SlotTemplates.Proofs.Render.Sequence
import SlotTemplates.Proofs.Render.Termination
import SlotTemplates.Proofs.Render.Transparent
import SlotTemplates.Proofs.Render.Variables
import SlotTemplates.Proofs.Render.WholeNumbers
import SlotTemplates.Proofs.Session
import SlotTemplates.Proofs.Syntax.Arguments
import SlotTemplates.Proofs.Syntax.Conservation
import SlotTemplates.Proofs.Syntax.Constructs
import SlotTemplates.Proofs.Syntax.Delimiters
import SlotTemplates.Proofs.Syntax.Derivation
import SlotTemplates.Proofs.Syntax.Displaced
import SlotTemplates.Proofs.Syntax.Enclosed
import SlotTemplates.Proofs.Syntax.Failures
import SlotTemplates.Proofs.Syntax.LiteralNames
import SlotTemplates.Proofs.Syntax.LongestMatch
import SlotTemplates.Proofs.Syntax.Moving
import SlotTemplates.Proofs.Syntax.Nesting
import SlotTemplates.Proofs.Syntax.Padding
import SlotTemplates.Proofs.Syntax.ParseTree
import SlotTemplates.Proofs.Syntax.Patterns
import SlotTemplates.Proofs.Syntax.Placement
import SlotTemplates.Proofs.Syntax.Quoting
import SlotTemplates.Proofs.Syntax.Remainders
import SlotTemplates.Proofs.Syntax.Report
import SlotTemplates.Proofs.Syntax.Sources
import SlotTemplates.Proofs.Syntax.Spans
import SlotTemplates.Proofs.Syntax.Tiling
import SlotTemplates.Proofs.Syntax.Tokens
import SlotTemplates.Proofs.Text.Lines
import SlotTemplates.Proofs.Text.Trim
import SlotTemplates.Proofs.Toml.Distinct
import SlotTemplates.Proofs.Toml.Numeral
import SlotTemplates.Render.Component
import SlotTemplates.Render.Computation
import SlotTemplates.Render.Environment
import SlotTemplates.Render.Error
import SlotTemplates.Render.Eval
import SlotTemplates.Render.State
import SlotTemplates.Session
import SlotTemplates.Syntax.Compile
import SlotTemplates.Syntax.Error
import SlotTemplates.Syntax.Expr
import SlotTemplates.Syntax.Grammar
import SlotTemplates.Syntax.Lexer
import SlotTemplates.Syntax.Node
import SlotTemplates.Syntax.Report
import SlotTemplates.Syntax.Segment
import SlotTemplates.Syntax.TagRule
import SlotTemplates.Syntax.Token
import SlotTemplates.Text.Blank
import SlotTemplates.Text.Lines
import SlotTemplates.Text.Pieces
import SlotTemplates.Text.Quoted
import SlotTemplates.Text.Ranges
import SlotTemplates.Text.Span
import SlotTemplates.Text.Width
import SlotTemplates.Toml.Document
import SlotTemplates.Toml.Fault
import SlotTemplates.Toml.Item
import SlotTemplates.Toml.Scalar
import SlotTemplates.Toml.Shape
import SlotTemplates.Toml.Table
