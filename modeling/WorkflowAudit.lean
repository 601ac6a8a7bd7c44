import WorkflowAudit.Action.Catalog
import WorkflowAudit.Action.Pin
import WorkflowAudit.Config.Project
import WorkflowAudit.Config.Settings
import WorkflowAudit.Credential
import WorkflowAudit.Data.Binary64
import WorkflowAudit.Data.Json
import WorkflowAudit.Data.Json.Decoder
import WorkflowAudit.Data.Json.Document
import WorkflowAudit.Data.OrderedMap
import WorkflowAudit.Data.Sorting
import WorkflowAudit.Dependency.Check
import WorkflowAudit.Dependency.Cycles
import WorkflowAudit.Dependency.Diagram
import WorkflowAudit.Dependency.Graph
import WorkflowAudit.Dependency.Map
import WorkflowAudit.Dependency.Order
import WorkflowAudit.Discovery.Cache
import WorkflowAudit.Discovery.Record
import WorkflowAudit.Discovery.Reusable
import WorkflowAudit.Discovery.Scan
import WorkflowAudit.Discovery.Scanner
import WorkflowAudit.Discovery.Walk
import WorkflowAudit.Error
import WorkflowAudit.Files.Listing
import WorkflowAudit.Files.Path
import WorkflowAudit.Files.Tree
import WorkflowAudit.Fingerprint.Basic
import WorkflowAudit.Fingerprint.Blake3
import WorkflowAudit.Lint.ActionRules
import WorkflowAudit.Lint.ConditionRule
import WorkflowAudit.Lint.EditBuffer
import WorkflowAudit.Lint.ExpressionRules
import WorkflowAudit.Lint.ExtractionRules
import WorkflowAudit.Lint.Files
import WorkflowAudit.Lint.JobCategory
import WorkflowAudit.Lint.Linter
import WorkflowAudit.Lint.SourceUnit
import WorkflowAudit.Lint.StructureRules
import WorkflowAudit.Lint.WorkflowRules
import WorkflowAudit.Main
import WorkflowAudit.Policy.Organization
import WorkflowAudit.Policy.Place
import WorkflowAudit.Policy.Report
import WorkflowAudit.Policy.Security
import WorkflowAudit.Policy.Selection
import WorkflowAudit.Project.Basic
import WorkflowAudit.Project.Command
import WorkflowAudit.Project.Lint
import WorkflowAudit.Project.Resources
import WorkflowAudit.Project.Workflows
import WorkflowAudit.Proofs.Credential
import WorkflowAudit.Proofs.Data.Json.Free
import WorkflowAudit.Proofs.Data.Json.Keeping
import WorkflowAudit.Proofs.Data.Json.Reading
import WorkflowAudit.Proofs.Data.Json.Spelling
import WorkflowAudit.Proofs.Data.Lookup
import WorkflowAudit.Proofs.Data.OrderedMap
import WorkflowAudit.Proofs.Data.Preorder
import WorkflowAudit.Proofs.Data.Sorting
import WorkflowAudit.Proofs.Dependency.Cycles
import WorkflowAudit.Proofs.Dependency.Depth
import WorkflowAudit.Proofs.Dependency.Determined
import WorkflowAudit.Proofs.Dependency.Drawing
import WorkflowAudit.Proofs.Dependency.Exploration
import WorkflowAudit.Proofs.Dependency.Graph
import WorkflowAudit.Proofs.Dependency.Problems
import WorkflowAudit.Proofs.Dependency.Relation
import WorkflowAudit.Proofs.Dependency.Release
import WorkflowAudit.Proofs.Dependency.Resources
import WorkflowAudit.Proofs.Dependency.Search
import WorkflowAudit.Proofs.Discovery.Event
import WorkflowAudit.Proofs.Discovery.History
import WorkflowAudit.Proofs.Discovery.Interleaving
import WorkflowAudit.Proofs.Discovery.Record
import WorkflowAudit.Proofs.Discovery.Scan
import WorkflowAudit.Proofs.Discovery.Scanner
import WorkflowAudit.Proofs.Discovery.Steps
import WorkflowAudit.Proofs.Discovery.Store
import WorkflowAudit.Proofs.Discovery.Walk
import WorkflowAudit.Proofs.Files.Change
import WorkflowAudit.Proofs.Files.Extend
import WorkflowAudit.Proofs.Files.Order
import WorkflowAudit.Proofs.Files.Place
import WorkflowAudit.Proofs.Files.Rewrite
import WorkflowAudit.Proofs.Files.Tree
import WorkflowAudit.Proofs.Fingerprint
import WorkflowAudit.Proofs.Lint.Complexity
import WorkflowAudit.Proofs.Lint.EditBuffer
import WorkflowAudit.Proofs.Lint.FileSplit
import WorkflowAudit.Proofs.Lint.Files
import WorkflowAudit.Proofs.Lint.Fixpoint
import WorkflowAudit.Proofs.Lint.InPlace
import WorkflowAudit.Proofs.Lint.LeftToRight
import WorkflowAudit.Proofs.Lint.Leftover
import WorkflowAudit.Proofs.Lint.Lifting
import WorkflowAudit.Proofs.Lint.Needs
import WorkflowAudit.Proofs.Lint.Queue
import WorkflowAudit.Proofs.Lint.RepeatedEnv
import WorkflowAudit.Proofs.Policy.Credentials
import WorkflowAudit.Proofs.Policy.Injection
import WorkflowAudit.Proofs.Policy.Pinning
import WorkflowAudit.Proofs.Policy.Report
import WorkflowAudit.Proofs.Policy.Secrets
import WorkflowAudit.Proofs.Policy.Selection
import WorkflowAudit.Proofs.Project.Lint
import WorkflowAudit.Proofs.Script.BlankLine
import WorkflowAudit.Proofs.Script.Bracket
import WorkflowAudit.Proofs.Script.CarriageReturn
import WorkflowAudit.Proofs.Script.Concatenation
import WorkflowAudit.Proofs.Script.Coverage
import WorkflowAudit.Proofs.Script.Depth
import WorkflowAudit.Proofs.Script.Escape
import WorkflowAudit.Proofs.Script.Failure
import WorkflowAudit.Proofs.Script.Inline
import WorkflowAudit.Proofs.Script.Joining
import WorkflowAudit.Proofs.Script.Lambda
import WorkflowAudit.Proofs.Script.Laminar
import WorkflowAudit.Proofs.Script.Lexemes
import WorkflowAudit.Proofs.Script.Line
import WorkflowAudit.Proofs.Script.LineEnding
import WorkflowAudit.Proofs.Script.LineFeed
import WorkflowAudit.Proofs.Script.Margin
import WorkflowAudit.Proofs.Script.Nesting
import WorkflowAudit.Proofs.Script.Nodes
import WorkflowAudit.Proofs.Script.Operand
import WorkflowAudit.Proofs.Script.Outline
import WorkflowAudit.Proofs.Script.Parser.Assignment
import WorkflowAudit.Proofs.Script.Parser.Blocks
import WorkflowAudit.Proofs.Script.Parser.Bound
import WorkflowAudit.Proofs.Script.Parser.Display
import WorkflowAudit.Proofs.Script.Parser.Embedding
import WorkflowAudit.Proofs.Script.Parser.Height
import WorkflowAudit.Proofs.Script.Parser.Honest
import WorkflowAudit.Proofs.Script.Parser.Lines
import WorkflowAudit.Proofs.Script.Parser.Operator
import WorkflowAudit.Proofs.Script.Parser.Outline
import WorkflowAudit.Proofs.Script.Parser.Phrase
import WorkflowAudit.Proofs.Script.Parser.Placement
import WorkflowAudit.Proofs.Script.Parser.Production
import WorkflowAudit.Proofs.Script.Parser.Run
import WorkflowAudit.Proofs.Script.Parser.Statement
import WorkflowAudit.Proofs.Script.Parser.Transfer
import WorkflowAudit.Proofs.Script.Parser.Utterance
import WorkflowAudit.Proofs.Script.Phrase
import WorkflowAudit.Proofs.Script.Piece
import WorkflowAudit.Proofs.Script.Preorder
import WorkflowAudit.Proofs.Script.Quoted
import WorkflowAudit.Proofs.Script.Reading
import WorkflowAudit.Proofs.Script.Relocation
import WorkflowAudit.Proofs.Script.Rewriting
import WorkflowAudit.Proofs.Script.Seam
import WorkflowAudit.Proofs.Script.SourceOrder
import WorkflowAudit.Proofs.Script.Spacing
import WorkflowAudit.Proofs.Script.Visit
import WorkflowAudit.Proofs.Script.Walk
import WorkflowAudit.Proofs.Text.LineIndex
import WorkflowAudit.Proofs.Text.Match
import WorkflowAudit.Proofs.Text.Span
import WorkflowAudit.Proofs.Workflow.Composition
import WorkflowAudit.Proofs.Workflow.Document
import WorkflowAudit.Proofs.Workflow.Frames
import WorkflowAudit.Proofs.Workflow.JobGraph
import WorkflowAudit.Resource
import WorkflowAudit.Rule
import WorkflowAudit.Script.Lexer
import WorkflowAudit.Script.Parser.Cursor
import WorkflowAudit.Script.Parser.Expression
import WorkflowAudit.Script.Parser.Statement
import WorkflowAudit.Script.StringLiteral
import WorkflowAudit.Script.Syntax
import WorkflowAudit.Script.Token
import WorkflowAudit.Script.Walk
import WorkflowAudit.Text.CharClass
import WorkflowAudit.Text.CharRange
import WorkflowAudit.Text.Digits
import WorkflowAudit.Text.Pattern
import WorkflowAudit.Text.Placeholder
import WorkflowAudit.Text.Search
import WorkflowAudit.Text.Span
import WorkflowAudit.Toml.Document
import WorkflowAudit.Toml.Reader
import WorkflowAudit.Toml.Scalar
import WorkflowAudit.Workflow.Basic
import WorkflowAudit.Workflow.Composition
import WorkflowAudit.Workflow.Document
import WorkflowAudit.Workflow.JobGraph
