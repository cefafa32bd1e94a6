import QueryDiagram.Text.Basic
import QueryDiagram.Text.Printable
import QueryDiagram.Text.Quoted
import QueryDiagram.Text.Encoding
import QueryDiagram.Text.Percent
import QueryDiagram.Record
import QueryDiagram.Decimal.Basic
import QueryDiagram.Decimal.Numeral
import QueryDiagram.Decimal.Shortest
import QueryDiagram.Decimal.Style
import QueryDiagram.Json.Basic
import QueryDiagram.Json.Reader
import QueryDiagram.Json.Writer
import QueryDiagram.GraphQL.Token
import QueryDiagram.GraphQL.Error
import QueryDiagram.GraphQL.Lexer
import QueryDiagram.GraphQL.Document
import QueryDiagram.GraphQL.Parser
import QueryDiagram.Argument
import QueryDiagram.Request
import QueryDiagram.Layout.Scalar
import QueryDiagram.Layout.Config
import QueryDiagram.Diagram.Node
import QueryDiagram.Logged
import QueryDiagram.Fragments
import QueryDiagram.Tree.Basic
import QueryDiagram.Tree.Selection
import QueryDiagram.Tree.Placement
import QueryDiagram.Diagram.Variables
import QueryDiagram.Diagram.Basic
import QueryDiagram.Diagram.Build
import QueryDiagram.Diagram.Patch
import QueryDiagram.Session
import QueryDiagram.Store
import QueryDiagram.Service.Call
import QueryDiagram.Service.Answer
import QueryDiagram.Service.Path
import QueryDiagram.Service
import QueryDiagram.Proofs.Logged
import QueryDiagram.Proofs.Identifiers
import QueryDiagram.Proofs.Record
import QueryDiagram.Proofs.Text.Pairs
import QueryDiagram.Proofs.Text.Octets
import QueryDiagram.Proofs.Text.Encoding
import QueryDiagram.Proofs.Decimal.Numeral
import QueryDiagram.Proofs.Decimal.Rounding
import QueryDiagram.Proofs.Decimal.Doubles
import QueryDiagram.Proofs.Decimal.Nearest
import QueryDiagram.Proofs.Decimal.Rendering
import QueryDiagram.Proofs.Json.Reading
import QueryDiagram.Proofs.Json.Strings
import QueryDiagram.Proofs.Json.RoundTrip
import QueryDiagram.Proofs.Json.Octets
import QueryDiagram.Proofs.Request
import QueryDiagram.Proofs.Layout.Rational
import QueryDiagram.Proofs.Tree.Preorder
import QueryDiagram.Proofs.Tree.Level
import QueryDiagram.Proofs.Tree.Expansion
import QueryDiagram.Proofs.Tree.Numbering
import QueryDiagram.Proofs.Tree.Spacing
import QueryDiagram.Proofs.Tree.Shape
import QueryDiagram.Proofs.Diagram.Drawing
import QueryDiagram.Proofs.Diagram.Edits
import QueryDiagram.Proofs.Diagram.Sheet
import QueryDiagram.Proofs.Diagram.Forest
import QueryDiagram.Proofs.Diagram.Shape
import QueryDiagram.Proofs.Fragments
import QueryDiagram.Proofs.Tree.Spreads
import QueryDiagram.Proofs.Tree.Renumbering
import QueryDiagram.Proofs.Diagram.Blocks
import QueryDiagram.Proofs.Diagram.Locality
import QueryDiagram.Proofs.Tree.Occurrences
import QueryDiagram.Proofs.Diagram.Output
import QueryDiagram.Proofs.Store
import QueryDiagram.Proofs.Service.Effect
import QueryDiagram.Proofs.Argument
import QueryDiagram.Proofs.Diagram.Acceptance
import QueryDiagram.Proofs.Diagram.Failure
import QueryDiagram.Proofs.Service.Failure
import QueryDiagram.Proofs.Service.History
import QueryDiagram.Proofs.Service.Retention
import QueryDiagram.Proofs.GraphQL.Names
import QueryDiagram.Proofs.Tree.Warnings
import QueryDiagram.Proofs.Diagram.Warnings
import QueryDiagram.Proofs.Diagram.NodeData
import QueryDiagram.Proofs.Diagram.Patching
import QueryDiagram.Proofs.Service.Bodies
import QueryDiagram.Proofs.Service.Editing
import QueryDiagram.Proofs.Service.Patching
import QueryDiagram.Proofs.Diagram.Merging
import QueryDiagram.Proofs.Decision
import QueryDiagram.Proofs.Tree.Replay
import QueryDiagram.Proofs.Tree.Labels
import QueryDiagram.Proofs.Tree.LeafArguments
import QueryDiagram.Proofs.Tree.Rows
import QueryDiagram.Proofs.Tree.Depth
import QueryDiagram.Proofs.Argument.Shown
import QueryDiagram.Proofs.Argument.Merging
import QueryDiagram.Proofs.Diagram.Form
