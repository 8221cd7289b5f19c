import Dialogue.Body.Cursor
import Dialogue.Body.Lexer
import Dialogue.Body.Mode
import Dialogue.Body.Token
import Dialogue.Decimal.Basic
import Dialogue.Decimal.Nearest
import Dialogue.Decimal.Shortest
import Dialogue.Expr.Basic
import Dialogue.Expr.Lexeme
import Dialogue.Expr.Parser
import Dialogue.Expr.Printer
import Dialogue.Expr.Token
import Dialogue.Host
import Dialogue.Library
import Dialogue.Node
import Dialogue.Run.Basic
import Dialogue.Run.Step
import Dialogue.RunError
import Dialogue.Session.Basic
import Dialogue.Session.Evaluation
import Dialogue.Session.Functions
import Dialogue.Statement.Basic
import Dialogue.Statement.Block
import Dialogue.Statement.Directive
import Dialogue.Statement.Item
import Dialogue.Statement.Printer
import Dialogue.Statement.Prose
import Dialogue.SyntaxError
import Dialogue.Table
import Dialogue.Text.Blank
import Dialogue.Text.Position
import Dialogue.Text.Quoted
import Dialogue.Text.Visible
import Dialogue.Value
import Dialogue.Proofs.History
import Dialogue.Proofs.Lossless
import Dialogue.Proofs.Narration
import Dialogue.Proofs.Performance
import Dialogue.Proofs.Refinement
import Dialogue.Proofs.Delimiters
import Dialogue.Proofs.Layout
import Dialogue.Proofs.Lines
import Dialogue.Proofs.RoundTrip
import Dialogue.Proofs.Fidelity
import Dialogue.Proofs.Conditions
import Dialogue.Proofs.Moves
import Dialogue.Proofs.Exchange
import Dialogue.Proofs.OptionSets
import Dialogue.Proofs.HostProtocol
import Dialogue.Proofs.Provenance
import Dialogue.Proofs.Visits
import Dialogue.Proofs.Nesting
import Dialogue.Proofs.LineMaps
import Dialogue.Proofs.Twins
import Dialogue.Proofs.Caching
import Dialogue.Proofs.Reformatting
import Dialogue.Proofs.Locality
import Dialogue.Proofs.Assembling
import Dialogue.Proofs.Gathering
import Dialogue.Proofs.Seams
import Dialogue.Proofs.Indentation
import Dialogue.Proofs.Joining
import Dialogue.Proofs.Depths
import Dialogue.Proofs.Taking
import Dialogue.Proofs.Levels
import Dialogue.Proofs.Outline
import Dialogue.Proofs.ContentLines
import Dialogue.Proofs.ShortcutBodies
import Dialogue.Proofs.Writes
import Dialogue.Proofs.LineTokens
import Dialogue.Proofs.Kinship
import Dialogue.Proofs.Padding
import Dialogue.Proofs.Recasting
import Dialogue.Proofs.Margins
import Dialogue.Proofs.Trailing
import Dialogue.Proofs.Entrances
import Dialogue.Proofs.Returning
import Dialogue.Proofs.Climbing
import Dialogue.Proofs.OpenConstructs
import Dialogue.Proofs.Grammar
import Dialogue.Proofs.Parentheses
import Dialogue.Proofs.Coordinates
import Dialogue.Proofs.LineOrder
import Dialogue.Proofs.Markers
import Dialogue.Proofs.TokenOrder
import Dialogue.Proofs.Partition
import Dialogue.Proofs.PostOrder
import Dialogue.Proofs.Compound
import Dialogue.Proofs.ErrorPositions
