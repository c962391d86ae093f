import Flowchart.Main
import Flowchart.Proofs.Draft.Closed
import Flowchart.Proofs.Draft.Icons
import Flowchart.Proofs.Draft.Posts
import Flowchart.Proofs.Draft.Outlines
import Flowchart.Proofs.Draft.Expansion
import Flowchart.Proofs.Draft.Trails
import Flowchart.Proofs.Draft.Placing
import Flowchart.Proofs.Draft.Connecting
import Flowchart.Proofs.Draft.Contexts
import Flowchart.Proofs.Draft.Growth
import Flowchart.Proofs.Draft.Plan
import Flowchart.Proofs.Draft.Implicit
import Flowchart.Proofs.Draft.Strokes
import Flowchart.Proofs.Draft.Ledger
import Flowchart.Proofs.Draft.MadeIds
import Flowchart.Proofs.Draft.Filling
import Flowchart.Proofs.Draft.Keeping
import Flowchart.Proofs.Draft.Frame
import Flowchart.Proofs.Draft.Claims
import Flowchart.Proofs.Draft.References
import Flowchart.Proofs.Draft.Pointing
import Flowchart.Proofs.Draft.ArmColumns
import Flowchart.Proofs.Draft.Brackets
import Flowchart.Proofs.Draft.Likeness
import Flowchart.Proofs.Draft.Degrading
import Flowchart.Proofs.Draft.LikeEdges
import Flowchart.Proofs.Flow.Completeness
import Flowchart.Proofs.Flow.Exits
import Flowchart.Proofs.Flow.Questions
import Flowchart.Proofs.Flow.Lines
import Flowchart.Proofs.Flow.Ends
import Flowchart.Proofs.Flow.Order
import Flowchart.Proofs.Flow.Heads
import Flowchart.Proofs.Layout.Layering
import Flowchart.Proofs.Layout.Depth
import Flowchart.Proofs.Layout.Downward
import Flowchart.Proofs.Layout.Cells
import Flowchart.Proofs.Layout.Consistency
import Flowchart.Proofs.Layout.Bands
import Flowchart.Proofs.Layout.LineBreaks
import Flowchart.Proofs.Layout.Cuts
import Flowchart.Proofs.Text.Normal
import Flowchart.Proofs.Token.Locality
import Flowchart.Proofs.Token.Readers
import Flowchart.Proofs.Token.Scan
import Flowchart.Proofs.Token.Accounting
import Flowchart.Proofs.Token.Joining
import Flowchart.Proofs.Token.Boundaries
import Flowchart.Proofs.Token.Quoting
import Flowchart.Proofs.Token.Heredocs
import Flowchart.Proofs.Token.Positions
import Flowchart.Proofs.Statement.Grammar
import Flowchart.Proofs.Statement.Unambiguity
import Flowchart.Proofs.Statement.Reading
import Flowchart.Proofs.Statement.Document
import Flowchart.Proofs.Statement.Moves
import Flowchart.Proofs.Statement.Recovery
import Flowchart.Proofs.Statement.Places
import Flowchart.Proofs.Statement.Nesting
import Flowchart.Proofs.Decimal.Rounding
import Flowchart.Proofs.Decimal.Numerals
import Flowchart.Proofs.Decimal.Doubles
import Flowchart.Proofs.Decimal.Reading
import Flowchart.Proofs.Json.Grammar
import Flowchart.Proofs.Json.Shape
import Flowchart.Proofs.Json.Injectivity
import Flowchart.Proofs.Json.Texts
import Flowchart.Proofs.Json.Sources
import Flowchart.Proofs.Root.Misplaced
import Flowchart.Proofs.Root.Labels
import Flowchart.Proofs.Root.Terminals
import Flowchart.Proofs.Root.Loops
import Flowchart.Proofs.Root.LikeRoots
import Flowchart.Proofs.Root.Exchange
import Flowchart.Proofs.Root.TwoSided
import Flowchart.Proofs.Root.LaneTable
import Flowchart.Proofs.Root.Lanes
