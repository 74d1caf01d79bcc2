import ExprFront.Text.Basic
import ExprFront.Text.Blank
import ExprFront.Number.Binary64
import ExprFront.Number.Shortest
import ExprFront.Number.Notation
import ExprFront.Number.Arith
import ExprFront.Json.Basic
import ExprFront.Token.Kind
import ExprFront.Token.Coord
import ExprFront.Token.Basic
import ExprFront.Scan.Error
import ExprFront.Scan.Lexeme
import ExprFront.Scan.Basic
import ExprFront.Tree.Expr
import ExprFront.Tree.Location
import ExprFront.Tree.Json
import ExprFront.Parse.Error
import ExprFront.Parse.Basic
import ExprFront.Parse.Expr
import ExprFront.Parse.Parser
import ExprFront.Parse.Cursor
import ExprFront.Source
import ExprFront.NodeRange
import ExprFront.Cli.Args
import ExprFront.Cli.Log
import ExprFront.Cli.Session
import ExprFront.Main
import ExprFront.Parse.Sentence
import ExprFront.Proofs.Parse.Outcome
import ExprFront.Proofs.Parse.Derivation
import ExprFront.Proofs.Parse.Complete
import ExprFront.Proofs.Parse.Sound
import ExprFront.Proofs.Parse.Language
import ExprFront.Proofs.Parse.Lookahead
import ExprFront.Proofs.Parse.Locality
import ExprFront.Proofs.Scan.Step
import ExprFront.Proofs.Scan.Segmentation
import ExprFront.Proofs.Scan.Positions
import ExprFront.Proofs.Parse.EndToken
import ExprFront.Proofs.Source.EndOfInput
import ExprFront.Proofs.Parse.Spans
import ExprFront.Proofs.Tree.Locations
import ExprFront.Proofs.Parse.Calls
import ExprFront.Proofs.Parse.Nesting
import ExprFront.Proofs.Scan.Pieces
import ExprFront.Proofs.Source.Reprint
import ExprFront.Proofs.Scan.Restart
import ExprFront.Proofs.Parse.Stepping
import ExprFront.Proofs.Parse.Recovery
import ExprFront.Proofs.Source.TreeSpans
import ExprFront.Proofs.Scan.Walk
import ExprFront.Proofs.Scan.Routines
import ExprFront.Proofs.Scan.Munch
import ExprFront.Proofs.Scan.Delimited
import ExprFront.Proofs.Scan.CodePoints
import ExprFront.Proofs.Tree.LineSearch
import ExprFront.Proofs.Cli.Args
import ExprFront.Proofs.Parse.Loops
import ExprFront.Proofs.Parse.Termination
import ExprFront.Proofs.Number.Rounding
import ExprFront.Proofs.Number.ShortestDecimal
import ExprFront.Proofs.Number.PlainNotation
import ExprFront.Proofs.Number.ReadBack
