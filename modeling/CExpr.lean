import CExpr.CommandLine.Arguments
import CExpr.CommandLine.FileSystem
import CExpr.CommandLine.Program
import CExpr.Compile
import CExpr.Expr.Basic
import CExpr.Expr.OfTree
import CExpr.Expr.Printer
import CExpr.Expr.TreeError
import CExpr.Expr.Walk
import CExpr.Grammar.Node
import CExpr.Grammar.NonTerminal
import CExpr.Grammar.Production
import CExpr.Main
import CExpr.Operator.Basic
import CExpr.Operator.Tier
import CExpr.Palette
import CExpr.Parse.Error
import CExpr.Parse.Input
import CExpr.Parse.Parser
import CExpr.Parse.Run
import CExpr.Parse.State
import CExpr.Proofs.CommandLine.ExitCode
import CExpr.Proofs.Expr.Chain
import CExpr.Proofs.Expr.Composed
import CExpr.Proofs.Expr.Erase
import CExpr.Proofs.Expr.Formed
import CExpr.Proofs.Expr.Hidden
import CExpr.Proofs.Expr.OfDerivation
import CExpr.Proofs.Expr.Operands
import CExpr.Proofs.Expr.Precedence
import CExpr.Proofs.Expr.PrinterCalls
import CExpr.Proofs.Expr.Readable
import CExpr.Proofs.Expr.Rendering
import CExpr.Proofs.Expr.Size
import CExpr.Proofs.Expr.Unique
import CExpr.Proofs.Expr.WellFormed
import CExpr.Proofs.Expr.Written
import CExpr.Proofs.Grammar.Depth
import CExpr.Proofs.Grammar.Derivation
import CExpr.Proofs.Grammar.Fills
import CExpr.Proofs.Grammar.LookAhead
import CExpr.Proofs.Grammar.Productions
import CExpr.Proofs.Grammar.Productive
import CExpr.Proofs.Grammar.Rows
import CExpr.Proofs.Grammar.Rung
import CExpr.Proofs.Grammar.Size
import CExpr.Proofs.Grammar.Walk
import CExpr.Proofs.Operator.Table
import CExpr.Proofs.Parse.BoundedRun
import CExpr.Proofs.Parse.Bounds
import CExpr.Proofs.Parse.Completeness
import CExpr.Proofs.Parse.Counts
import CExpr.Proofs.Parse.Kinds
import CExpr.Proofs.Parse.Limits
import CExpr.Proofs.Parse.Moments
import CExpr.Proofs.Parse.NextToken
import CExpr.Proofs.Parse.Outline
import CExpr.Proofs.Parse.Progress
import CExpr.Proofs.Parse.RaisedAt
import CExpr.Proofs.Parse.Runs
import CExpr.Proofs.Parse.Soundness
import CExpr.Proofs.Parse.Trees
import CExpr.Proofs.Parse.Viable
import CExpr.Proofs.Scan.ByteClasses
import CExpr.Proofs.Scan.Bytewise
import CExpr.Proofs.Scan.Cursor
import CExpr.Proofs.Scan.Cut
import CExpr.Proofs.Scan.Insertion
import CExpr.Proofs.Scan.Joined
import CExpr.Proofs.Scan.Lexeme
import CExpr.Proofs.Scan.Newline
import CExpr.Proofs.Scan.Order
import CExpr.Proofs.Scan.Partition
import CExpr.Proofs.Scan.Spacing
import CExpr.Proofs.Scan.Tracking
import CExpr.Proofs.Session.ByLine
import CExpr.Proofs.Session.Caret
import CExpr.Proofs.Session.Colors
import CExpr.Proofs.Session.Display
import CExpr.Proofs.Session.Limited
import CExpr.Proofs.Session.Unescaped
import CExpr.Proofs.Session.Unlimited
import CExpr.Proofs.Session.Verdict
import CExpr.Proofs.Text.Bytes
import CExpr.Proofs.Text.Lines
import CExpr.Scan.Basic
import CExpr.Scan.Piece
import CExpr.Scan.Report
import CExpr.Session.Console
import CExpr.Session.Line
import CExpr.Session.Run
import CExpr.Session.Write
import CExpr.Text.Blank
import CExpr.Text.Lines
import CExpr.Text.Pad
import CExpr.Text.Utf8
import CExpr.Token.Basic
import CExpr.Token.Keyword
import CExpr.Token.Kind
