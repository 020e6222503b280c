import ExprFront.Command.FileTree
import ExprFront.Main
import ExprFront.Operator.Setting
import ExprFront.Proofs.Classification
import ExprFront.Proofs.Climbing
import ExprFront.Proofs.Concatenation
import ExprFront.Proofs.EnvironmentSettings
import ExprFront.Proofs.ErrorLimit
import ExprFront.Proofs.Interaction
import ExprFront.Proofs.Layout
import ExprFront.Proofs.Naming
import ExprFront.Proofs.NumeralValues
import ExprFront.Proofs.OperatorOrder
import ExprFront.Proofs.OutlineReading
import ExprFront.Proofs.Outlines
import ExprFront.Proofs.Partition
import ExprFront.Proofs.PrintableTexts
import ExprFront.Proofs.Quoting
import ExprFront.Proofs.ReaderState
import ExprFront.Proofs.ReportContent
import ExprFront.Proofs.Resumption
import ExprFront.Proofs.RoundTrip
import ExprFront.Proofs.SourceLines
import ExprFront.Proofs.TableHistory
import ExprFront.Proofs.TokenPlaces
import ExprFront.Proofs.TokenRows
import ExprFront.Proofs.Traversals
import ExprFront.Proofs.TreePlaces
import ExprFront.Proofs.Viability
import ExprFront.Tree.Line
