import Descent.Grammar.Edit
import Descent.File.Writer
import Descent.Report
import Descent.Main
import Descent.Proofs.Analysis.Exact
import Descent.Proofs.Parser.Soundness
import Descent.Proofs.Parser.Completeness
import Descent.Proofs.Analysis.Nullability
import Descent.Proofs.Analysis.Chains
import Descent.Proofs.Analysis.SameTable
import Descent.Proofs.Analysis.Orders
import Descent.Proofs.Grammar.Growth
import Descent.Proofs.Analysis.Reanalysis
import Descent.Proofs.Parser.Predictions
import Descent.Proofs.Parser.Conflicts
import Descent.Proofs.Parser.Termination
import Descent.Proofs.File.Line
import Descent.Proofs.File.Sections
import Descent.Proofs.File.Tables
import Descent.Proofs.File.RoundTrip
import Descent.Proofs.Analysis.Checked
import Descent.Proofs.Analysis.Validation
import Descent.Proofs.Analysis.Rearranged
import Descent.Proofs.Parser.Interleaving
import Descent.Proofs.Parser.InTurn
import Descent.Proofs.C.Names
import Descent.Proofs.C.Calls
import Descent.Proofs.C.Returns
import Descent.Proofs.CommandLine.Path
import Descent.Proofs.CommandLine.FileTree
import Descent.Proofs.CommandLine.Run
import Descent.Proofs.CommandLine.Outputs
import Descent.Proofs.CommandLine.Input
import Descent.Proofs.CommandLine.Warning
import Descent.Proofs.Analysis.Termination
import Descent.Proofs.CommandLine.Frame
import Descent.Proofs.Parser.Entry
import Descent.Proofs.C.Slots
import Descent.Proofs.File.Split
import Descent.Proofs.File.Append
import Descent.Proofs.File.Layout
import Descent.Proofs.Parser.Modes
import Descent.Proofs.Grammar.Dump
import Descent.Proofs.Analysis.Updates
import Descent.Proofs.Analysis.Index
import Descent.Proofs.Queue.History
import Descent.Proofs.C.Actions
import Descent.Proofs.TerminalSet.History
