import ValueShell.Main
import ValueShell.Proofs.Command.Precedence
import ValueShell.Proofs.Command.Requoting
import ValueShell.Proofs.Command.Shape
import ValueShell.Proofs.Evaluation.Balance
import ValueShell.Proofs.Evaluation.Channels
import ValueShell.Proofs.Evaluation.Outcomes
import ValueShell.Proofs.Files.Escaping
import ValueShell.Proofs.Files.Listing
import ValueShell.Proofs.Pipeline.Grouping
import ValueShell.Proofs.Pipeline.SourceOrder
import ValueShell.Proofs.Script.CommandLines
import ValueShell.Proofs.Script.Indentation
import ValueShell.Proofs.Script.LineEnds
import ValueShell.Proofs.Script.PlainText
import ValueShell.Proofs.Script.Results
import ValueShell.Proofs.Spawn.Reaping
import ValueShell.Proofs.Table.Layout
import ValueShell.Proofs.Table.LeadingBlanks
import ValueShell.Proofs.Table.Records
import ValueShell.Proofs.Table.Sorting
import ValueShell.Proofs.Task.DepthFirst
import ValueShell.Proofs.Task.Faults
