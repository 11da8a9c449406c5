import CommandFrame.Command.Scripted
import CommandFrame.CommandLine.Run
import CommandFrame.Proofs.Arguments.Agreement
import CommandFrame.Proofs.Arguments.Occurrences
import CommandFrame.Proofs.Arguments.Refusal
import CommandFrame.Proofs.Arguments.Requests
import CommandFrame.Proofs.Arguments.Spelled
import CommandFrame.Proofs.Arguments.Terminator
import CommandFrame.Proofs.Arguments.WellTyped
import CommandFrame.Proofs.Builtin.NameValues
import CommandFrame.Proofs.Completion.Hidden
import CommandFrame.Proofs.Completion.Indexed
import CommandFrame.Proofs.Completion.Names
import CommandFrame.Proofs.Completion.Outcome
import CommandFrame.Proofs.Completion.Settings
import CommandFrame.Proofs.Decimal.Integer
import CommandFrame.Proofs.Frame.Atomic
import CommandFrame.Proofs.Frame.Closing
import CommandFrame.Proofs.History
import CommandFrame.Proofs.Line.Continuation
import CommandFrame.Proofs.Line.Quoted
import CommandFrame.Proofs.Line.Substitution
import CommandFrame.Proofs.Path.Hidden
import CommandFrame.Proofs.Path.Tilde
import CommandFrame.Proofs.Path.Visible
import CommandFrame.Proofs.Repl.Buffers
import CommandFrame.Proofs.Schema.Declared
import CommandFrame.Proofs.Text.CommonStart
import CommandFrame.Proofs.WordList.Language
import CommandFrame.Proofs.WordList.RoundTrip
