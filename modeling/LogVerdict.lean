import LogVerdict.FileTree
import LogVerdict.Main
import LogVerdict.Proofs.TreeLookup
import LogVerdict.Proofs.ExitCode
import LogVerdict.Proofs.Verbosity
import LogVerdict.Proofs.PushBack
import LogVerdict.Proofs.Color
import LogVerdict.Proofs.GrowingLog
import LogVerdict.Proofs.Joining
import LogVerdict.Proofs.Respacing
import LogVerdict.Execution
import LogVerdict.Proofs.BrokenChannel
import LogVerdict.Proofs.PrintedCounts
import LogVerdict.Proofs.TeedReport
import LogVerdict.Proofs.DiagnosticBounds
import LogVerdict.Proofs.ReadingBack
import LogVerdict.Proofs.Cutting
import LogVerdict.Proofs.Pattern
import LogVerdict.Proofs.Suggestions
import LogVerdict.Proofs.Switches
import LogVerdict.Proofs.Dimming
