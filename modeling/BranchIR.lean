import BranchIR.Exp.Equality
import BranchIR.Main
import BranchIR.Proofs.BundleNames
import BranchIR.Proofs.BundleOrder
import BranchIR.Proofs.Capture.Availability
import BranchIR.Proofs.Capture.Jumps
import BranchIR.Proofs.Capture.LeastNeeds
import BranchIR.Proofs.Capture.Misuse
import BranchIR.Proofs.Capture.ScopedFree
import BranchIR.Proofs.Caret
import BranchIR.Proofs.CommandLine
import BranchIR.Proofs.ConsistentRenaming
import BranchIR.Proofs.Exp.Traversal
import BranchIR.Proofs.Language
import BranchIR.Proofs.Layout
import BranchIR.Proofs.Nesting
import BranchIR.Proofs.Parser.IntLiteral
import BranchIR.Proofs.Parser.NamesTaken
import BranchIR.Proofs.Parser.Restored
import BranchIR.Proofs.Parser.Steady
import BranchIR.Proofs.Progress
import BranchIR.Proofs.RoundTrip
import BranchIR.Proofs.ScopeHistory
import BranchIR.Proofs.Text.LineBytes
import BranchIR.Proofs.Token.Concatenation
import BranchIR.Proofs.Token.Cursor
import BranchIR.Proofs.Token.Partition
import BranchIR.Proofs.TypeText
import BranchIR.Proofs.Typing.CaseArms
import BranchIR.Proofs.Typing.Locality
import BranchIR.Proofs.Typing.Paths
import BranchIR.Proofs.Typing.Rules
