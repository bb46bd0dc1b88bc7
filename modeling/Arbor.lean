import Arbor.Eval.Probe
import Arbor.Json.Write
import Arbor.Main
import Arbor.Proofs.Eval.Agreement
import Arbor.Tree.Encode
import Arbor.Proofs.Eval.Restoration
import Arbor.Proofs.Eval.Lockstep
import Arbor.Proofs.Eval.HostLog
import Arbor.Proofs.Eval.Isolation
import Arbor.Proofs.Eval.Jumps
import Arbor.Proofs.Eval.Moments
import Arbor.Proofs.Eval.Whole
import Arbor.Proofs.Eval.ActiveCalls
import Arbor.Proofs.Eval.BreakClosed
import Arbor.Proofs.Eval.Handles
import Arbor.Proofs.Session.Locks
import Arbor.Proofs.Tree.RoundTrip
import Arbor.Proofs.Number.Rounding
import Arbor.Proofs.Tree.Grammar
import Arbor.Proofs.Tree.Notation
import Arbor.Proofs.Files.Paths
import Arbor.Proofs.Files.Trees
import Arbor.Proofs.Package.Survey
import Arbor.Proofs.Package.Walks
import Arbor.Proofs.Package.Loading
import Arbor.Proofs.Package.Manifests
import Arbor.Proofs.Package.Programs
import Arbor.Proofs.Files.Frames
import Arbor.Proofs.Package.Lockfiles
import Arbor.Proofs.Package.Reloading
import Arbor.Proofs.Command.Installation
import Arbor.Proofs.Eval.Supported
import Arbor.Proofs.Eval.Bracketing
import Arbor.Proofs.Eval.Renaming
import Arbor.Proofs.Command.Turns
import Arbor.Proofs.Eval.Ledger
import Arbor.Proofs.Eval.Containers
import Arbor.Proofs.Eval.Sharing
import Arbor.Proofs.Text.Utf8
import Arbor.Proofs.Files.Growth
import Arbor.Proofs.Value.Equality
import Arbor.Proofs.Package.Fetching
import Arbor.Proofs.Command.Effects
import Arbor.Proofs.Package.Defects
import Arbor.Proofs.Yaml.Issues
import Arbor.Proofs.Package.Declarations
import Arbor.Proofs.Package.Undescribed
import Arbor.Proofs.Package.Validation
import Arbor.Proofs.Text.Quoted
import Arbor.Proofs.Value.Inspection
import Arbor.Proofs.Package.Entries
import Arbor.Proofs.Package.Saving
import Arbor.Proofs.Tree.Schema
import Arbor.Proofs.Tree.Violations
import Arbor.Proofs.Eval.Propagation
import Arbor.Proofs.Tree.Integers
import Arbor.Proofs.Session.Registration
import Arbor.Proofs.Eval.Environments
import Arbor.Proofs.Command.Ancestors
import Arbor.Proofs.Eval.Termination
import Arbor.Proofs.Eval.Flattening
