import Retrace.CommandLine.Render
import Retrace.Main
import Retrace.Proofs.FileSystem.Tree
import Retrace.Proofs.FileSystem.Walk
import Retrace.Proofs.FileSystem.Aim
import Retrace.Proofs.FileSystem.Operations
import Retrace.Proofs.FileSystem.Temporary
import Retrace.Proofs.Script
import Retrace.Proofs.FileSystem.Edit
import Retrace.Proofs.Files
import Retrace.Proofs.Grounds
import Retrace.Proofs.Documents
import Retrace.Proofs.Recording
import Retrace.Proofs.FileSystem.View
import Retrace.Proofs.Mutation
import Retrace.Proofs.Revert
import Retrace.Proofs.Undo
import Retrace.Proofs.Bracket
import Retrace.Proofs.Trail
import Retrace.Proofs.Rollback
import Retrace.Proofs.Restoration
import Retrace.Proofs.Json.Text
import Retrace.Proofs.Json.Value
import Retrace.Proofs.Json.Nesting
import Retrace.Proofs.Time.Calendar
import Retrace.Proofs.Time.Order
import Retrace.Proofs.Time.Text
import Retrace.Proofs.LifeCycle
import Retrace.Proofs.Outlying
import Retrace.Proofs.Loading
import Retrace.Proofs.BackupLedger
import Retrace.Proofs.Accounting
import Retrace.Proofs.Preview
import Retrace.Proofs.Encoding
import Retrace.Proofs.Filing
import Retrace.Proofs.Assurance
import Retrace.Proofs.Bounds
import Retrace.Proofs.Checkpoints
import Retrace.Proofs.Intact
import Retrace.Proofs.Recovery
import Retrace.Proofs.Abreast
import Retrace.Proofs.Restart
import Retrace.Proofs.DryRun
import Retrace.Proofs.RoundTrip
import Retrace.Proofs.Events
import Retrace.Proofs.Chronicle
import Retrace.Proofs.Permissions
import Retrace.Proofs.FileSystem.Unlinked
import Retrace.Proofs.CommandLine.Steps
import Retrace.Proofs.CommandLine.Failure
import Retrace.Proofs.Bookkeeping
import Retrace.Proofs.Durability
import Retrace.Proofs.CommandLine.Sessions
import Retrace.Proofs.Retention
import Retrace.Proofs.Reckoning
import Retrace.Proofs.Attempts
import Retrace.Proofs.Switches
import Retrace.Proofs.InTurn
import Retrace.Proofs.Capture
import Retrace.Proofs.Withdrawal
import Retrace.Proofs.Selection
import Retrace.Proofs.Once
import Retrace.Proofs.Lexical
import Retrace.Proofs.Opening
import Retrace.Proofs.Writing
import Retrace.Proofs.Moving
import Retrace.Proofs.CommandLine.Wording
import Retrace.Proofs.CommandLine.Missing
import Retrace.Proofs.Interleaving.Together
