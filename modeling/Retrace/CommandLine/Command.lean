import Retrace.Path
import Retrace.Rollback.Types

/-!
What a command line can ask for.
-/
namespace Retrace

inductive Command
  /-- Lists transactions, the newest up to a number. -/
  | history (limit : Nat)
  | points
  | preview (id : String)
  /-- Rolls back a transaction, without an id the newest one. -/
  | undo (id : Option String) (force dryRun preserveBackups : Bool)
  | checkpointCreate (name description : String) (transactions : List String)
  | checkpointList
  | checkpointRollback (id : String) (force dryRun parallel preserveBackups : Bool)
  | checkpointDelete (id : String)
  | stats
  | clean (olderThanDays : Option Nat) (confirm : Bool)
  /-- Writes a file with the given content or that of another file. -/
  | write (path : Path) (content : Option String) (source : Option Path)
  | remove (path : Path)
  | move (source target : Path)
  deriving DecidableEq, Repr

/-- A command with what holds for all commands. -/
structure Invocation where
  verbose : Bool
  project : Path
  command : Command
  deriving DecidableEq, Repr

end Retrace
