import Retrace.Event
import Retrace.Index
import Retrace.Settings
import Retrace.Store
import Retrace.Backups

/-!
The state of one project while it is worked on: the transaction under way, the transactions and
checkpoints that are kept, counters and events. Documents are read when a manager is opened.
-/
namespace Retrace

/-- What has happened since the manager was opened. -/
structure Counters where
  sessionStarted : Instant
  transactionsStarted : Nat := 0
  transactionsCompleted : Nat := 0
  transactionsFailed : Nat := 0
  operationsRecorded : Nat := 0
  rollbacksAttempted : Nat := 0
  rollbacksSucceeded : Nat := 0
  operationsRolledBack : Nat := 0
  deriving DecidableEq, Repr

structure Manager where
  /-- The normalized path of the project. -/
  root : Path
  settings : Settings
  store : Store
  events : EventLog
  /-- The transaction under way. -/
  current : Option Transaction
  /-- The transactions that are kept, by id. -/
  history : Index Transaction
  checkpoints : Index Checkpoint
  counters : Counters
  deriving Repr

namespace Manager

def backups (m : Manager) : Backups := ⟨m.store.backupsDirectory⟩

/-- A manager with nothing in it. -/
def fresh (root : Path) (settings : Settings) (events : EventLog) (now : Instant) : Manager :=
  { root, settings, store := ⟨root.join settings.stateDirectory⟩, events, current := none,
    history := [], checkpoints := [], counters := { sessionStarted := now } }

/-- Makes the state directories and reads the documents in them. -/
def load (m : Manager) : Script (Except Error Manager) := do
  match ← m.store.ensureDirectories with
  | .error e => return .error (.io e)
  | .ok () =>
    match ← m.store.loadTransactions with
    | .error e => return .error (.io e)
    | .ok ts =>
      match ← m.store.loadCheckpoints with
      | .error e => return .error (.io e)
      | .ok cs =>
        return .ok { m with
          history := Index.ofValues Transaction.id ts
          checkpoints := Index.ofValues Checkpoint.id cs }

/-- Opens a project; none where the settings ask for more events than can be kept. -/
def open? (project : Path) (settings : Settings) (now : Instant) :
    Option (Script (Except Error Manager)) :=
  (EventLog.create? settings.eventCapacity).map fun events => do
    let here ← Script.ask .currentDirectory
    (fresh (here.normalize project) settings events now).load

def publish (m : Manager) (e : Event) : Manager := { m with events := m.events.publish e }

def transaction? (m : Manager) (id : String) : Option Transaction := m.history.get? id

def checkpoint? (m : Manager) (id : String) : Option Checkpoint := m.checkpoints.get? id

/-- The transactions that are kept, newest first. -/
def transactions (m : Manager) : List Transaction :=
  m.history.values.mergeSort Transaction.newestFirst

/-- The checkpoints, newest first. -/
def checkpointList (m : Manager) : List Checkpoint :=
  m.checkpoints.values.mergeSort Checkpoint.newestFirst

/-- Counters and sizes as a document. -/
def statistics (m : Manager) : Json :=
  let c := m.counters
  .object
    [("session_started", .string c.sessionStarted.toText),
      ("transactions_started", .ofNat c.transactionsStarted),
      ("transactions_completed", .ofNat c.transactionsCompleted),
      ("transactions_failed", .ofNat c.transactionsFailed),
      ("operations_recorded", .ofNat c.operationsRecorded),
      ("rollbacks_attempted", .ofNat c.rollbacksAttempted),
      ("rollbacks_succeeded", .ofNat c.rollbacksSucceeded),
      ("operations_rolled_back", .ofNat c.operationsRolledBack),
      ("history_size", .ofNat m.history.length),
      ("checkpoint_count", .ofNat m.checkpoints.length),
      ("transaction_in_progress", .bool m.current.isSome)]

end Manager
end Retrace
