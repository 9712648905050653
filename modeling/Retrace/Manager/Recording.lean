import Retrace.Manager.Retention

/-!
Recording a transaction: it is started, takes operations before they are done, and is completed or
aborted. There is at most one at a time.
-/
namespace Retrace

/-- What a caller may say about an operation. -/
structure Operation.Details where
  /-- Else the content of the file is taken. -/
  previousContent : Option String := none
  currentContent : Option String := none
  previousPath : Option Path := none
  previousMode : Option Nat := none
  metadata : Metadata := []

namespace Manager

/-- Opens a transaction under a new id. -/
def start (m : Manager) (id : String) (now : Instant) (name description command : String)
    (metadata : Metadata) : Except Error String × Manager :=
  match m.current with
  | some t => (.error (.conflict t.id), m)
  | none =>
    (.ok id,
      { m with
        events := m.events.publish (.transactionStarted id name command)
        current := some (.start id now name description command metadata)
        counters.transactionsStarted := m.counters.transactionsStarted + 1 })

/-- The bytes before the change: those that the caller gives, or those of the file. -/
def previousBytes (p : Path) : Option String → Script (Except OsError (Option Bytes))
  | some content => return .ok (some (Utf8.encode content))
  | none => (Files.snapshot p).run

/-- The operation that is recorded. Bytes that are no text are recorded lossily, and marked so. -/
def operationOf (m : Manager) (id : String) (now : Instant) (kind : Operation.Kind) (p : Path)
    (details : Operation.Details) (previous : Option Bytes) : Operation :=
  { id
    kind
    path := m.root.normalize p
    previousPath := details.previousPath.map m.root.normalize
    previousContent := previous.map Utf8.lossy
    currentContent := details.currentContent
    previousMode := details.previousMode
    checksum := previous.map Sha256.hexDigest
    timestamp := now
    metadata :=
      if previous.any fun b => (Utf8.decode? b).isNone then
        details.metadata.set "previous_content_lossy" (.bool true)
      else details.metadata }

/-- Adds an operation to the transaction under way. -/
def append (m : Manager) (t : Transaction) (op : Operation) : Manager :=
  { m with
    events := m.events.publish (.operationExecuted t.id op.id op.kind op.path)
    current := some { t with operations := t.operations ++ [op] }
    counters.operationsRecorded := m.counters.operationsRecorded + 1 }

/-- Writes the backup that an operation needs. -/
def backUp (m : Manager) (op : Operation) (previous : Option Bytes) : Script (Except Error Unit) :=
  match previous with
  | some b => if op.requiresBackup then m.backups.write op.id b else return .ok ()
  | none => return .ok ()

/-- Records an operation that is about to be done: what it replaces is read and backed up first. -/
def add (m : Manager) (id : String) (now : Instant) (kind : Operation.Kind) (p : Path)
    (details : Operation.Details) : Script (Except Error String × Manager) := do
  match m.current with
  | none => return (.error (.state "call start_transaction first"), m)
  | some t =>
    if t.status ≠ .pending then
      return (.error (.state ("transaction " ++ t.id ++ " is " ++ t.status.name)), m)
    else
      match ← previousBytes (m.root.normalize p) details.previousContent with
      | .error e => return (.error (.io e), m)
      | .ok previous =>
        let op := m.operationOf id now kind p details previous
        match ← m.backUp op previous with
        | .error e => return (.error e, m)
        | .ok () => return (.ok id, m.append t op)

/-- Keeps a transaction that has been written to disk. -/
def keep (m : Manager) (t : Transaction) : Manager :=
  { m with
    current := none
    history := m.history.put t.id t
    counters.transactionsCompleted := m.counters.transactionsCompleted + 1 }

/-- The transaction stays under way when it could not be written. -/
def markFailed (m : Manager) (t : Transaction) (e : Error) : Manager :=
  { m with
    events := m.events.publish (.transactionFailed t.id e.message)
    current := some { t with status := .failed }
    counters.transactionsFailed := m.counters.transactionsFailed + 1 }

/-- Writes the transaction under way to disk and keeps it; the oldest ones make room. -/
def complete (m : Manager) : Script (Except Error String × Manager) := do
  match m.current with
  | none => return (.error (.state "no transaction to complete"), m)
  | some t =>
    let t := { t with status := .completed }
    match ← m.store.saveTransaction t with
    | .error e => return (.error e, m.markFailed t e)
    | .ok () =>
      let m ← (m.keep t).enforceLimit
      return (.ok t.id, m.publish (.transactionCompleted t.id t.operations.length))

/-- Gives up the transaction under way with its backups. What the caller has changed stays. -/
def abort (m : Manager) : Script (Except Error Transaction × Manager) := do
  match m.current with
  | none => return (.error (.state "no transaction to abort"), m)
  | some t =>
    match ← m.store.deleteTransaction t.id with
    | .error e => return (.error (.io e), m)
    | .ok _ =>
      let _ ← m.backups.removeFor t
      return (.ok t, { m with current := none })

end Manager
end Retrace
