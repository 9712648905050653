import Retrace.Manager.Basic
import Retrace.Preview
import Retrace.Rollback.Engine

/-!
Rolling back transactions that are kept: which can be rolled back, what that would do, and doing it.
-/
namespace Retrace

/-- A transaction that can be rolled back. -/
structure Rollback.Point where
  transactionId : String
  name : String
  description : String
  command : String
  timestamp : Instant
  operationCount : Nat
  risk : Risk
  canProceed : Bool
  deriving Repr, Inhabited

/-- A rollback that is done on disk but not yet recorded. -/
structure Rollback.Pending where
  result : Rollback.Result
  consumedBackups : List String := []
  deriving Repr, Inhabited

def Rollback.Point.toJson (p : Rollback.Point) : Json :=
  .object
    [("transaction_id", .string p.transactionId), ("name", .string p.name),
      ("description", .string p.description), ("command", .string p.command),
      ("timestamp", .string p.timestamp.toText), ("operation_count", .ofNat p.operationCount),
      ("risk_level", .string p.risk.name), ("can_proceed", .bool p.canProceed)]

namespace Manager

open Rollback (Options Result Pending Point)

def previewOf (m : Manager) (t : Transaction) : Script Preview :=
  Preview.ofTransaction m.backups m.settings.verifyChecksums t

def preview (m : Manager) (id : String) : Script (Except Error Preview) := do
  match m.transaction? id with
  | none => return .error (.transactionNotFound id)
  | some t => return .ok (← m.previewOf t)

def pointOf (t : Transaction) (p : Preview) : Point :=
  { transactionId := t.id, name := t.name, description := t.description, command := t.command,
    timestamp := t.timestamp, operationCount := t.operations.length, risk := p.risk,
    canProceed := p.canProceed }

def pointsOf (m : Manager) : List Transaction → Script (List Point)
  | [] => return []
  | t :: ts => do
    let p ← m.previewOf t
    let rest ← m.pointsOf ts
    return pointOf t p :: rest

/-- The completed transactions, newest first. -/
def points (m : Manager) : Script (List Point) :=
  m.pointsOf (m.transactions.filter (·.status = .completed))

/-- The error of a rollback that lacks backups. -/
def blocked (p : Preview) : String :=
  let missing := (p.items.filter (!·.hasBackup)).map (·.path.display)
  "Rollback blocked, missing backups: " ++ String.intercalate ", " missing ++
    " (use force to proceed)"

/-- Reverts a transaction on disk without recording it. -/
def execute (m : Manager) (options : Options) (t : Transaction) : Script Pending := do
  let r : Result := { transactionId := t.id }
  match t.status with
  | .rolledBack =>
    return ⟨{ r with
      success := true
      warnings := ["Transaction " ++ t.id ++ " is already rolled back"] }, []⟩
  | .completed =>
    let p ← m.previewOf t
    let r := { r with risk := p.risk, warnings := p.warnings }
    if !p.canProceed && !options.force then return ⟨{ r with errors := [blocked p] }, []⟩
    else
      let o ← Rollback.revertAll m.backups m.settings.verifyChecksums options t
      return ⟨{ r with
        rolledBackOperations := o.rolledBack
        errors := o.errors
        warnings := r.warnings ++ o.warnings
        skippedOperations := o.skipped }, o.consumedBackups⟩
  | status =>
    return ⟨{ r with
      errors := ["Transaction " ++ t.id ++ " is " ++ status.name ++
        ", only completed transactions can be rolled back"] }, []⟩

/-- Records that a transaction is rolled back, in memory where the document could be written. -/
def markRolledBack (m : Manager) (now : Instant) (id : String) :
    Script (Except Error Unit × Manager) := do
  match m.transaction? id with
  | none => return (.error (.transactionNotFound id), m)
  | some t =>
    let done := { t with status := .rolledBack, rollbackTimestamp := some now }
    match ← m.store.saveTransaction done with
    | .ok () => return (.ok (), { m with history := m.history.put id done })
    | .error e =>
      let back := { t with status := .completed, rollbackTimestamp := none }
      return (.error e, { m with history := m.history.put id back })

/-- Removes backups and says which could not be removed. -/
def removeBackups (b : Backups) : List String → Script (List String)
  | [] => return []
  | id :: ids => do
    let r ← b.remove id
    let rest ← removeBackups b ids
    match r with
    | .ok _ => return rest
    | .error e => return ("Failed to remove backup " ++ id ++ ": " ++ (Error.io e).message) :: rest

/-- Counts and announces a result. -/
def settle (m : Manager) (options : Options) (r : Result) : Result × Manager :=
  let r := { r with success := r.errors.isEmpty }
  let c := m.counters
  let c := if r.success then { c with rollbacksSucceeded := c.rollbacksSucceeded + 1 } else c
  let c := if options.dryRun then c
    else { c with operationsRolledBack := c.operationsRolledBack + r.rolledBackOperations }
  (r, { m with counters := c }.publish
    (.rollbackCompleted r.transactionId r.success r.rolledBackOperations))

/-- Records a rollback: the new status, and then the backups are let go. A rollback that failed, that
changed nothing or that was recorded before is only counted. -/
def finalize (m : Manager) (now : Instant) (options : Options) (p : Pending) :
    Script (Result × Manager) := do
  if p.result.success || !p.result.errors.isEmpty || options.dryRun then
    return m.settle options p.result
  else
    let (marked, m) ← m.markRolledBack now p.result.transactionId
    match marked with
    | .error e => return m.settle options { p.result with errors := p.result.errors ++ [e.message] }
    | .ok () =>
      if options.preserveBackups then return m.settle options p.result
      else
        let warnings ← removeBackups m.backups p.consumedBackups
        return m.settle options { p.result with warnings := p.result.warnings ++ warnings }

def attempted (m : Manager) : Manager :=
  { m with counters.rollbacksAttempted := m.counters.rollbacksAttempted + 1 }

/-- Rolls back a transaction. What goes wrong is in the result. -/
def rollback (m : Manager) (now : Instant) (options : Options) (id : String) :
    Script (Result × Manager) := do
  let m := m.attempted
  match m.transaction? id with
  | none => return (.failed id (Error.transactionNotFound id).message, m)
  | some t =>
    let m := m.publish (.rollbackStarted t.id)
    let p ← m.execute options t
    m.finalize now options p

end Manager
end Retrace
