import Retrace.CommandLine.Listing
import Retrace.Text.Elapsed

/-!
Actions that roll back transactions and checkpoints, and those that make and delete checkpoints.
-/
namespace Retrace.CommandLine

open CommandLine.Action (say sayAll ofScript)
open Rollback (Options Result)

def errorLines (errors : List String) : List String :=
  if errors.isEmpty then [] else "" :: "❌ Errors:" :: errors.map ("  - " ++ ·)

def verdict (r : Result) : String :=
  if r.success then "[OK] Rollback completed successfully!"
  else if r.isPartial then
    "[WARNING] Rollback partially applied, re-run to retry the remaining operations"
  else "[FAILED] Nothing was rolled back"

def summaryLines (elapsed : Nat) (r : Result) : List String :=
  ["📊 Rollback Summary " ++ r.transactionId,
    "  Reverted: " ++ toString r.rolledBackOperations,
    "  Skipped: " ++ toString r.skippedOperations.length,
    "  Failed: " ++ toString r.errors.length,
    "  Risk: " ++ r.risk.name,
    "  Duration: " ++ Text.elapsed elapsed] ++
  warningLines r.warnings ++ errorLines r.errors ++ ["", verdict r]

/-- The transaction that is undone when none is named. -/
def newestPoint : Action (Option String) := do
  return ((← ofScript (← Action.manager).points).head?).map (·.transactionId)

def undoOne (id : String) (options : Options) : Action Unit := do
  say (if options.dryRun then "🔍 Dry run - no changes will be made" else "⏪ Rolling back " ++ id)
  say ""
  let d ← get
  let r ← Action.adopt (← ofScript (d.manager.rollback d.now options id))
  sayAll (summaryLines d.elapsed r)
  if !r.success then Action.stop (.other ("Rollback of " ++ id ++ " failed"))

/-- Rolls back a transaction, without an id the newest that can be. -/
def undo (id : Option String) (options : Options) : Action Unit := do
  match id with
  | some id => undoOne id options
  | none =>
    match ← newestPoint with
    | some id => undoOne id options
    | none => say "Nothing to roll back."

def checkpointCreate (name description : String) (transactions : List String) : Action Unit := do
  let id ← Action.freshId
  let now := (← get).now
  let ids := if transactions.isEmpty then none else some transactions
  let id ← Action.managed fun m => m.createCheckpoint id now name description ids []
  match (← Action.manager).checkpoint? id with
  | none => Action.stop (.checkpointNotFound id)
  | some c =>
    sayAll
      ["[OK] Checkpoint created: " ++ id, "  Name: " ++ c.name,
        "  Transactions: " ++ toString c.transactionIds.length]

def checkpointRollback (id : String) (options : Options) : Action Unit := do
  if !(← Action.manager).checkpoints.has id then Action.stop (.checkpointNotFound id)
  say ("⏪ Rolling back checkpoint " ++ id)
  if options.parallel then
    say "Parallel mode: transactions touching the same files may interfere"
  sayAll ["", ""]
  let d ← get
  let rs ← Action.managed fun m => m.rollbackCheckpoint d.now options id
  sayAll (rs.flatMap fun r => summaryLines d.elapsed r ++ [""])
  let failed := rs.countP (!·.success)
  if failed = 0 then say ("[OK] Rolled back " ++ toString rs.length ++ " transactions")
  else Action.stop (.other
    (toString failed ++ " of " ++ toString rs.length ++ " transactions failed to roll back"))

def checkpointDelete (id : String) : Action Unit := do
  Action.managed fun m => m.deleteCheckpoint id
  say ("[OK] Checkpoint deleted: " ++ id)

end Retrace.CommandLine
