import Retrace.CommandLine.Action
import Retrace.Text.Column

/-!
Actions that show what is kept and change nothing, and the deletion of old transactions.
-/
namespace Retrace.CommandLine

open CommandLine.Action (say sayAll ofScript)

/-- A row of the table of transactions. -/
def historyRow (id date status operations name : String) : String :=
  Text.padRight 38 id ++ " " ++ Text.padRight 20 date ++ " " ++ Text.padRight 12 status ++ " " ++
    Text.padRight 5 operations ++ " " ++ name

def rowOf (t : Transaction) : String :=
  historyRow t.id t.timestamp.display t.status.name (toString t.operations.length) t.name

/-- The newest transactions, and how many more there are. -/
def historyLines (ts : List Transaction) (limit : Nat) : List String :=
  ["📜 Transaction History", ""] ++
  if ts.isEmpty then ["No transactions recorded."]
  else
    historyRow "Transaction ID" "Date" "Status" "Ops" "Name" ::
    String.ofList (List.replicate 100 '-') ::
    (ts.take limit).map rowOf ++
    if limit < ts.length then ["  ... and " ++ toString (ts.length - limit) ++ " more"] else []

def history (limit : Nat) : Action Unit := do
  sayAll (historyLines (← Action.manager).transactions limit)

def pointLines (p : Rollback.Point) : List String :=
  ["  " ++ p.transactionId ++ " " ++ p.name ++ " [" ++ p.risk.name ++ "]",
    "      command: " ++ p.command ++ "  ops: " ++ toString p.operationCount ++ "  at: " ++
      p.timestamp.display] ++
  if p.canProceed then [] else ["      backups missing, --force required"]

def points : Action Unit := do
  sayAll ["⏪ Rollback Points", ""]
  let ps ← ofScript (← Action.manager).points
  if ps.isEmpty then say "Nothing to roll back." else sayAll (ps.flatMap pointLines)

def stats : Action Unit := do
  let m ← Action.manager
  let ps ← ofScript m.points
  sayAll
    ["📊 Statistics",
      "  Stored transactions: " ++ toString m.history.length,
      "  Checkpoints: " ++ toString m.checkpoints.length,
      "  Rollback points: " ++ toString ps.length,
      "  Session started: " ++ m.counters.sessionStarted.display,
      "  Transactions this session: " ++ toString m.counters.transactionsStarted,
      "  Rollbacks this session: " ++ toString m.counters.rollbacksAttempted,
      "  State directory: " ++ m.settings.stateDirectory.display]

def itemLine (n : Nat) (i : Preview.Item) : String :=
  "  " ++ toString n ++ ". [" ++ i.risk.name ++ "] " ++ i.kind.name ++ " " ++ i.action

def warningLines (warnings : List String) : List String :=
  if warnings.isEmpty then [] else "" :: "⚠️  Warnings:" :: warnings.map ("  - " ++ ·)

def previewLines (id : String) (p : Preview) : List String :=
  ["🔍 Rollback preview: " ++ id, "", "  Operations: " ++ toString p.totalOperations,
    "  Risk: " ++ p.risk.name, "  Estimated time: ~" ++ toString p.estimatedDuration ++ "ms", ""] ++
  (p.items.zipIdx 1).map (fun (i, n) => itemLine n i) ++ warningLines p.warnings ++
  ["", if p.canProceed then "[OK] Rollback can proceed"
    else "[BLOCKED] Required backups are missing, use --force to proceed"]

def preview (id : String) : Action Unit := do
  let p ← Action.ofExcept (← ofScript ((← Action.manager).preview id))
  sayAll (previewLines id p)

/-- The transactions of a checkpoint that are still kept. -/
def available (m : Manager) (c : Checkpoint) : Nat :=
  c.transactionIds.countP fun id => (m.transaction? id).isSome

def checkpointLines (m : Manager) (c : Checkpoint) : List String :=
  ["  " ++ c.id ++ " " ++ c.name ++ " (" ++ toString (available m c) ++ "/" ++
    toString c.transactionIds.length ++ " transactions available)"] ++
  (if c.description = "" then [] else ["      " ++ c.description]) ++
  ["      created: " ++ c.timestamp.display]

def checkpointList : Action Unit := do
  sayAll ["📌 Checkpoints", ""]
  let m ← Action.manager
  let cs := m.checkpointList
  if cs.isEmpty then say "No checkpoints found." else sayAll (cs.flatMap (checkpointLines m))

/-- Deletes transactions, once that is confirmed. -/
def clean (olderThanDays : Option Nat) (confirm : Bool) : Action Unit := do
  if confirm then
    let d ← get
    match d.manager.clear? d.now olderThanDays with
    | none => throw .noDate
    | some s =>
      let removed ← Action.adopt (← ofScript s)
      say ("[OK] Removed " ++ toString removed ++ " transactions")
  else
    let scope := match olderThanDays with
      | some days => "transactions older than " ++ toString days ++ " days"
      | none => "all transactions"
    sayAll
      ["[WARNING] This will delete " ++ scope ++ " and their backups.",
        "  Re-run with --confirm to proceed."]

end Retrace.CommandLine
