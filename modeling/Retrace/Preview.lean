import Retrace.Backups
import Retrace.Risk
import Retrace.Text.Column

/-!
What reverting a transaction would do and how risky it is, found without changing anything.
-/
namespace Retrace

/-- What reverting one operation would do. -/
structure Preview.Item where
  operationId : String
  kind : Operation.Kind
  path : Path
  action : String
  hasBackup : Bool
  risk : Risk
  /-- In milliseconds. -/
  estimatedTime : Nat
  deriving Repr, Inhabited

structure Preview where
  transactionId : String
  /-- In the order in which the operations are reverted. -/
  items : List Preview.Item
  warnings : List String
  risk : Risk
  /-- No backup that is needed is missing or unusable. -/
  canProceed : Bool
  deriving Repr, Inhabited

namespace Preview

/-- What is said about one operation. -/
structure Assessment where
  action : String
  risk : Risk := .low
  hasBackup : Bool := true
  warning : Option String := none

def verb : Operation.Kind → String
  | .update => "Restore previous content of"
  | _ => "Restore deleted file"

/-- The assessment of an operation that replaced content, from the condition of its backup. -/
def assessContent (op : Operation) : Backups.Condition → Assessment
  | .intact => { action := verb op.kind ++ " " ++ op.path.display ++ " from backup" }
  | .notRequired =>
    match op.previousContent, op.kind with
    | none, .update => { action := "Remove " ++ op.path.display ++ " (did not exist before)" }
    | none, _ => { action := "Nothing to restore for " ++ op.path.display }
    | some _, _ => { action := verb op.kind ++ " " ++ op.path.display ++ " as an empty file" }
  | .missing =>
    { action := verb op.kind ++ " " ++ op.path.display ++ " (backup missing)"
      risk := .high
      hasBackup := false
      warning := some ("No backup found for " ++ op.path.display ++ " (" ++ op.id ++ ")") }
  | .corrupt =>
    { action := verb op.kind ++ " " ++ op.path.display ++ " (backup corrupt)"
      risk := .high
      hasBackup := false
      warning := some ("Backup for " ++ op.path.display ++ " does not match its checksum (" ++
        op.id ++ ")") }

/-- The assessment of a move, from whether the moved entry is still there. -/
def assessMove (op : Operation) (present : Bool) : Assessment :=
  match op.previousPath with
  | some previous =>
    { action := "Move " ++ op.path.display ++ " back to " ++ previous.display
      risk := if present then .low else .medium }
  | none =>
    { action := "Cannot move " ++ op.path.display ++ " back"
      risk := .medium
      warning := some ("Move of " ++ op.path.display ++ " has no recorded source path") }

def assess (b : Backups) (verify : Bool) (op : Operation) : Script Assessment := do
  let path := op.path.display
  match op.kind with
  | .create => return { action := "Delete created file " ++ path }
  | .copy => return { action := "Delete copied file " ++ path }
  | .symlink => return { action := "Remove symlink " ++ path }
  | .directoryCreate => return { action := "Remove directory " ++ path ++ " if empty" }
  | .update | .delete => return assessContent op (← b.inspect verify op)
  | .move =>
    if op.previousPath.isNone then return assessMove op false
    else return assessMove op (← Files.present op.path)
  | .chmod =>
    match op.previousMode with
    | some mode => return { action := "Restore mode " ++ Text.octal mode ++ " on " ++ path }
    | none =>
      return { action := "Cannot restore permissions of " ++ path ++ " (mode not recorded)"
               risk := .medium }
  | .envVariable =>
    return { action := "Revert environment change for " ++ path ++ " manually", risk := .medium }
  | .packageInstall =>
    return { action := "Uninstall package recorded at " ++ path ++ " manually", risk := .medium }

def itemOf (op : Operation) (a : Assessment) : Item :=
  { operationId := op.id, kind := op.kind, path := op.path, action := a.action,
    hasBackup := a.hasBackup, risk := a.risk, estimatedTime := op.kind.estimatedTime }

/-- Assesses operations one after the other. -/
def assessEach (b : Backups) (verify : Bool) : List Operation → Script (List (Item × Option String))
  | [] => return []
  | op :: ops => do
    let a ← assess b verify op
    let rest ← assessEach b verify ops
    return (itemOf op a, a.warning) :: rest

def ofTransaction (b : Backups) (verify : Bool) (t : Transaction) : Script Preview := do
  let found ← assessEach b verify t.reversed
  let items := found.map (·.1)
  return {
    transactionId := t.id
    items
    warnings := found.filterMap (·.2)
    risk := Risk.overall (items.map (·.risk))
    canProceed := items.all (·.hasBackup) }

def totalOperations (p : Preview) : Nat := p.items.length

/-- In milliseconds. -/
def estimatedDuration (p : Preview) : Nat := p.items.foldl (fun n i => n + i.estimatedTime) 0

def Item.toJson? (i : Item) : Option Json := do
  let path ← i.path.text?
  return .object
    [("operation_id", .string i.operationId), ("type", .string i.kind.name), ("path", .string path),
      ("action", .string i.action), ("has_backup", .bool i.hasBackup),
      ("risk_level", .string i.risk.name), ("estimated_time", .ofNat i.estimatedTime)]

/-- The preview as a document, none where a path is no text. -/
def toJson? (p : Preview) : Option Json := do
  let items ← p.items.mapM Item.toJson?
  return .object
    [("transaction_id", .string p.transactionId), ("operations", .array items),
      ("warnings", .ofStrings p.warnings), ("total_operations", .ofNat p.totalOperations),
      ("estimated_duration", .ofNat p.estimatedDuration),
      ("overall_risk_level", .string p.risk.name), ("can_proceed", .bool p.canProceed)]

end Preview
end Retrace
