import Retrace.Risk
import Retrace.Json.Basic

/-!
How a rollback is to be done and what came of it.
-/
namespace Retrace.Rollback

structure Options where
  /-- Go on past missing backups and failed operations. -/
  force : Bool := false
  /-- Change nothing. -/
  dryRun : Bool := false
  /-- Keep backups that were used. -/
  preserveBackups : Bool := false
  /-- The caller asks between steps, so transactions go one after the other. -/
  interactive : Bool := false
  /-- Roll back the transactions of a checkpoint at the same time. -/
  parallel : Bool := false
  deriving DecidableEq, Repr, Inhabited

/-- What reverting the operations of a transaction did. -/
structure Outcome where
  rolledBack : Nat := 0
  errors : List String := []
  warnings : List String := []
  /-- Operations that had nothing to revert. -/
  skipped : List String := []
  /-- Operations whose backups were restored. -/
  consumedBackups : List String := []
  deriving DecidableEq, Repr, Inhabited

/-- What came of rolling back a transaction. -/
structure Result where
  success : Bool := false
  transactionId : String
  rolledBackOperations : Nat := 0
  errors : List String := []
  warnings : List String := []
  skippedOperations : List String := []
  risk : Risk := .low
  deriving DecidableEq, Repr, Inhabited

namespace Result

/-- A rollback that never began. -/
def failed (transactionId error : String) : Result := { transactionId, errors := [error] }

/-- Some operations were reverted before the rollback failed. -/
def isPartial (r : Result) : Bool := !r.success && 0 < r.rolledBackOperations

def toJson (r : Result) : Json :=
  .object
    [("success", .bool r.success), ("transaction_id", .string r.transactionId),
      ("rolled_back_operations", .ofNat r.rolledBackOperations), ("errors", .ofStrings r.errors),
      ("warnings", .ofStrings r.warnings),
      ("skipped_operations", .ofStrings r.skippedOperations),
      ("risk_level", .string r.risk.name)]

end Result
end Retrace.Rollback
