import Retrace.Backups
import Retrace.Rollback.Types

/-!
Reverting the operations of a transaction on disk, the last one first.
-/
namespace Retrace.Rollback

/-- What reverting one operation did. -/
inductive Reverted
  | done
  /-- There was nothing to revert. -/
  | skipped
  deriving DecidableEq, Repr

/-- The end of an attempt to revert one operation. -/
structure Attempt where
  verdict : Except Error Reverted
  warnings : List String := []
  /-- The backup of the operation was restored. -/
  consumed : Bool := false

namespace Attempt

def done : Attempt := { verdict := .ok .done }
def skipped : Attempt := { verdict := .ok .skipped }
def failed (e : Error) : Attempt := { verdict := .error e }

/-- Done, where an operation on files went well. -/
def ofResult : Except OsError Unit → Attempt
  | .ok () => done
  | .error e => failed (.io e)

/-- Done, where a file was there to be removed. -/
def ofRemoval : Except OsError Bool → Attempt
  | .ok true => done
  | .ok false => skipped
  | .error e => failed (.io e)

end Attempt

def removeCreated (p : Path) : Script Attempt := do
  return .ofRemoval (← (Files.removeIfPresent p).run)

/-- Moves an entry back, unless its former place is taken; force makes it give way. -/
def moveBack (force : Bool) (op : Operation) : Script Attempt := do
  match op.previousPath with
  | none => return .failed (.invalidOperation "move has no previous path")
  | some former =>
    let moved ← Files.present op.path
    let back ← Files.present former
    if !moved then
      if back then return .skipped
      else return .failed (.invalidOperation
        ("file not found at " ++ op.path.display ++ " or " ++ former.display))
    else if back && !force then
      return .failed (.invalidOperation ("original location occupied: " ++ former.display))
    else return .ofResult (← (Files.move op.path former).run)

def removeLink (p : Path) : Script Attempt := do
  match ← Script.ask (.linkStatus p) with
  | .ok .link => return .ofResult (← Script.ask (.removeFile p))
  | .ok _ => return .failed (.invalidOperation (p.display ++ " is no longer a symlink"))
  | .error e => if e.isNotFound then return .skipped else return .failed (.io e)

/-- Removes a directory that is empty. -/
def removeDirectory (p : Path) : Script Attempt := do
  if !(← Files.present p) then return .skipped
  match ← Script.ask (.list p) with
  | .error e => return .failed (.io e)
  | .ok [] => return .ofResult (← Script.ask (.removeDirectory p))
  | .ok _ =>
    return { Attempt.skipped with
      warnings := ["Directory not empty, left in place: " ++ p.display] }

def restoreMode (op : Operation) : Script Attempt := do
  match op.previousMode with
  | none => return .skipped
  | some mode =>
    if ← Files.present op.path then return .ofResult (← Script.ask (.setMode op.path mode))
    else return .skipped

/-- Puts back content that needs no backup. -/
def restoreKnown (op : Operation) : Script Attempt := do
  match op.previousContent with
  | some content =>
    return .ofResult (← (Files.writeAtomic op.path (Utf8.encode content)).run)
  | none => if op.kind = .update then removeCreated op.path else return .skipped

/-- The bytes do not have the digest that was recorded. -/
def isDamaged (verify : Bool) (op : Operation) (content : Bytes) : Bool :=
  verify && op.checksum.any (· ≠ Sha256.hexDigest content)

/-- Puts back content from the backup. Force makes do with bytes of another digest. -/
def restoreBackup (b : Backups) (verify force : Bool) (op : Operation) : Script Attempt := do
  match ← b.read op.id with
  | .error e => return .failed (.io e)
  | .ok none => return .failed (.backupMissing op.id)
  | .ok (some content) =>
    let damaged := isDamaged verify op content
    if damaged && !force then return .failed (.integrityMismatch op.id)
    else
      let warnings := if damaged then
        ["Restored " ++ op.path.display ++ " from a backup that failed its checksum"] else []
      match ← (Files.writeAtomic op.path content).run with
      | .ok () => return { Attempt.done with warnings, consumed := true }
      | .error e => return { Attempt.failed (.io e) with warnings }

def revert (b : Backups) (verify force : Bool) (op : Operation) : Script Attempt :=
  match op.kind with
  | .create | .copy => removeCreated op.path
  | .update | .delete =>
    if op.requiresBackup then restoreBackup b verify force op else restoreKnown op
  | .move => moveBack force op
  | .symlink => removeLink op.path
  | .directoryCreate => removeDirectory op.path
  | .chmod => restoreMode op
  | .envVariable | .packageInstall =>
    return { Attempt.skipped with
      warnings := [op.kind.name ++ " on " ++ op.path.display ++ " must be reverted manually"] }

/-- The outcome after one more operation. -/
def Outcome.add (o : Outcome) (op : Operation) (a : Attempt) : Outcome :=
  let o := { o with
    warnings := o.warnings ++ a.warnings
    consumedBackups := o.consumedBackups ++ (if a.consumed then [op.id] else []) }
  match a.verdict with
  | .ok .done => { o with rolledBack := o.rolledBack + 1 }
  | .ok .skipped => { o with skipped := o.skipped ++ [op.id] }
  | .error e =>
    { o with errors := o.errors ++ [op.kind.name ++ " " ++ op.path.display ++ ": " ++ e.message] }

/-- Reverts operations in the given order, up to the first failure unless forced. -/
def revertEach (b : Backups) (verify : Bool) (options : Options) :
    Outcome → List Operation → Script Outcome
  | o, [] => return o
  | o, op :: ops => do
    if options.dryRun then
      revertEach b verify options { o with rolledBack := o.rolledBack + 1 } ops
    else
      let a ← revert b verify options.force op
      let o := o.add op a
      match a.verdict, options.force with
      | .error _, false => return o
      | _, _ => revertEach b verify options o ops

/-- Reverts the operations of a transaction, the last one first. -/
def revertAll (b : Backups) (verify : Bool) (options : Options) (t : Transaction) : Script Outcome :=
  revertEach b verify options {} t.reversed

end Retrace.Rollback
