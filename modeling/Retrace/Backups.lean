import Retrace.Digest.Sha256
import Retrace.Error
import Retrace.Files
import Retrace.Transaction

/-!
Backups: the bytes that operations replaced, in one file for each operation.
-/
namespace Retrace

structure Backups where
  directory : Path
  deriving DecidableEq, Repr, Inhabited

namespace Backups

inductive Condition
  /-- The operation is reverted without a backup. -/
  | notRequired
  | intact
  | missing
  /-- The bytes cannot be read or do not have the recorded digest. -/
  | corrupt
  deriving DecidableEq, Repr

def pathFor (b : Backups) (id : String) : Path := b.directory.child (id ++ ".bak")

def write (b : Backups) (id : String) (content : Bytes) : Script (Except Error Unit) := do
  match ← (Files.writeAtomic (b.pathFor id) content).run with
  | .ok () => return .ok ()
  | .error e => return .error (.backupFailed id (Error.io e).message)

/-- The bytes of a backup, none where there is no backup. -/
def read (b : Backups) (id : String) : Script (Except OsError (Option Bytes)) := do
  match ← Script.ask (.read (b.pathFor id)) with
  | .ok c => return .ok (some c)
  | .error e => if e.isNotFound then return .ok none else return .error e

def present (b : Backups) (id : String) : Script Bool := Files.present (b.pathFor id)

/-- Removes a backup; the answer is false where there was none. -/
def remove (b : Backups) (id : String) : Script (Except OsError Bool) :=
  (Files.removeIfPresent (b.pathFor id)).run

/-- Removes the backups of the given operations as far as it can, and counts them. -/
def removeEach (b : Backups) : List Operation → Script Nat
  | [] => return 0
  | op :: ops => do
    let gone ← if op.requiresBackup then b.remove op.id else pure (.ok false)
    let others ← b.removeEach ops
    match gone with
    | .ok true => return others + 1
    | _ => return others

def removeFor (b : Backups) (t : Transaction) : Script Nat := b.removeEach t.operations

/-- The condition of the backup that an operation needs. -/
def inspect (b : Backups) (verify : Bool) (op : Operation) : Script Condition := do
  if !op.requiresBackup then return .notRequired
  match verify, op.checksum with
  | true, some expected =>
    match ← b.read op.id with
    | .ok (some c) => return if Sha256.hexDigest c = expected then .intact else .corrupt
    | .ok none => return .missing
    | .error _ => return .corrupt
  | _, _ => if ← b.present op.id then return .intact else return .missing

end Backups
end Retrace
