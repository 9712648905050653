import Retrace.Checkpoint
import Retrace.Error
import Retrace.Files
import Retrace.Transaction

/-!
Where documents are kept: below the state directory, one file for each transaction and each
checkpoint, named by its id.
-/
namespace Retrace

structure Store where
  root : Path
  deriving DecidableEq, Repr, Inhabited

namespace Store

def transactionsDirectory (s : Store) : Path := s.root.child "transactions"
def backupsDirectory (s : Store) : Path := s.root.child "backups"
def checkpointsDirectory (s : Store) : Path := s.root.child "checkpoints"

def transactionPath (s : Store) (id : String) : Path := s.transactionsDirectory.child (id ++ ".json")
def checkpointPath (s : Store) (id : String) : Path := s.checkpointsDirectory.child (id ++ ".json")

/-- Makes the directories, as far as they are missing. -/
def ensureDirectories (s : Store) : Script (Except OsError Unit) := ExceptT.run do
  Files.makePath s.transactionsDirectory
  Files.makePath s.backupsDirectory
  Files.makePath s.checkpointsDirectory

/-- Writes a document; `text` is none where a path in it is no text. -/
def save (entity : Entity) (id : String) (p : Path) (text : Option String) :
    Script (Except Error Unit) := do
  match text with
  | none => return .error (.persistence entity id "path contains invalid UTF-8 characters")
  | some text =>
    match ← (Files.writeAtomic p (Utf8.encode text)).run with
    | .ok () => return .ok ()
    | .error e => return .error (.persistence entity id (Error.io e).message)

def saveTransaction (s : Store) (t : Transaction) : Script (Except Error Unit) :=
  save .transaction t.id (s.transactionPath t.id) t.toText?

def saveCheckpoint (s : Store) (c : Checkpoint) : Script (Except Error Unit) :=
  save .checkpoint c.id (s.checkpointPath c.id) (some c.toText)

/-- Removes a document; the answer is false where there was none. -/
def deleteTransaction (s : Store) (id : String) : Script (Except OsError Bool) :=
  (Files.removeIfPresent (s.transactionPath id)).run

def deleteCheckpoint (s : Store) (id : String) : Script (Except OsError Bool) :=
  (Files.removeIfPresent (s.checkpointPath id)).run

/-- A name that a document may have. -/
def isDocumentName (name : Bytes) : Bool := Path.extension? name = some (Utf8.encode "json")

/-- The documents among the named files; what cannot be read is passed over. -/
def readEach {α : Type} (read : String → Option α) (directory : Path) :
    List Bytes → Script (List α)
  | [] => return []
  | name :: names => do
    if isDocumentName name then
      let text ← (Files.readText (directory.join ⟨name⟩)).run
      let rest ← readEach read directory names
      match text with
      | .ok text => return (read text).toList ++ rest
      | .error _ => return rest
    else readEach read directory names

/-- All documents of a directory, none where it is missing. -/
def loadAll {α : Type} (read : String → Option α) (directory : Path) :
    Script (Except OsError (List α)) := do
  match ← Script.ask (.list directory) with
  | .ok names => return .ok (← readEach read directory names)
  | .error e => if e.isNotFound then return .ok [] else return .error e

def loadTransactions (s : Store) : Script (Except OsError (List Transaction)) :=
  loadAll Transaction.ofText? s.transactionsDirectory

def loadCheckpoints (s : Store) : Script (Except OsError (List Checkpoint)) :=
  loadAll Checkpoint.ofText? s.checkpointsDirectory

end Store
end Retrace
