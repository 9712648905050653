import Retrace.OsError

/-!
Why a request fails, and the text that says so.
-/
namespace Retrace

/-- The documents that are kept on disk. -/
inductive Entity
  | transaction
  | checkpoint
  deriving DecidableEq, Repr

def Entity.name : Entity → String
  | .transaction => "transaction"
  | .checkpoint => "checkpoint"

inductive Error
  /-- The request does not fit the state of the transaction under way. -/
  | state (reason : String)
  /-- A transaction is under way already. -/
  | conflict (id : String)
  | transactionNotFound (id : String)
  | checkpointNotFound (id : String)
  | backupFailed (id reason : String)
  | backupMissing (id : String)
  | integrityMismatch (id : String)
  | persistence (entity : Entity) (id reason : String)
  | invalidOperation (reason : String)
  | config (reason : String)
  | io (cause : OsError)
  /-- A document is not of the form that it should have. -/
  | json
  | toml
  | other (reason : String)
  deriving DecidableEq, Repr

namespace Error

def message : Error → String
  | .state reason => "Invalid transaction state: " ++ reason
  | .conflict id => "Transaction already in progress: " ++ id
  | .transactionNotFound id => "Transaction not found: " ++ id
  | .checkpointNotFound id => "Checkpoint not found: " ++ id
  | .backupFailed id reason => "Failed to write backup for operation " ++ id ++ ": " ++ reason
  | .backupMissing id => "Backup missing for operation " ++ id
  | .integrityMismatch id => "Backup integrity check failed for operation " ++ id
  | .persistence entity id reason =>
    "Failed to persist " ++ entity.name ++ " " ++ id ++ ": " ++ reason
  | .invalidOperation reason => "Invalid operation: " ++ reason
  | .config reason => "Invalid configuration: " ++ reason
  | .io cause => "IO error: " ++ cause.message
  | .json => "JSON error"
  | .toml => "TOML error"
  | .other reason => reason

/-- The request came at the wrong time. -/
def isStateError : Error → Bool
  | .state _ => true
  | .conflict _ => true
  | _ => false

end Error
end Retrace
