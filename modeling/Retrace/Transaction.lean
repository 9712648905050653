import Retrace.Operation
import Retrace.Json.Reader
import Retrace.Json.Printer

/-!
A transaction: the operations of one command, undone together, and its form in a document.
-/
namespace Retrace

inductive Transaction.Status
  | pending
  | completed
  | failed
  | rolledBack
  deriving DecidableEq, Repr, Inhabited

structure Transaction where
  /-- Also names the document. -/
  id : String
  name : String
  description : String
  command : String
  /-- In the order in which they were done. -/
  operations : List Operation
  timestamp : Instant
  status : Transaction.Status
  rollbackTimestamp : Option Instant
  metadata : Metadata
  deriving Repr, Inhabited

namespace Transaction

namespace Status

def all : List Status := [pending, completed, failed, rolledBack]

def name : Status → String
  | pending => "pending"
  | completed => "completed"
  | failed => "failed"
  | rolledBack => "rolled_back"

def ofName? (s : String) : Option Status := all.find? (·.name = s)

theorem ofName?_name (s : Status) : ofName? s.name = some s := by cases s <;> decide

def ofWritten? (w : Json.Written) : Option Status := w.variant? >>= ofName?

end Status

/-- A transaction that has just been opened. -/
def start (id : String) (now : Instant) (name description command : String)
    (metadata : Metadata) : Transaction :=
  { id, name, description, command, operations := [], timestamp := now, status := .pending,
    rollbackTimestamp := none, metadata }

def isRolledBack (t : Transaction) : Bool := t.status = .rolledBack

/-- Newer first. -/
def newestFirst (t u : Transaction) : Bool :=
  u.timestamp.lt t.timestamp || (t.timestamp = u.timestamp && t.id ≤ u.id)

/-- The operations in the order in which they are reverted. -/
def reversed (t : Transaction) : List Operation := t.operations.reverse

def fieldNames : List String :=
  ["id", "name", "description", "command", "operations", "timestamp", "status",
    "rollback_timestamp", "metadata"]

def toJson? (t : Transaction) : Option Json := do
  let operations ← t.operations.mapM Operation.toJson?
  return .object <|
    [("id", .string t.id), ("name", .string t.name), ("description", .string t.description),
      ("command", .string t.command), ("operations", .array operations),
      ("timestamp", .string t.timestamp.toText), ("status", .string t.status.name)] ++
    Operation.optionalField "rollback_timestamp" (.string ·.toText) t.rollbackTimestamp ++
    t.metadata.toFields

/-- Reads the document form. Metadata lie two levels deep, those of an operation four. -/
def ofWritten? (w : Json.Written) : Option Transaction := do
  let r ← w.record? fieldNames
  return {
    id := ← r.required "id" Json.Written.text?
    name := ← r.required "name" Json.Written.text?
    description := ← r.required "description" Json.Written.text?
    command := ← r.required "command" Json.Written.text?
    operations := ← r.required "operations" fun w => do
      (← w.items?).mapM (Operation.ofWritten? (Json.greatestDepth - 4))
    timestamp := ← r.required "timestamp" fun w => w.text? >>= Instant.ofText?
    status := ← r.required "status" Status.ofWritten?
    rollbackTimestamp := ← r.optional "rollback_timestamp" fun w => w.text? >>= Instant.ofText?
    metadata := ← r.withDefault "metadata" [] (Metadata.ofWritten? (Json.greatestDepth - 2)) }

/-- The text of the document. -/
def toText? (t : Transaction) : Option String := t.toJson?.map Json.indented

def ofText? (s : String) : Option Transaction := Json.Written.ofText? s >>= ofWritten?

end Transaction
end Retrace
