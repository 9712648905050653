import Retrace.Metadata
import Retrace.Path
import Retrace.Time.Reader

/-!
A recorded change of one file, with what is needed to revert it, and its form in a document.
-/
namespace Retrace

inductive Operation.Kind
  | create
  | update
  | delete
  | move
  | copy
  | symlink
  | chmod
  | envVariable
  | packageInstall
  | directoryCreate
  deriving DecidableEq, Repr, Inhabited

structure Operation where
  /-- Also names the backup. -/
  id : String
  kind : Operation.Kind
  path : Path
  /-- Where the entry stood before a move. -/
  previousPath : Option Path
  /-- The text before the change, none where there was no file. -/
  previousContent : Option String
  currentContent : Option String
  previousMode : Option Nat
  /-- The digest of the bytes before the change. -/
  checksum : Option String
  timestamp : Instant
  metadata : Metadata
  deriving Repr, Inhabited

namespace Operation

namespace Kind

def all : List Kind :=
  [create, update, delete, move, copy, symlink, chmod, envVariable, packageInstall,
    directoryCreate]

def name : Kind → String
  | create => "CREATE"
  | update => "UPDATE"
  | delete => "DELETE"
  | move => "MOVE"
  | copy => "COPY"
  | symlink => "SYMLINK"
  | chmod => "CHMOD"
  | envVariable => "ENV_VARIABLE"
  | packageInstall => "PACKAGE_INSTALL"
  | directoryCreate => "DIRECTORY_CREATE"

def ofName? (s : String) : Option Kind := all.find? (·.name = s)

/-- Reverting needs the content that was replaced. -/
def needsBackup (k : Kind) : Bool := k = update || k = delete

/-- Milliseconds that reverting is expected to take. -/
def estimatedTime : Kind → Nat
  | create | copy | symlink | chmod | directoryCreate => 50
  | move | envVariable => 100
  | update => 150
  | delete => 200
  | packageInstall => 5000

theorem ofName?_name (k : Kind) : ofName? k.name = some k := by cases k <;> decide

def ofWritten? (w : Json.Written) : Option Kind := w.variant? >>= ofName?

end Kind

/-- A backup is written where content is replaced that is known and not empty. -/
def requiresBackup (op : Operation) : Bool :=
  op.kind.needsBackup && op.previousContent.any (· ≠ "")

def fieldNames : List String :=
  ["id", "type", "path", "previous_path", "previous_content", "current_content", "previous_mode",
    "checksum", "timestamp", "metadata"]

/-- The field of a value that may be absent. -/
def optionalField {α : Type} (name : String) (f : α → Json) : Option α → List (String × Json)
  | none => []
  | some x => [(name, f x)]

/-- The document form; none where a path is no text. -/
def toJson? (op : Operation) : Option Json := do
  let path ← op.path.text?
  let previousPath ← match op.previousPath with
    | none => some none
    | some p => p.text?.map some
  return .object <|
    [("id", .string op.id), ("type", .string op.kind.name), ("path", .string path)] ++
    optionalField "previous_path" .string previousPath ++
    optionalField "previous_content" .string op.previousContent ++
    optionalField "current_content" .string op.currentContent ++
    optionalField "previous_mode" .ofNat op.previousMode ++
    optionalField "checksum" .string op.checksum ++
    [("timestamp", .string op.timestamp.toText)] ++ op.metadata.toFields

/-- Reads the document form; metadata nest at most `depth` levels. -/
def ofWritten? (depth : Nat) (w : Json.Written) : Option Operation := do
  let r ← w.record? fieldNames
  return {
    id := ← r.required "id" Json.Written.text?
    kind := ← r.required "type" Kind.ofWritten?
    path := .ofString (← r.required "path" Json.Written.text?)
    previousPath := (← r.optional "previous_path" Json.Written.text?).map .ofString
    previousContent := ← r.optional "previous_content" Json.Written.text?
    currentContent := ← r.optional "current_content" Json.Written.text?
    previousMode := ← r.optional "previous_mode" (Json.Written.natural? 32)
    checksum := ← r.optional "checksum" Json.Written.text?
    timestamp := ← r.required "timestamp" fun w => w.text? >>= Instant.ofText?
    metadata := ← r.withDefault "metadata" [] (Metadata.ofWritten? depth) }

end Operation
end Retrace
