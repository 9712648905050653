import Retrace.Error
import Retrace.Files
import Retrace.Json.Record
import Retrace.Json.Printer
import Retrace.Toml.Reader

/-!
Settings, and where they are found: beside the documents of a project or in the user's own directory.
-/
namespace Retrace

structure Settings where
  /-- Transactions that are kept; beyond that the oldest go. -/
  maxTransactions : Nat := 50
  /-- Transactions that a checkpoint takes when none are named. -/
  checkpointSize : Nat := 10
  /-- The directory of the documents, seen from the project. -/
  stateDirectory : Path := .ofString ".xaheen"
  /-- Digests of backups are checked before they are used. -/
  verifyChecksums : Bool := true
  /-- Events that a subscriber may fall behind. -/
  eventCapacity : Nat := 256
  deriving DecidableEq, Repr, Inhabited

namespace Settings

/-- The first rule that the settings break. -/
def fault? (s : Settings) : Option String :=
  if s.maxTransactions = 0 then some "max_transactions must be at least 1"
  else if s.eventCapacity = 0 then some "event_capacity must be at least 1"
  else if s.stateDirectory.isAbsolute then some "state_dir must be relative to the project root"
  else none

def natural? : Toml.Item → Option Nat
  | .value (.integer n) => if 0 ≤ n then some n.toNat else none
  | _ => none

def flag? : Toml.Item → Option Bool
  | .value (.bool b) => some b
  | _ => none

def text? : Toml.Item → Option String
  | .value (.string s) => some s
  | _ => none

/-- A field of a table, or the default where it is absent. -/
def field? {α : Type} (t : Toml.Table) (name : String) (default : α) (read : Toml.Item → Option α) :
    Option α :=
  match t.find? name with
  | none => some default
  | some x => read x

def ofTable? (t : Toml.Table) : Option Settings := do
  let d : Settings := {}
  return {
    maxTransactions := ← field? t "max_transactions" d.maxTransactions natural?
    checkpointSize := ← field? t "default_checkpoint_size" d.checkpointSize natural?
    stateDirectory := ← field? t "state_dir" d.stateDirectory fun x => (text? x).map .ofString
    verifyChecksums := ← field? t "verify_checksums" d.verifyChecksums flag?
    eventCapacity := ← field? t "event_capacity" d.eventCapacity natural? }

def fieldNames : List String :=
  ["max_transactions", "default_checkpoint_size", "state_dir", "verify_checksums",
    "event_capacity"]

def ofWritten? (w : Json.Written) : Option Settings := do
  let r ← w.record? fieldNames
  let d : Settings := {}
  let natural := Json.Written.natural? 64
  return {
    maxTransactions := ← r.withDefault "max_transactions" d.maxTransactions natural
    checkpointSize := ← r.withDefault "default_checkpoint_size" d.checkpointSize natural
    stateDirectory := ← r.withDefault "state_dir" d.stateDirectory fun w => w.text?.map .ofString
    verifyChecksums := ← r.withDefault "verify_checksums" d.verifyChecksums Json.Written.flag?
    eventCapacity := ← r.withDefault "event_capacity" d.eventCapacity natural }

def toJson? (s : Settings) : Option Json := do
  let stateDirectory ← s.stateDirectory.text?
  return .object
    [("max_transactions", .ofNat s.maxTransactions),
      ("default_checkpoint_size", .ofNat s.checkpointSize), ("state_dir", .string stateDirectory),
      ("verify_checksums", .bool s.verifyChecksums), ("event_capacity", .ofNat s.eventCapacity)]

/-- The settings that the text of a file says, checked. -/
def ofText (text : String) : Except Error Settings :=
  match Toml.table? text >>= ofTable? with
  | none => .error .toml
  | some s =>
    match s.fault? with
    | some reason => .error (.config reason)
    | none => .ok s

/-- Reads a settings file. -/
def read (p : Path) : Script (Except Error Settings) := do
  match ← (Files.readText p).run with
  | .ok text => return ofText text
  | .error e => return .error (.io e)

/-- The first file that there is and that can be used. -/
def firstUsable : List Path → Script Settings
  | [] => return {}
  | p :: ps => do
    match ← Script.ask (.status p) with
    | .error _ => firstUsable ps
    | .ok _ =>
      match ← read p with
      | .ok s => return s
      | .error _ => firstUsable ps

/-- The settings of a project; `configDirectory` holds those of the user. -/
def load (project configDirectory : Path) : Script Settings :=
  firstUsable
    [(project.child ".xaheen").child "config.toml",
      (configDirectory.child "xaheen").child "config.toml"]

end Settings
end Retrace
