import Retrace.Text.Utf8

/-!
The arguments that each command takes.
-/
namespace Retrace.CommandLine

inductive ValueKind
  | text
  | path
  /-- A number of 64 bits. -/
  | count
  /-- A number of 32 bits. -/
  | days
  deriving DecidableEq, Repr

/-- What giving an argument does. -/
inductive Effect
  | flag
  | value (k : ValueKind)
  /-- One value each time that it is given. -/
  | values (k : ValueKind)
  | help
  | version
  deriving DecidableEq, Repr

structure Argument where
  id : String
  short : Option Char
  /-- The name after two dashes; none for an argument that is known by its place. -/
  long : Option String
  effect : Effect
  required : Bool
  deriving DecidableEq, Repr

/-- A command: its options, its arguments by place, pairs that exclude each other, and commands below
it with all their names. A command with others below it does nothing by itself. -/
inductive Grammar
  | mk (options places : List Argument) (exclusive : List (String × String))
      (commands : List (List String × Grammar))
  deriving Repr

namespace Grammar

def options : Grammar → List Argument
  | mk o _ _ _ => o

def places : Grammar → List Argument
  | mk _ p _ _ => p

def exclusive : Grammar → List (String × String)
  | mk _ _ e _ => e

def commands : Grammar → List (List String × Grammar)
  | mk _ _ _ c => c

/-- The command below that a word names: its own name and its grammar. -/
def command? (g : Grammar) (word : Bytes) : Option (String × Grammar) := do
  let (names, c) ← g.commands.find? (·.1.any (Utf8.encode · = word))
  return (← names.head?, c)

/-- The word that asks for help, wherever a command below may be named. -/
def help : Bytes := Utf8.encode "help"

def helpOption : Argument := ⟨"help", some 'h', some "help", .help, false⟩
def versionOption : Argument := ⟨"version", some 'V', some "version", .version, false⟩
def verboseOption : Argument := ⟨"verbose", some 'v', some "verbose", .flag, false⟩
def projectOption : Argument := ⟨"project", some 'C', some "project", .value .path, false⟩

/-- Options of every command. -/
def everywhere : List Argument := [helpOption, verboseOption, projectOption]

def flagOption (id long : String) : Argument := ⟨id, none, some long, .flag, false⟩

def place (id : String) (k : ValueKind) (required : Bool) : Argument :=
  ⟨id, none, none, .value k, required⟩

/-- A command that does something. -/
def leaf (options places : List Argument) : Grammar := mk (options ++ everywhere) places [] []

def force : Argument := flagOption "force" "force"
def dryRun : Argument := flagOption "dry_run" "dry-run"
def preserveBackups : Argument := flagOption "preserve_backups" "preserve-backups"

def history : Grammar := leaf [⟨"limit", some 'l', some "limit", .value .count, false⟩] []

def undo : Grammar := leaf [force, dryRun, preserveBackups] [place "id" .text false]

def clean : Grammar :=
  leaf [⟨"older_than_days", none, some "older-than-days", .value .days, false⟩,
    flagOption "confirm" "confirm"] []

def write : Grammar :=
  mk ([⟨"content", none, some "content", .value .text, false⟩,
      ⟨"from", none, some "from", .value .path, false⟩] ++ everywhere)
    [place "path" .path true] [("content", "from")] []

def move : Grammar := leaf [] [place "from" .path true, place "to" .path true]

def checkpointCreate : Grammar :=
  leaf [⟨"description", some 'd', some "description", .value .text, false⟩,
    ⟨"transactions", some 't', some "transaction", .values .text, false⟩] [place "name" .text true]

def checkpointRollback : Grammar :=
  leaf [force, dryRun, flagOption "parallel" "parallel", preserveBackups] [place "id" .text true]

def checkpoint : Grammar :=
  mk everywhere [] []
    [(["create"], checkpointCreate), (["list"], leaf [] []), (["rollback"], checkpointRollback),
      (["delete"], leaf [] [place "id" .text true])]

/-- The whole program. -/
def program : Grammar :=
  mk (versionOption :: everywhere) [] []
    [(["history"], history), (["points"], leaf [] []),
      (["preview"], leaf [] [place "id" .text true]), (["undo", "rollback"], undo),
      (["checkpoint"], checkpoint), (["stats"], leaf [] []), (["clean"], clean),
      (["write"], write), (["remove"], leaf [] [place "path" .path true]), (["mv"], move)]

end Grammar
end Retrace.CommandLine
