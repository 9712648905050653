import Retrace.CommandLine.Parser

/-!
Writing a command line that reads back as a given invocation: options first, each valued one with an
equals sign, then two dashes and what goes by place.
-/
namespace Retrace.CommandLine

/-- A word from text. -/
def word (s : String) : Word := Utf8.encode s

def flag (name : String) (on : Bool) : List Word := if on then [word ("--" ++ name)] else []

def valued (name : String) (value : Word) : List Word := [word ("--" ++ name ++ "=") ++ value]

def valued? (name : String) : Option Word → List Word
  | none => []
  | some v => valued name v

/-- Arguments that go by place. -/
def byPlace (values : List Word) : List Word := if values = [] then [] else word "--" :: values

/-- The words of a command with its arguments. -/
def renderCommand : Command → List Word
  | .history limit => word "history" :: valued "limit" (word (toString limit))
  | .points => [word "points"]
  | .preview id => word "preview" :: byPlace [word id]
  | .undo id force dryRun preserveBackups =>
    word "undo" :: flag "force" force ++ flag "dry-run" dryRun ++
      flag "preserve-backups" preserveBackups ++ byPlace (id.toList.map word)
  | .checkpointCreate name description transactions =>
    word "checkpoint" :: word "create" :: valued "description" (word description) ++
      transactions.flatMap (fun id => valued "transaction" (word id)) ++ byPlace [word name]
  | .checkpointList => [word "checkpoint", word "list"]
  | .checkpointRollback id force dryRun parallel preserveBackups =>
    word "checkpoint" :: word "rollback" :: flag "force" force ++ flag "dry-run" dryRun ++
      flag "parallel" parallel ++ flag "preserve-backups" preserveBackups ++ byPlace [word id]
  | .checkpointDelete id => word "checkpoint" :: word "delete" :: byPlace [word id]
  | .stats => [word "stats"]
  | .clean days confirm =>
    word "clean" :: valued? "older-than-days" (days.map fun n => word (toString n)) ++
      flag "confirm" confirm
  | .write path content source =>
    word "write" :: valued? "content" (content.map word) ++ valued? "from" (source.map Path.bytes) ++
      byPlace [path.bytes]
  | .remove path => word "remove" :: byPlace [path.bytes]
  | .move source target => word "mv" :: byPlace [source.bytes, target.bytes]

def render (i : Invocation) : List Word :=
  flag "verbose" i.verbose ++ valued "project" i.project.bytes ++ renderCommand i.command

end Retrace.CommandLine
