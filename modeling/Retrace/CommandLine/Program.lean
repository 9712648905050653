import Retrace.CommandLine.Change
import Retrace.CommandLine.Parser
import Retrace.CommandLine.Undo

/-!
A run of the program: the command line is read, the project is opened with its settings, and the
command is carried out. What is printed and the exit code are the result.
-/
namespace Retrace.CommandLine

/-- What a run depends on beside the files. -/
structure Surroundings where
  /-- The directory of the user's own settings. -/
  configDirectory : Path
  now : Instant
  ids : Nat → String
  elapsed : Nat := 0

structure Output where
  code : Nat
  out : List String := []
  err : List String := []
  deriving DecidableEq, Repr

def versionLine : String := "xaheen 0.1.0"

/-- The content that is to be written. -/
def contentOf (content : Option String) (source : Option Path) : Action String := do
  match content, source with
  | some content, _ => pure content
  | none, some p =>
    match ← Action.ofScript (Files.readText p).run with
    | .ok content => pure content
    | .error e => throw (.unreadable e)
  | none, none => throw .noContent

/-- The action that a command asks for. -/
def actionOf : Command → Action Unit
  | .history limit => history limit
  | .points => points
  | .preview id => preview id
  | .undo id force dryRun preserveBackups => undo id { force, dryRun, preserveBackups }
  | .checkpointCreate name description transactions =>
    checkpointCreate name description transactions
  | .checkpointList => checkpointList
  | .checkpointRollback id force dryRun parallel preserveBackups =>
    checkpointRollback id { force, dryRun, parallel, preserveBackups }
  | .checkpointDelete id => checkpointDelete id
  | .stats => stats
  | .clean olderThanDays confirm => clean olderThanDays confirm
  | .write p content source => do writeFile p (← contentOf content source)
  | .remove p => removeFile p
  | .move source target => moveFile source target

/-- The report of an error, with the failure of the operating system behind it. -/
def errorReport (e : Error) : List String :=
  ("Error: " ++ e.message) ::
  match e with
  | .io cause => ["", "Caused by:", "    " ++ cause.message]
  | _ => []

def crashCode : Nat := 101

/-- The exit code and the report of an action that stopped. -/
def Stop.report : Stop → Nat × List String
  | .failed e => (1, errorReport e)
  | .noDate => (crashCode, [])
  | .unreadable e => (1, ["Error: " ++ e.message])
  | .noContent => (1, ["Error: Provide --content or --from"])

def outputOf : Except Stop Unit × Desk → Output
  | (.ok (), d) => { code := 0, out := d.printed }
  | (.error stop, d) => { code := stop.report.1, out := d.printed, err := stop.report.2 }

/-- Carries out an invocation. -/
def carryOut (s : Surroundings) (i : Invocation) : Script Output := do
  let settings ← Settings.load i.project s.configDirectory
  match Manager.open? i.project settings s.now with
  | none => return { code := crashCode }
  | some opening =>
    match ← opening with
    | .error e => return { code := 1, err := errorReport e }
    | .ok manager =>
      let desk : Desk := { manager, now := s.now, ids := s.ids, elapsed := s.elapsed }
      return outputOf (← (actionOf i.command).run desk)

/-- A run of the program with its arguments. -/
def runProgram (s : Surroundings) (args : List Word) : Script Output :=
  match parse args with
  | .ok i => carryOut s i
  | .error .displayVersion => return { code := 0, out := [versionLine] }
  | .error usage => return { code := usage.exitCode }

end Retrace.CommandLine
