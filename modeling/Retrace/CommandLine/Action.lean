import Retrace.Manager.Checkpoints
import Retrace.Manager.Recording

/-!
Actions: work on a manager that prints lines as it goes and may stop before its end.
-/
namespace Retrace.CommandLine

/-- What an action finds and changes. New ids come from a supply, the time stands still. -/
structure Desk where
  manager : Manager
  now : Instant
  ids : Nat → String
  /-- The number of ids taken from the supply. -/
  taken : Nat := 0
  /-- Nanoseconds that a rollback is said to have lasted. -/
  elapsed : Nat := 0
  /-- Lines printed so far. -/
  printed : List String := []

/-- Why an action stops. -/
inductive Stop
  | failed (e : Error)
  /-- A date is needed that does not exist. -/
  | noDate
  /-- The file that has the content to be written cannot be read. -/
  | unreadable (e : OsError)
  /-- There is no content to be written. -/
  | noContent
  deriving DecidableEq, Repr

abbrev Action := ExceptT Stop (StateT Desk Script)

namespace Action

def stop {α : Type} (e : Error) : Action α := throw (.failed e)

def manager : Action Manager := return (← get).manager

/-- Prints a line. -/
def say (line : String) : Action Unit := modify fun d => { d with printed := d.printed ++ [line] }

def sayAll (lines : List String) : Action Unit :=
  modify fun d => { d with printed := d.printed ++ lines }

def freshId : Action String := do
  let d ← get
  set { d with taken := d.taken + 1 }
  return d.ids d.taken

def ofExcept {α : Type} : Except Error α → Action α
  | .ok a => pure a
  | .error e => stop e

def ofScript {α : Type} (s : Script α) : Action α := ExceptT.lift (StateT.lift s)

/-- Work on files; a failure stops the action. -/
def files {α : Type} (t : Files.Trial α) : Action α := do
  ofExcept ((← ofScript t.run).mapError .io)

/-- A step that has changed the manager even where it has failed. -/
def adopt {α : Type} (step : α × Manager) : Action α := do
  modify fun d => { d with manager := step.2 }
  return step.1

/-- A step of the manager; a failure stops the action. -/
def managed {α : Type} (f : Manager → Script (Except Error α × Manager)) : Action α := do
  ofExcept (← adopt (← ofScript (f (← manager))))

/-- The end of an action: whether it stopped, and the desk as it was left. -/
def run {α : Type} (a : Action α) (d : Desk) : Script (Except Stop α × Desk) := StateT.run a d

end Action
end Retrace.CommandLine
