import Retrace.CommandLine.Action

/-!
Actions that change files, each inside a transaction of its own, so that it can be undone.
-/
namespace Retrace.CommandLine

open CommandLine.Action (say sayAll ofScript files managed freshId)

def record (kind : Operation.Kind) (p : Path) (details : Operation.Details) : Action String := do
  let id ← freshId
  let now := (← get).now
  managed fun m => m.add id now kind p details

/-- The directories above a path that are missing, outermost first; `found` are those below them. The
bound is the number of pieces of the path. -/
def missingAbove : Nat → List Path → Option Path → Script (List Path)
  | 0, found, _ => return found
  | _, found, none => return found
  | n + 1, found, some p => do
    if p.bytes = [] then return found
    else if ← Files.present p then return found
    else missingAbove n (p :: found) p.parent?

/-- Records each directory and makes it. -/
def makeRecorded : List Path → Action Unit
  | [] => pure ()
  | p :: ps => do
    let _ ← record .directoryCreate p {}
    files (Files.attempt (Script.ask (.makeDirectory p)))
    makeRecorded ps

/-- Makes the directories above a path that are missing, each one recorded. -/
def recordMissing (p : Path) : Action Unit := do
  makeRecorded (← ofScript (missingAbove (p.pieces.length + 1) [] p.parent?))

/-- Completes the transaction under way, or aborts it when the change was not made. -/
def finish (change : Except Stop Unit) : Action String := do
  match change with
  | .ok () => managed fun m => m.complete
  | .error e =>
    let _ ← Action.adopt (← ofScript (← Action.manager).abort)
    throw e

/-- A change inside a transaction. -/
def bracket (name command : String) (change : Action Unit) : Action Unit := do
  let id ← freshId
  let now := (← get).now
  let _ ← managed fun m => return m.start id now name name command []
  let id ← finish (← observing change)
  sayAll ["[OK] Recorded transaction " ++ id, "  Undo with: xaheen undo " ++ id]
where
  /-- The end of an action as a value. -/
  observing (a : Action Unit) : Action (Except Stop Unit) := ExceptT.lift (ExceptT.run a)

def applyWrite (target : Path) (content : String) : Action Unit := do
  let kind : Operation.Kind ←
    if ← ofScript (Files.present target) then pure .update
    else do
      recordMissing target
      pure .create
  let _ ← record kind target { currentContent := some content }
  files (Files.attempt (Script.ask (.write target (Utf8.encode content))))

/-- Writes a file. -/
def writeFile (p : Path) (content : String) : Action Unit := do
  let target := (← Action.manager).root.normalize p
  bracket ("write " ++ p.display) "write" (applyWrite target content)

def isFile (p : Path) : Script Bool := do
  match ← Script.ask (.status p) with
  | .ok .file => return true
  | _ => return false

def requireFile (p : Path) : Action Unit := do
  if !(← ofScript (isFile p)) then Action.stop (.invalidOperation ("not a file: " ++ p.display))

def applyRemove (target : Path) : Action Unit := do
  let _ ← record .delete target {}
  files (Files.attempt (Script.ask (.removeFile target)))

/-- Removes a file. -/
def removeFile (p : Path) : Action Unit := do
  let target := (← Action.manager).root.normalize p
  requireFile target
  bracket ("remove " ++ p.display) "remove" (applyRemove target)

def applyMove (source target : Path) : Action Unit := do
  recordMissing target
  let _ ← record .move target { previousPath := some source }
  files (Files.move source target)

/-- Moves a file to a free place. -/
def moveFile (source target : Path) : Action Unit := do
  let root := (← Action.manager).root
  let here := root.normalize source
  let there := root.normalize target
  requireFile here
  if ← ofScript (Files.present there) then
    Action.stop (.invalidOperation ("target already exists: " ++ there.display))
  bracket ("mv " ++ source.display ++ " " ++ target.display) "mv" (applyMove here there)

end Retrace.CommandLine
