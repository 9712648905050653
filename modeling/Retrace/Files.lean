import Retrace.Script

/-!
Work on single files, put together from calls: files are written through a temporary file and a
rename, and moved by a rename or else by a copy.
-/
namespace Retrace.Files

/-- Work on files that may fail. -/
abbrev Trial := ExceptT OsError Script

def attempt {α : Type} (s : Script (Except OsError α)) : Trial α := ExceptT.mk s

/-- Whether something stands at a path, a dangling link included. -/
def present (p : Path) : Script Bool := do
  match ← Script.ask (.linkStatus p) with
  | .ok _ => return true
  | .error _ => return false

def isDirectory (p : Path) : Script Bool := do
  match ← Script.ask (.status p) with
  | .ok .directory => return true
  | _ => return false

/-- Makes one directory, satisfied with one that is there already. -/
def makeDirectory (p : Path) : Trial Unit := attempt do
  match ← Script.ask (.makeDirectory p) with
  | .ok () => return .ok ()
  | .error e => if ← isDirectory p then return .ok () else return .error e

/-- Makes a directory where the one before it may be missing too; the bound is on their number. -/
def makeDirectories : Nat → Path → Trial Unit
  | 0, _ => pure ()
  | depth + 1, p => attempt do
    if p.bytes = [] then return .ok ()
    match ← Script.ask (.makeDirectory p) with
    | .ok () => return .ok ()
    | .error e =>
      if e.isNotFound then
        match p.parent? with
        | none => return .error e
        | some up =>
          ExceptT.run do
            makeDirectories depth up
            makeDirectory p
      else if ← isDirectory p then return .ok ()
      else return .error e

/-- Makes a directory and all that lead to it. -/
def makePath (p : Path) : Trial Unit := makeDirectories (p.pieces.length + 1) p

/-- Makes the directory that holds a path, unless something stands there. -/
def ensureParent (p : Path) : Trial Unit := do
  match p.parent? with
  | none => pure ()
  | some up =>
    if up.bytes = [] then pure ()
    else if ← present up then pure ()
    else makePath up

/-- The file that a link leads to; any other path, and a link that leads nowhere, stands for itself. -/
def resolveLink (p : Path) : Script Path := do
  match ← Script.ask (.linkStatus p) with
  | .ok .link =>
    match ← Script.ask (.realPath p) with
    | .ok q => return q
    | .error _ => return p
  | _ => return p

/-- The directory that holds a path, as an absolute path. -/
def directoryOf (p : Path) : Script Path := do
  let up := match p.parent? with
    | some up => if up.bytes = [] then Path.ofString "." else up
    | none => Path.ofString "."
  if up.isAbsolute then return up else return (← Script.ask .currentDirectory).join up

def makeTemporary (directory : Path) : Trial Path := attempt do
  match ← Script.ask (.makeTemporary directory) with
  | .ok p => return .ok p
  | .error (.errno e) => return .error (.onPath e (directory.child ".tmpXXXXXX"))
  | .error e => return .error e

/-- Gives content to a temporary file and puts it in place of `target`. -/
def install (temporary target : Path) (content : Bytes) : Trial Unit := do
  attempt (Script.ask (.fill temporary content))
  if target.hasNul then throw (.errno .invalid)
  attempt (Script.ask (.rename temporary target))

/-- Writes a file so that readers find either the old or the whole new content. A link that leads to
something stays and is written through. -/
def writeAtomic (p : Path) (content : Bytes) : Trial Unit := do
  let target ← resolveLink p
  ensureParent target
  let temporary ← makeTemporary (← directoryOf target)
  attempt do
    match ← (install temporary target content).run with
    | .ok () => return .ok ()
    | .error e =>
      let _ ← Script.ask (.removeFile temporary)
      return .error e

/-- Moves an entry, by copy and removal where it cannot be renamed. -/
def move (source target : Path) : Trial Unit := do
  ensureParent target
  attempt do
    match ← Script.ask (.rename source target) with
    | .ok () => return .ok ()
    | .error _ =>
      ExceptT.run do
        attempt (Script.ask (.copy source target))
        attempt (Script.ask (.removeFile source))

/-- Removes a file; the answer is false where there was none. -/
def removeIfPresent (p : Path) : Trial Bool := attempt do
  match ← Script.ask (.removeFile p) with
  | .ok () => return .ok true
  | .error e => if e.isNotFound then return .ok false else return .error e

def readText (p : Path) : Trial String := do
  let b ← attempt (Script.ask (.read p))
  match Utf8.decode? b with
  | some s => pure s
  | none => throw .invalidUtf8

/-- The content of the file that a path leads to, none where it leads to no file. -/
def snapshot (p : Path) : Trial (Option Bytes) := attempt do
  match ← Script.ask (.status p) with
  | .ok .file =>
    match ← Script.ask (.read p) with
    | .ok b => return .ok (some b)
    | .error e => return .error e
  | .ok _ => return .ok none
  | .error e => if e.isNotFound then return .ok none else return .error e

end Retrace.Files
