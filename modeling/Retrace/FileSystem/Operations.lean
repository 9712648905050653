import Retrace.FileSystem.Walk
import Retrace.OsError

/-!
What each file operation does to the tree, and when it fails. A failed operation leaves the tree as
it was. To read an entry, to write into a file, and to change the names in a directory each take the
permission for it.
-/
namespace Retrace

inductive FileKind
  | file
  | directory
  | link
  deriving DecidableEq, Repr

def Entry.kind : Entry → FileKind
  | .file .. => .file
  | .directory _ => .directory
  | .link _ => .link

namespace FileSystem

/-- Passes on an operation on a path without zero bytes. -/
def named {α : Type} (p : Path) (r : Except Errno α) : Except OsError α :=
  if p.hasNul then .error .nulByte else r.mapError .errno

/-- The kind of entry at a path, without following a link at its end. -/
def linkStatus (fs : FileSystem) (p : Path) : Except OsError FileKind :=
  named p <| (fs.entryAt false p).map (·.2.kind)

def status (fs : FileSystem) (p : Path) : Except OsError FileKind :=
  named p <| (fs.entryAt true p).map (·.2.kind)

def read (fs : FileSystem) (p : Path) : Except OsError Bytes :=
  named p do
    let (_, e) ← fs.entryAt true p
    if !e.isReadable then .error .denied
    match e with
    | .file _ c => .ok c
    | _ => .error .isDirectory

/-- The names in a directory, in no order of their own. -/
def list (fs : FileSystem) (p : Path) : Except OsError (List Bytes) :=
  named p do
    match ← fs.entryAt true p with
    | (l, .directory m) =>
      if (Entry.directory m).isReadable then .ok (fs.children l) else .error .denied
    | _ => .error .notDirectory

/-- The path of the entry itself, all links followed. -/
def realPath (fs : FileSystem) (p : Path) : Except OsError Path :=
  named p <| (fs.realLocation p).map (Path.ofNames true)

/-- A new directory inherits the set-group bit of the one around it. -/
def newDirectory (fs : FileSystem) (above : Location) : Entry :=
  .directory (if (fs.at above).any (·.mode.testBit 10) then 0o2755 else 0o755)

def makeDirectory (fs : FileSystem) (p : Path) : Except OsError FileSystem :=
  named p do
    let a ← fs.approach p
    match a.ending with
    | .name w =>
      match ← fs.standing a w with
      | some _ => .error .alreadyExists
      | none =>
        if fs.yields a.directory then
          .ok (fs.insert (w :: a.directory) (fs.newDirectory a.directory))
        else .error .denied
    | _ => .error .alreadyExists

def makeLink (fs : FileSystem) (p target : Path) : Except OsError FileSystem :=
  if target.hasNul then .error .nulByte
  else named p do
    if target.bytes = [] then .error .noEntry
    if longestPath ≤ target.bytes.length then .error .nameTooLong
    let a ← fs.approach p
    match a.ending with
    | .name w =>
      match ← fs.standing a w with
      | some _ => .error .alreadyExists
      | none =>
        if a.slash then .error .noEntry
        else if fs.yields a.directory then .ok (fs.insert (w :: a.directory) (.link target))
        else .error .denied
    | _ => .error .alreadyExists

def removeFile (fs : FileSystem) (p : Path) : Except OsError FileSystem :=
  named p do
    let a ← fs.approach p
    match a.ending with
    | .name w =>
      match ← fs.standing a w with
      | none => .error .noEntry
      | some e =>
        if a.slash then .error (if e.isDirectory then .isDirectory else .notDirectory)
        else if !fs.yields a.directory then .error .denied
        else if e.isDirectory then .error .isDirectory
        else .ok (fs.erase (w :: a.directory))
    | _ => .error .isDirectory

def removeDirectory (fs : FileSystem) (p : Path) : Except OsError FileSystem :=
  named p do
    let a ← fs.approach p
    match a.ending with
    | .root => .error .busy
    | .here => .error .invalid
    | .up => .error .notEmpty
    | .name w =>
      match ← fs.standing a w with
      | none => .error .noEntry
      | some e =>
        if !fs.yields a.directory then .error .denied
        else if !e.isDirectory then .error .notDirectory
        else if fs.children (w :: a.directory) = [] then .ok (fs.erase (w :: a.directory))
        else .error .notEmpty

/-- A directory and anything else do not take each other's place. -/
def mismatch (source old : Entry) : Option Errno :=
  if source.isDirectory = old.isDirectory then none
  else some (if old.isDirectory then .isDirectory else .notDirectory)

/-- What keeps an entry from going from one directory to a name in another. -/
def moveBar (fs : FileSystem) (source : Entry) (above : Location) (w : Bytes) (target : Location)
    (old : Option Entry) : Option Errno :=
  if !fs.yields above || !fs.yields target then some .denied
  else (old.bind (mismatch source)).or <|
    if source.isDirectory && above ≠ target && !source.isWritable then some .denied
    else if old.any Entry.isDirectory && fs.children (w :: target) ≠ [] then some .notEmpty
    else none

/-- Moves an entry to a place that is free or whose entry gives way. An entry moved to itself stays. -/
def rename (fs : FileSystem) (source target : Path) : Except OsError FileSystem :=
  if source.hasNul || target.hasNul then .error .nulByte
  else Except.mapError .errno do
    let a ← fs.approach source
    let b ← fs.approach target
    match a.ending, b.ending with
    | .name v, .name w =>
      let here := v :: a.directory
      let there := w :: b.directory
      match ← fs.standing a v with
      | none => .error .noEntry
      | some e =>
        let old ← fs.standing b w
        if !e.isDirectory && (a.slash || b.slash) then .error .notDirectory
        else if here = there then .ok fs
        else if here.isSuffixOf there then .error .invalid
        else if there.isSuffixOf here then .error .notEmpty
        else match fs.moveBar e a.directory w b.directory old with
          | some err => .error err
          | none => .ok (fs.relocate here there)
    | _, _ => .error .busy

/-- Content written into a file takes away its set-user bit, and its set-group bit where the group
may execute it. -/
def modeWritten (m : Nat) : Nat :=
  m - (if m.testBit 11 then 0o4000 else 0) - (if m.testBit 10 && m.testBit 3 then 0o2000 else 0)

/-- Opens a file for writing, following links, and empties it; a new file gets the mode. -/
def openEmpty (fs : FileSystem) (p : Path) (mode : Nat) : Except OsError (Location × FileSystem) :=
  named p do
    let a ← fs.approach p
    if a.location?.isNone || a.slash then .error .isDirectory
    match ← fs.find ⟨true, true⟩ p with
    | .entry l (.file m c) false =>
      if (Entry.file m c).isWritable then .ok (l, fs.insert l (.file (modeWritten m) []))
      else .error .denied
    | .entry .. => .error .isDirectory
    | .vacant d w slash =>
      if slash then .error .isDirectory
      else if fs.yields d then .ok (w :: d, fs.insert (w :: d) (.file mode []))
      else .error .denied

/-- Writes a file whole, following links. -/
def write (fs : FileSystem) (p : Path) (content : Bytes) : Except OsError FileSystem := do
  let (l, fs) ← fs.openEmpty p 0o644
  match fs.at l with
  | some (.file m _) => .ok (fs.insert l (.file m content))
  | _ => .ok fs

/-- Copies content and mode of a file. The target is emptied before the source is read. -/
def copy (fs : FileSystem) (source target : Path) : Except OsError FileSystem := do
  let (l, e) ← named source (fs.entryAt true source)
  if !e.isReadable then .error (.errno .denied)
  match e with
  | .file m _ =>
    let (k, fs) ← fs.openEmpty target m
    match fs.at l with
    | some (.file _ c) => .ok (fs.insert k (.file (if c = [] then m else modeWritten m) c))
    | _ => .ok fs
  | _ => .error .notRegular

/-- Sets the permission bits, following links. -/
def setMode (fs : FileSystem) (p : Path) (mode : Nat) : Except OsError FileSystem :=
  named p do
    let (l, e) ← fs.entryAt true p
    return fs.insert l (e.withMode (mode % 0o10000))

def temporaryName (n : Nat) : Bytes :=
  let digits := toString n
  Utf8.encode (".tmp" ++ String.ofList (List.replicate (6 - digits.length) '0') ++ digits)

/-- The first temporary name from `n` on that is not taken. -/
def freeName (taken : List Bytes) : Nat → Nat → Bytes
  | 0, n => temporaryName n
  | tries + 1, n =>
    if taken.contains (temporaryName n) then freeName taken tries (n + 1) else temporaryName n

/-- Makes an empty file of a name not in use, readable by its owner alone. -/
def makeTemporary (fs : FileSystem) (directory : Path) : Except OsError (Path × FileSystem) :=
  named directory do
    let a ← fs.approach (directory.join ⟨temporaryName 0⟩)
    if !fs.yields a.directory then .error .denied
    let taken := fs.children a.directory
    let name := freeName taken taken.length 0
    let p := directory.join ⟨name⟩
    if longestName < name.length || longestPath ≤ p.bytes.length then .error .nameTooLong
    return (p, fs.insert (name :: a.directory) (.file 0o600 []))

/-- Gives content to a file that exists. -/
def fill (fs : FileSystem) (p : Path) (content : Bytes) : Except OsError FileSystem :=
  named p do
    match ← fs.entryAt true p with
    | (l, .file m _) => return fs.insert l (.file m content)
    | _ => .error .isDirectory

def currentDirectory (fs : FileSystem) : Path := Path.ofNames true fs.workplace

end FileSystem
end Retrace
