import Retrace.FileSystem.Basic
import Retrace.Errno

/-!
Following a path through the tree. Links on the way are followed, a link at the end where asked;
a path leads to an entry or to a free name in a directory that exists. Every directory in which a
piece of the path is looked up must be searchable.
-/
namespace Retrace.FileSystem

/-- Where a path leads. A slash at its end asks for a directory. -/
inductive Found
  | entry (l : Location) (e : Entry) (slash : Bool)
  | vacant (directory : Location) (name : Bytes) (slash : Bool)
  deriving Repr

def longestName : Nat := 255
def longestPath : Nat := 4096
def mostLinks : Nat := 40

/-- The pieces of a path that are not empty, and one empty piece at the end for a slash there. -/
def pathPieces (p : Path) : List Bytes :=
  let named := p.pieces.filter (· ≠ [])
  if named ≠ [] ∧ p.bytes.getLast? = some Path.slash then named ++ [[]] else named

def start (here : Location) (p : Path) : Location := if p.isAbsolute then [] else here

/-- The entry at a place where the path ends. -/
def arrive (fs : FileSystem) (l : Location) (slash : Bool) : Except Errno Found :=
  match fs.at l with
  | some e => .ok (.entry l e slash)
  | none => .error .noEntry

/-- How a path is gone along: whether a link at its end is followed, and whether `.` and `..` are
looked up like names or only crossed out. -/
structure Manner where
  follow : Bool
  dots : Bool
  deriving DecidableEq, Repr

def isDots (w : Bytes) : Bool := w = [Path.dot] || w = [Path.dot, Path.dot]

/-- Goes piece by piece from a directory. `detour` goes on from the directory of a link with the
pieces of its target and the rest. -/
def stroll (fs : FileSystem) (manner : Manner)
    (detour : Location → Path → List Bytes → Except Errno Found) :
    Location → List Bytes → Except Errno Found
  | here, [] => arrive fs here false
  | here, w :: rest =>
    if w = [] then stroll fs manner detour here rest
    else if (manner.dots || !isDots w) && !fs.admits here then .error .denied
    else if w = [Path.dot] then stroll fs manner detour here rest
    else if w = [Path.dot, Path.dot] then stroll fs manner detour (here.drop 1) rest
    else if longestName < w.length then .error .nameTooLong
    else
      let last := rest.all (· = [])
      match fs.at (w :: here) with
      | none => if last then .ok (.vacant here w (rest ≠ [])) else .error .noEntry
      | some (.directory _) => stroll fs manner detour (w :: here) rest
      | some (.file m c) =>
        if last then .ok (.entry (w :: here) (.file m c) (rest ≠ [])) else .error .notDirectory
      | some (.link t) =>
        if rest = [] ∧ ¬manner.follow then .ok (.entry (w :: here) (.link t) false)
        else detour here t rest

/-- Goes from a directory through at most `links` links. -/
def walk (fs : FileSystem) (manner : Manner) : Nat → Location → List Bytes → Except Errno Found
  | 0 => stroll fs manner fun _ _ _ => .error .tooManyLinks
  | links + 1 => stroll fs manner fun here t rest =>
      walk fs manner links (start here t) (pathPieces t ++ rest)

def find (fs : FileSystem) (manner : Manner) (p : Path) : Except Errno Found :=
  if p.bytes = [] then .error .noEntry
  else if longestPath ≤ p.bytes.length then .error .nameTooLong
  else walk fs manner mostLinks (start fs.workplace p) (pathPieces p)

/-- The entry where a path leads; a slash at its end asks for a directory. -/
def Found.reached : Found → Except Errno (Location × Entry)
  | .vacant .. => .error .noEntry
  | .entry l e slash => if slash && !e.isDirectory then .error .notDirectory else .ok (l, e)

/-- The entry that a path leads to. -/
def entryAt (fs : FileSystem) (follow : Bool) (p : Path) : Except Errno (Location × Entry) := do
  (← fs.find ⟨follow, true⟩ p).reached

/-- The place that a path leads to, all links followed. -/
def realLocation (fs : FileSystem) (p : Path) : Except Errno Location := do
  return (← (← fs.find ⟨true, false⟩ p).reached).1

/-- What the last piece of a path says. -/
inductive Ending
  | name (w : Bytes)
  | root
  | here
  | up
  deriving DecidableEq, Repr

/-- The end of a path, seen from the directory before it. -/
structure Approach where
  directory : Location
  ending : Ending
  slash : Bool
  deriving DecidableEq, Repr

def Approach.location? (a : Approach) : Option Location :=
  match a.ending with
  | .name w => some (w :: a.directory)
  | _ => none

def endingOf (w : Bytes) : Ending :=
  if w = [Path.dot] then .here else if w = [Path.dot, Path.dot] then .up else .name w

/-- Goes to the directory before the last piece, following links on the way. -/
def approach (fs : FileSystem) (p : Path) : Except Errno Approach :=
  if p.bytes = [] then .error .noEntry
  else if longestPath ≤ p.bytes.length then .error .nameTooLong
  else
    let pieces := p.pieces.filter (· ≠ [])
    let slash : Bool := p.bytes.getLast? = some Path.slash
    match pieces.reverse with
    | [] => .ok ⟨[], .root, slash⟩
    | w :: above => do
      match ← walk fs ⟨true, true⟩ mostLinks (start fs.workplace p) (above.reverse ++ [[Path.dot]]) with
      | .entry l _ _ => .ok ⟨l, endingOf w, slash⟩
      | .vacant .. => .error .noEntry

/-- What stands at the end of an approach whose last piece is a name. -/
def standing (fs : FileSystem) (a : Approach) (w : Bytes) : Except Errno (Option Entry) :=
  if longestName < w.length then .error .nameTooLong else .ok (fs.at (w :: a.directory))

end Retrace.FileSystem
