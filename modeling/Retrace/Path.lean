import Retrace.Text.Utf8

/-!
Paths as byte sequences, read as text only where they are shown or written into a document.
Main definition: `Path.normalize`, the path without `.` and `..` that a path names from a directory,
found from the words of the path alone.
-/
namespace Retrace

structure Path where
  bytes : Bytes
  deriving DecidableEq, Repr, Inhabited

namespace Path

def slash : UInt8 := 47
def dot : UInt8 := 46

def ofString (s : String) : Path := ⟨Utf8.encode s⟩

/-- The text of a path that is well-formed. -/
def text? (p : Path) : Option String := Utf8.decode? p.bytes

/-- The path as it is shown: broken pieces are replaced. -/
def display (p : Path) : String := Utf8.lossy p.bytes

/-- What stands between the slashes; never empty as a list. -/
def split : Bytes → List Bytes
  | [] => [[]]
  | b :: r =>
    if b = slash then [] :: split r
    else match split r with
      | [] => [[b]]
      | w :: ws => (b :: w) :: ws

def pieces (p : Path) : List Bytes := split p.bytes

/-- The pieces with a slash between any two. -/
def glue : List Bytes → Bytes
  | [] => []
  | [w] => w
  | w :: ws => w ++ slash :: glue ws

def isAbsolute (p : Path) : Bool := p.bytes.head? = some slash

/-- The path from directory `p`: an absolute one stands for itself. -/
def join (p q : Path) : Path :=
  if q.isAbsolute then q
  else if p.bytes = [] ∨ p.bytes.getLast? = some slash then ⟨p.bytes ++ q.bytes⟩
  else ⟨p.bytes ++ slash :: q.bytes⟩

/-- A zero byte ends a name for the operating system, so no path may hold one. -/
def hasNul (p : Path) : Bool := p.bytes.contains 0

def child (p : Path) (name : String) : Path := p.join (.ofString name)

/-- One step of a path inside the tree. -/
inductive Step
  | up
  | down (name : Bytes)
  deriving DecidableEq, Repr

/-- Empty pieces and single dots lead nowhere. -/
def stepOf? (w : Bytes) : Option Step :=
  if w = [] ∨ w = [dot] then none
  else if w = [dot, dot] then some .up
  else some (.down w)

def steps (p : Path) : List Step := p.pieces.filterMap stepOf?

/-- Names from the innermost outwards after one more step; a step up from the start stays there. -/
def walk (names : List Bytes) : Step → List Bytes
  | .up => names.drop 1
  | .down w => w :: names

/-- The path of a list of names, innermost first. -/
def ofNames (absolute : Bool) (names : List Bytes) : Path :=
  ⟨(if absolute then [slash] else []) ++ glue names.reverse⟩

/-- The path that `p` names from `root`, without `.` and `..`. Links are not looked at. -/
def normalize (root p : Path) : Path :=
  let q := root.join p
  ofNames q.isAbsolute (q.steps.foldl walk [])

/-- Pieces without those at the end that lead nowhere, latest first. The first piece stays. -/
def trimEnd : List Bytes → List Bytes
  | [] => []
  | [w] => [w]
  | w :: ws => if w = [] ∨ w = [dot] then trimEnd ws else w :: ws

/-- The path without its last component, none for the root and the empty path. -/
def parent? (p : Path) : Option Path :=
  match trimEnd p.pieces.reverse with
  | [] => none
  | [w] => if w = [] then none else some ⟨[]⟩
  | _ :: ws =>
    let up := (trimEnd ws).reverse
    some (if up = [[]] then ⟨[slash]⟩ else ⟨glue up⟩)

/-- What stands after the last dot of a name, none where the name has no dot but at its start. -/
def extension? (name : Bytes) : Option Bytes :=
  let after := name.reverse.takeWhile (· ≠ dot)
  if name.length ≤ after.length + 1 ∨ name = [dot, dot] then none else some after.reverse

end Path
end Retrace
