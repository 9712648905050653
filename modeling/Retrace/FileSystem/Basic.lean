import Retrace.Path

/-!
A tree of files, directories and links. The tree is a table of what stands at each place; a place is
the list of names that leads to it from the root, innermost first. Main view: `FileSystem.at`.

Everything belongs to one user, who has no powers beyond an owner's, so of the permission bits only
the owner's three decide what may be done.
-/
namespace Retrace

abbrev Location := List Bytes

inductive Entry
  | file (mode : Nat) (content : Bytes)
  | directory (mode : Nat)
  | link (target : Path)
  deriving DecidableEq, Repr

namespace Entry

def isDirectory : Entry → Bool
  | .directory _ => true
  | _ => false

/-- Permission bits; links have them all. -/
def mode : Entry → Nat
  | .file m _ => m
  | .directory m => m
  | .link _ => 0o777

def isReadable (e : Entry) : Bool := e.mode.testBit 8
def isWritable (e : Entry) : Bool := e.mode.testBit 7
def isSearchable (e : Entry) : Bool := e.mode.testBit 6

def withMode (m : Nat) : Entry → Entry
  | .file _ c => .file m c
  | .directory _ => .directory m
  | .link t => .link t

end Entry

structure FileSystem where
  /-- Everything below the root, which is always a directory. -/
  entries : List (Location × Entry)
  rootMode : Nat
  /-- The directory where relative paths start. -/
  workplace : Location
  deriving Repr

namespace FileSystem

def empty : FileSystem := ⟨[], 0o755, []⟩

/-- What stands at a place. -/
def «at» (fs : FileSystem) (l : Location) : Option Entry :=
  if l = [] then some (.directory fs.rootMode) else fs.entries.lookup l

def put (l : Location) (e : Entry) : List (Location × Entry) → List (Location × Entry)
  | [] => [(l, e)]
  | (k, x) :: r => if k = l then (l, e) :: r else (k, x) :: put l e r

/-- Whether names may be looked up in a directory. -/
def admits (fs : FileSystem) (l : Location) : Bool := (fs.at l).all Entry.isSearchable

/-- Whether names may be added to a directory and taken from it, once it may be searched. -/
def yields (fs : FileSystem) (l : Location) : Bool := (fs.at l).all Entry.isWritable

/-- Puts an entry at a place, in place of what stood there. -/
def insert (fs : FileSystem) (l : Location) (e : Entry) : FileSystem :=
  if l = [] then { fs with rootMode := e.mode } else { fs with entries := put l e fs.entries }

def erase (fs : FileSystem) (l : Location) : FileSystem :=
  { fs with entries := fs.entries.filter (·.1 ≠ l) }

/-- The place `l` after everything at and below `source` has gone to `target`. -/
def carry (source target l : Location) : Location :=
  if source.isSuffixOf l then l.take (l.length - source.length) ++ target else l

/-- Moves an entry with all below it. What stood at `target` is gone. -/
def relocate (fs : FileSystem) (source target : Location) : FileSystem :=
  { fs with entries := (fs.erase target).entries.map fun (l, e) => (carry source target l, e) }

/-- The names in a directory. -/
def children (fs : FileSystem) (l : Location) : List Bytes :=
  fs.entries.filterMap fun
    | (name :: above, _) => if above = l then some name else none
    | ([], _) => none

/-- The places strictly below one, with their entries. -/
def below (fs : FileSystem) (l : Location) : List (Location × Entry) :=
  fs.entries.filter fun (k, _) => l.isSuffixOf k && l.length < k.length

theorem lookup_put (l k : Location) (e : Entry) (es : List (Location × Entry)) :
    (put l e es).lookup k = if k = l then some e else es.lookup k := by
  induction es with
  | nil => by_cases h : k = l <;> simp [put, List.lookup_cons, h, beq_eq_false_iff_ne.mpr]
  | cons x r ih =>
    obtain ⟨a, b⟩ := x
    by_cases h : k = l <;> by_cases ha : a = l <;> by_cases hk : k = a <;>
      simp_all [put, List.lookup_cons, beq_eq_false_iff_ne.mpr]

theorem lookup_filter_ne (l k : Location) (es : List (Location × Entry)) :
    (es.filter (·.1 ≠ l)).lookup k = if k = l then none else es.lookup k := by
  induction es with
  | nil => simp
  | cons x r ih =>
    obtain ⟨a, b⟩ := x
    by_cases ha : a = l
    · subst ha
      rw [List.filter_cons_of_neg (by simp), ih]
      by_cases hk : k = a <;> simp [List.lookup_cons, hk, beq_eq_false_iff_ne.mpr]
    · rw [List.filter_cons_of_pos (by simpa using ha), List.lookup_cons, List.lookup_cons, ih]
      by_cases hk : k = a
      · subst hk; simp [ha]
      · simp [hk, beq_eq_false_iff_ne.mpr]

theorem at_erase (fs : FileSystem) (l k : Location) (hl : l ≠ []) :
    (fs.erase l).at k = if k = l then none else fs.at k := by
  simp only [erase, «at», lookup_filter_ne]
  by_cases hk : k = []
  · subst hk; simp [Ne.symm hl]
  · simp [hk]

theorem at_insert (fs : FileSystem) (l k : Location) (e : Entry) (hl : l ≠ []) :
    (fs.insert l e).at k = if k = l then some e else fs.at k := by
  simp only [insert, hl, if_false, «at», lookup_put]
  by_cases hk : k = []
  · subst hk; simp [Ne.symm hl]
  · simp [hk]

end FileSystem
end Retrace
