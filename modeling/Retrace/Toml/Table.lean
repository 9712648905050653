/-!
Tables of named values, as the lines of a settings file build them up. Each line adds to what earlier
lines have said; a line that says something a second time has no result.
-/
namespace Retrace.Toml

/-- A value. Kinds that no setting has are not told apart. -/
inductive Value
  | integer (n : Int)
  | bool (b : Bool)
  | string (s : String)
  | other
  deriving DecidableEq, Repr, Inhabited

mutual

inductive Item
  | value (v : Value)
  | table (t : Table)
  /-- Tables that share one name, in order. -/
  | tables (ts : List Table)

/-- `implied` tables are known from longer names only; `dotted` ones were made by a dotted key. -/
inductive Table
  | mk (implied dotted : Bool) (fields : List (String × Item))

end

instance : Inhabited Table := ⟨.mk false false []⟩
instance : Inhabited Item := ⟨.table default⟩

namespace Table

def empty : Table := .mk false false []

def implied : Table → Bool
  | mk i _ _ => i

def dotted : Table → Bool
  | mk _ d _ => d

def fields : Table → List (String × Item)
  | mk _ _ fs => fs

/-- The same fields under a heading of their own. -/
def headed (t : Table) : Table := .mk false false t.fields

def find? (t : Table) (k : String) : Option Item := t.fields.lookup k

/-- Puts an item under a name, in place of an earlier one. -/
def put (k : String) (x : Item) : Table → Table
  | mk i d fs => mk i d ((k, x) :: fs.filter (·.1 ≠ k))

/-- Changes the table that a path of names leads to. Missing tables are made on the way; of several
tables of one name the last is meant. Dotted keys do not lead into tables that have a heading. -/
def modify (dottedKey : Bool) (f : Table → Option Table) : List String → Table → Option Table
  | [], t => f t
  | k :: ks, t =>
    match t.find? k with
    | none => (modify dottedKey f ks (mk true dottedKey [])).map fun c => t.put k (.table c)
    | some (.value _) => none
    | some (.tables ts) => do
      let last ← ts.getLast?
      let c ← modify dottedKey f ks last
      return t.put k (.tables (ts.dropLast ++ [c]))
    | some (.table c) =>
      if dottedKey && !c.implied then none
      else (modify dottedKey f ks c).map fun c => t.put k (.table c)

/-- Adds a value under a dotted key: names of tables and the name in the last of them. -/
def define (path : List String) (k : String) (v : Value) (t : Table) : Option Table :=
  modify true (fun t =>
    if t.dotted = path.isEmpty || (t.find? k).isSome then none else some (t.put k (.value v))) path t

end Table

/-- A document under way: the finished tables and the one under the last heading. -/
structure Draft where
  root : Table
  current : Table
  path : List String
  inSeries : Bool

namespace Draft

def empty : Draft := ⟨.empty, .empty, [], false⟩

/-- Puts the table under way in its place. -/
def finish? (d : Draft) : Option Table :=
  match d.path.getLast? with
  | none => some d.current
  | some k =>
    d.root.modify false (fun parent =>
      match d.inSeries, parent.find? k with
      | true, none => some (parent.put k (.tables [d.current]))
      | true, some (.tables ts) => some (parent.put k (.tables (ts ++ [d.current])))
      | false, none => some (parent.put k (.table d.current))
      | false, some (.table t) => if t.implied then some (parent.put k (.table d.current)) else none
      | _, _ => none) d.path.dropLast

/-- Starts the table of a heading; it may only be known as implied before. -/
def openTable? (path : List String) (d : Draft) : Option Draft := do
  let root ← d.finish?
  let k ← path.getLast?
  let root ← root.modify false some path.dropLast
  match ← standing path.dropLast k root with
  | none => return ⟨root, .empty, path, false⟩
  | some (.table t) => if t.implied && !t.dotted then return ⟨root, t.headed, path, false⟩ else none
  | some _ => none
where
  /-- What stands under a name in the table that a path leads to. -/
  standing (path : List String) (k : String) (t : Table) : Option (Option Item) :=
    match path with
    | [] => some (t.find? k)
    | j :: js =>
      match t.find? j with
      | some (.table c) => standing js k c
      | some (.tables ts) => ts.getLast? >>= standing js k
      | _ => none

/-- Starts one more table of a series. -/
def openSeries? (path : List String) (d : Draft) : Option Draft := do
  let root ← d.finish?
  let k ← path.getLast?
  let root ← root.modify false some path.dropLast
  match ← openTable?.standing path.dropLast k root with
  | none => return ⟨root, .empty, path, true⟩
  | some (.tables _) => return ⟨root, .empty, path, true⟩
  | some _ => none

def define? (path : List String) (k : String) (v : Value) (d : Draft) : Option Draft :=
  (d.current.define path k v).map fun t => { d with current := t }

end Draft
end Retrace.Toml
