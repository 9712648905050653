/-!
How risky it is to revert an operation, and a transaction made of several.
-/
namespace Retrace

inductive Risk
  | low
  | medium
  | high
  deriving DecidableEq, Repr, Inhabited

namespace Risk

def all : List Risk := [low, medium, high]

def name : Risk → String
  | low => "low"
  | medium => "medium"
  | high => "high"

def ofName? (s : String) : Option Risk := all.find? (·.name = s)

def rank : Risk → Nat
  | low => 0
  | medium => 1
  | high => 2

def max (r s : Risk) : Risk := if r.rank ≤ s.rank then s else r

/-- High if any is high, medium if more than half are medium, and else low. -/
def overall (rs : List Risk) : Risk :=
  if high ∈ rs then high
  else if rs.length < 2 * rs.count medium then medium
  else low

/-- The greatest risk, none of no operations. -/
def greatest? : List Risk → Option Risk
  | [] => none
  | r :: rs => some (rs.foldl max r)

theorem ofName?_name (r : Risk) : ofName? r.name = some r := by cases r <;> decide

end Risk
end Retrace
