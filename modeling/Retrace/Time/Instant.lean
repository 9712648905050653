import Retrace.Time.Calendar
import Retrace.Text.Column

/-!
Points in time, and how they are written in documents and in tables.
-/
namespace Retrace

/-- Seconds since the start of 1970 and nanoseconds; a leap second is the second before it with a
billion nanoseconds or more. -/
structure Instant where
  seconds : Int
  nanos : Nat
  deriving DecidableEq, Repr, Inhabited

namespace Instant

instance : Ord Instant where
  compare x y := (compare x.seconds y.seconds).then (compare x.nanos y.nanos)

def lt (x y : Instant) : Bool := compare x y = .lt

def date (t : Instant) : Date := .ofDays (t.seconds / 86400)

/-- The first and the last second of the years that can be represented. -/
def leastSecond : Int := (Date.mk Date.leastYear 1 1).toDays * 86400
def greatestSecond : Int := (Date.mk Date.greatestYear 12 31).toDays * 86400 + 86399

def inRange (t : Instant) : Bool := leastSecond ≤ t.seconds && t.seconds ≤ greatestSecond

/-- The same time of day, some days earlier; none before the first year. -/
def minusDays? (t : Instant) (days : Nat) : Option Instant :=
  let s : Instant := { t with seconds := t.seconds - days * 86400 }
  if s.inRange then some s else none

/-- Four digits, or a sign and at least four. -/
def yearText (y : Int) : String :=
  if 0 ≤ y ∧ y ≤ 9999 then Text.zeroPadded 4 y.toNat
  else (if y < 0 then "-" else "+") ++ Text.zeroPadded 4 y.natAbs

def dateText (d : Date) : String :=
  yearText d.year ++ "-" ++ Text.zeroPadded 2 d.month ++ "-" ++ Text.zeroPadded 2 d.day

/-- Hours, minutes and seconds; a leap second is second 60. -/
def clockText (t : Instant) : String :=
  let s := (t.seconds % 86400).toNat
  Text.zeroPadded 2 (s / 3600) ++ ":" ++ Text.zeroPadded 2 (s / 60 % 60) ++ ":" ++
    Text.zeroPadded 2 (s % 60 + t.nanos / 1000000000)

/-- Three, six or nine digits, the fewest that keep the value, and none for a whole second. -/
def fractionText (n : Nat) : String :=
  if n = 0 then ""
  else if n % 1000000 = 0 then "." ++ Text.zeroPadded 3 (n / 1000000)
  else if n % 1000 = 0 then "." ++ Text.zeroPadded 6 (n / 1000)
  else "." ++ Text.zeroPadded 9 n

/-- The form in documents. -/
def toText (t : Instant) : String :=
  dateText t.date ++ "T" ++ t.clockText ++ fractionText (t.nanos % 1000000000) ++ "Z"

/-- The form in tables. -/
def display (t : Instant) : String := dateText t.date ++ " " ++ t.clockText

end Instant
end Retrace
