/-!
The Gregorian calendar, extended to all years: dates and their day numbers, day 0 being 1 January
1970. Years are reckoned from March, so that a leap day ends its year.
-/
namespace Retrace

structure Date where
  year : Int
  month : Nat
  day : Nat
  deriving DecidableEq, Repr

namespace Date

def isLeapYear (y : Int) : Bool := y % 4 = 0 && (y % 100 ≠ 0 || y % 400 = 0)

def daysInMonth (y : Int) (m : Nat) : Nat :=
  if m = 2 then if isLeapYear y then 29 else 28
  else if m = 4 ∨ m = 6 ∨ m = 9 ∨ m = 11 then 30
  else 31

def leastYear : Int := -262143
def greatestYear : Int := 262142

/-- A day that exists, in a year that can be represented. -/
def isValid (d : Date) : Bool :=
  leastYear ≤ d.year && d.year ≤ greatestYear && 1 ≤ d.month && d.month ≤ 12 &&
  1 ≤ d.day && d.day ≤ daysInMonth d.year d.month

/-- Days from 1 March of year 0 to 1 January 1970. -/
def epochShift : Int := 719468

/-- Days in four hundred years. -/
def cycle : Int := 146097

def toDays (d : Date) : Int :=
  let y := if d.month ≤ 2 then d.year - 1 else d.year
  let inCycle := y % 400
  let sinceMarch : Int := if d.month ≤ 2 then d.month + 9 else (d.month : Int) - 3
  let inYear := (153 * sinceMarch + 2) / 5 + d.day - 1
  y / 400 * cycle + (365 * inCycle + inCycle / 4 - inCycle / 100 + inYear) - epochShift

def ofDays (n : Int) : Date :=
  let z := n + epochShift
  let inCycle := z % cycle
  let year := (inCycle - inCycle / 1460 + inCycle / 36524 - inCycle / 146096) / 365
  let inYear := inCycle - (365 * year + year / 4 - year / 100)
  let sinceMarch := (5 * inYear + 2) / 153
  let day := inYear - (153 * sinceMarch + 2) / 5 + 1
  let month := if sinceMarch < 10 then sinceMarch + 3 else sinceMarch - 9
  ⟨z / cycle * 400 + year + (if month ≤ 2 then 1 else 0), month.toNat, day.toNat⟩

end Date
end Retrace
