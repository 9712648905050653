import Retrace.Time.Instant
import Retrace.Text.Blank

/-!
Reading a point in time. Blanks may stand before every number but the fraction, before a dash, a
colon and the offset, and at the end; numbers may have fewer digits than when written.
-/
namespace Retrace.Instant

namespace Reader

open Text (skipBlanks)

def ofDigits (ds : List Char) : Nat := ds.foldl (fun n c => 10 * n + (c.toNat - 48)) 0

/-- Up to `most` digits, at least one. -/
def number? (most : Nat) (cs : List Char) : Option (Nat × List Char) :=
  let ds := (cs.take most).takeWhile Char.isDigit
  if ds = [] then none else some (ofDigits ds, cs.drop ds.length)

/-- A number of one or two digits within bounds, after blanks. -/
def field? (least greatest : Nat) (cs : List Char) : Option (Nat × List Char) := do
  let (n, r) ← number? 2 (skipBlanks cs)
  if least ≤ n ∧ n ≤ greatest then return (n, r) else none

/-- Four digits at most, or any number of them after a sign. -/
def year? (cs : List Char) : Option (Int × List Char) :=
  match skipBlanks cs with
  | '-' :: r => (number? r.length r).map fun (n, r) => (-n, r)
  | '+' :: r => (number? r.length r).map fun (n, r) => (n, r)
  | r => (number? 4 r).map fun (n, r) => (n, r)

/-- One given character, after blanks. -/
def mark? (c : Char) (cs : List Char) : Option (List Char) :=
  match skipBlanks cs with
  | x :: r => if x = c then some r else none
  | [] => none

/-- Nanoseconds after a point; digits beyond the ninth are dropped. -/
def fraction? : List Char → Option (Nat × List Char)
  | '.' :: r =>
    let ds := r.takeWhile Char.isDigit
    let kept := ds.take 9
    if ds = [] then none else some (ofDigits kept * Nat.pow 10 (9 - kept.length), r.drop ds.length)
  | r => some (0, r)

def date? (cs : List Char) : Option (Date × List Char) := do
  let (year, r) ← year? cs
  let (month, r) ← field? 1 12 (← mark? '-' r)
  let (day, r) ← field? 1 31 (← mark? '-' r)
  let d : Date := ⟨year, month, day⟩
  if d.isValid then return (d, r) else none

/-- The second of the day and the nanoseconds. -/
def clock? (cs : List Char) : Option (Nat × Nat × List Char) := do
  let (hour, r) ← field? 0 23 cs
  let (minute, r) ← field? 0 59 (← mark? ':' r)
  let (second, r) ← field? 0 60 (← mark? ':' r)
  let (nanos, r) ← fraction? r
  let nanos := if second = 60 then nanos + 1000000000 else nanos
  return (3600 * hour + 60 * minute + min second 59, nanos, r)

def isUtc : List Char → Bool
  | a :: b :: c :: _ => a.toUpper = 'U' && b.toUpper = 'T' && c.toUpper = 'C'
  | _ => false

/-- Exactly two digits. -/
def pair? : List Char → Option (Nat × List Char)
  | a :: b :: r => if a.isDigit && b.isDigit then some (ofDigits [a, b], r) else none
  | _ => none

def sign? : List Char → Option (Int × List Char)
  | '+' :: r => some (1, r)
  | '-' :: r => some (-1, r)
  | '\u2212' :: r => some (-1, r)
  | _ => none

/-- Seconds east of Greenwich, less than a day. -/
def offset? (cs : List Char) : Option (Int × List Char) :=
  let cs := skipBlanks cs
  if isUtc cs then some (0, cs.drop 3)
  else match cs with
  | 'Z' :: r => some (0, r)
  | 'z' :: r => some (0, r)
  | cs => do
    let (sign, r) ← sign? cs
    let (hour, r) ← pair? r
    let (minute, r) ← pair? (r.dropWhile fun c => c = ':' || Text.isBlank c)
    if hour < 24 ∧ minute < 60 then return (sign * (3600 * hour + 60 * minute), r) else none

def instant? (cs : List Char) : Option Instant := do
  let (date, r) ← date? cs
  match r with
  | [] => none
  | c :: r =>
    if c = 'T' ∨ c = 't' ∨ c = ' ' then do
      let (second, nanos, r) ← clock? r
      let (east, r) ← offset? r
      let t : Instant := ⟨date.toDays * 86400 + second - east, nanos⟩
      if skipBlanks r = [] ∧ t.inRange then return t else none
    else none

end Reader

def ofText? (s : String) : Option Instant := Reader.instant? s.toList

end Retrace.Instant
