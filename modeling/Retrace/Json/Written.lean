import Retrace.Json.Basic

/-!
A JSON document as it stands in a text, before its numbers and strings are given values: numerals
keep their digits, strings may hold an unpaired surrogate, and an object may repeat a key.
-/
namespace Retrace.Json

/-- The parts of a numeral. Digits stand most significant first. -/
structure Numeral where
  negative : Bool
  whole : List Nat
  fraction : List Nat
  /-- The power of ten written after the digits. -/
  power : Option Int
  deriving DecidableEq, Repr

/-- A string without a value (`none`) holds an unpaired surrogate. -/
inductive Written
  | null
  | bool (b : Bool)
  | numeral (n : Numeral)
  | string (s : Option String)
  | array (items : List Written)
  | object (fields : List (Option String × Written))
  deriving Repr, Inhabited

namespace Numeral

/-- The digits at the front and what follows them. -/
def spanDigits (cs : List Char) : List Nat × List Char :=
  ((cs.takeWhile Char.isDigit).map fun c => c.toNat - 48, cs.dropWhile Char.isDigit)

def ofDigits (ds : List Nat) : Nat := ds.foldl (fun n d => 10 * n + d) 0

/-- The digits after a point; none may be left out once the point stands there. -/
def fractionPart? : List Char → Option (List Nat × List Char)
  | '.' :: r => let (ds, r) := spanDigits r; if ds = [] then none else some (ds, r)
  | r => some ([], r)

def magnitude? (r : List Char) : Option Int :=
  let (ds, r) := spanDigits r
  if ds = [] ∨ r ≠ [] then none else some (ofDigits ds)

/-- The power of ten, which ends the numeral. -/
def powerPart? : List Char → Option (Option Int)
  | [] => some none
  | c :: r =>
    if c = 'e' ∨ c = 'E' then
      match r with
      | '-' :: r => (magnitude? r).map (some <| -·)
      | '+' :: r => (magnitude? r).map some
      | r => (magnitude? r).map some
    else none

def unsigned? (negative : Bool) (cs : List Char) : Option Numeral := do
  let (whole, r) := spanDigits cs
  guard (whole ≠ [] ∧ (whole.head? = some 0 → whole.length = 1))
  let (fraction, r) ← fractionPart? r
  let power ← powerPart? r
  return ⟨negative, whole, fraction, power⟩

/-- The numeral that the characters spell: no leading zeros, no sign but a minus, and a digit on
either side of a point. -/
def ofChars? : List Char → Option Numeral
  | '-' :: r => unsigned? true r
  | r => unsigned? false r

end Numeral
end Retrace.Json
