import Retrace.Decimal.Double

/-!
The shortest decimal that reads back as a given binary64 value: of all decimals within half a unit
of the value the ones with the fewest digits, and of those the nearest.
-/
namespace Retrace

/-- The value `digits * 10 ^ exponent`. -/
structure Decimal where
  digits : Nat
  exponent : Int
  deriving DecidableEq, Repr

namespace Decimal

/-- Drops zeros at the end of the digits; the bound is the number of digits. -/
def trim : Nat → Decimal → Decimal
  | 0, x => x
  | n + 1, x => if x.digits ≠ 0 ∧ x.digits % 10 = 0 then trim n ⟨x.digits / 10, x.exponent + 1⟩ else x

end Decimal

namespace Double

/-- The exact quotient `significand * 2 ^ exponent / 10 ^ k`. -/
def overPower (x : Double) (k : Int) : Nat × Nat :=
  (x.significand * Nat.pow 2 x.exponent.toNat * Nat.pow 10 (-k).toNat,
    Nat.pow 2 (-x.exponent).toNat * Nat.pow 10 k.toNat)

/-- The exponent of the leading decimal digit. -/
def leadingPower (x : Double) : Int :=
  let e := ((x.significand.log2 : Int) + x.exponent) * 30103 / 100000
  let below (k : Int) : Bool := let (n, d) := x.overPower k; n < d
  if below e then e - 1 else if below (e + 1) then e else e + 1

/-- Whether `c * 10 ^ k` reads back as `x`: it lies no farther than half the gap to the neighbour on
its side, the ends included where the significand is even. The gap below a power of two is half. -/
def readsBack (x : Double) (k : Int) (c : Nat) : Bool :=
  let (n, d) := x.overPower k
  let s := x.significand
  let lower := if s = Nat.pow 2 52 ∧ leastExponent < x.exponent then 4 * s - 1 else 4 * s - 2
  let value := 4 * s * (c * d)
  if s % 2 = 0 then n * lower ≤ value && value ≤ n * (4 * s + 2)
  else n * lower < value && value < n * (4 * s + 2)

/-- The nearer to `x` of its two neighbours on the grid of multiples of `10 ^ k`, among those that
read back. -/
def onGrid? (x : Double) (k : Int) : Option Nat :=
  let (n, d) := x.overPower k
  let q := n / d
  match x.readsBack k q, x.readsBack k (q + 1) with
  | true, true => some (divNearest n d)
  | true, false => some q
  | false, true => some (q + 1)
  | false, false => none

/-- Tries grids from coarse to fine. -/
def searchGrids (x : Double) : Nat → Int → Decimal
  | 0, k => let (n, d) := x.overPower k; ⟨divNearest n d, k⟩
  | steps + 1, k =>
    match x.onGrid? k with
    | some c => ⟨c, k⟩
    | none => searchGrids x steps (k - 1)

/-- The shortest decimal of the magnitude; seventeen digits always suffice. -/
def shortest (x : Double) : Decimal :=
  if x.isZero then ⟨0, 0⟩ else Decimal.trim 17 (x.searchGrids 16 x.leadingPower)

end Double
end Retrace
