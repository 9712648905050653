/-!
Finite binary64 values as a sign, a significand and a power of two, and rounding of exact quotients
to the nearest of them, ties to the even significand.
-/
namespace Retrace

/-- The value `±significand * 2 ^ exponent`, with a significand of 53 bits, or fewer at the least
exponent. -/
structure Double where
  negative : Bool
  significand : Nat
  exponent : Int
  deriving DecidableEq, Repr

namespace Double

def leastExponent : Int := -1074
def greatestExponent : Int := 971

def zero (negative : Bool) : Double := ⟨negative, 0, leastExponent⟩

/-- Division to the nearest natural number, a half to the even one. -/
def divNearest (n d : Nat) : Nat :=
  let q := n / d
  let r := 2 * (n % d)
  if r < d then q else if d < r then q + 1 else q + q % 2

/-- `n / d` over `2 ^ e` as a quotient of natural numbers. -/
def scale (n d : Nat) (e : Int) : Nat × Nat := (n * Nat.pow 2 (-e).toNat, d * Nat.pow 2 e.toNat)

/-- The exponent at which `n / d` has a significand of 53 bits before rounding. -/
def exponentOf (n d : Nat) : Int :=
  let e : Int := (n.log2 : Int) - d.log2 - 52
  let (n', d') := scale n d e
  max leastExponent (if n' / d' < Nat.pow 2 52 then e - 1 else e)

/-- The nearest value to `± n / d`, none beyond the greatest. -/
def ofQuotient? (negative : Bool) (n d : Nat) : Option Double :=
  if n = 0 then some (zero negative)
  else
    let e := exponentOf n d
    let (n', d') := scale n d e
    let m := divNearest n' d'
    let (m, e) := if m = Nat.pow 2 53 then (Nat.pow 2 52, e + 1) else (m, e)
    if greatestExponent < e then none else some ⟨negative, m, e⟩

/-- The nearest value to `± n / d * 2 ^ e`. -/
def ofScaled? (negative : Bool) (n d : Nat) (e : Int) : Option Double :=
  ofQuotient? negative (n * Nat.pow 2 e.toNat) (d * Nat.pow 2 (-e).toNat)

def ofNat? (n : Nat) : Option Double := ofQuotient? false n 1

/-- The product, rounded. -/
def mul? (x y : Double) : Option Double :=
  ofScaled? (x.negative != y.negative) (x.significand * y.significand) 1 (x.exponent + y.exponent)

/-- The quotient, rounded. -/
def div? (x y : Double) : Option Double :=
  ofScaled? (x.negative != y.negative) x.significand y.significand (x.exponent - y.exponent)

def neg (x : Double) : Double := { x with negative := !x.negative }

def isZero (x : Double) : Bool := x.significand == 0

theorem divNearest_bounds (n d : Nat) : n / d ≤ divNearest n d ∧ divNearest n d ≤ n / d + 1 := by
  simp only [divNearest]
  split
  · omega
  · split <;> omega

end Double
end Retrace
