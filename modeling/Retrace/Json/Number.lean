import Retrace.Json.Written

/-!
The number that a numeral stands for. A numeral of digits alone is an integer where it fits 64 bits.
Any other takes as many digits as fit 64 bits, rounds them to a binary64 value and multiplies or
divides that once by a power of ten; so the value may differ from the nearest one in its last bit.
-/
namespace Retrace.Json

/-- Digits taken while they fit an unsigned 64-bit number, and the power of ten that is still due. -/
structure Significand where
  value : Nat
  power : Int
  deriving DecidableEq, Repr

namespace Significand

/-- Takes whole digits; each one that does not fit, and all after it, raises the power. -/
def addWhole (s : Significand) : List Nat → Significand
  | [] => s
  | d :: ds =>
    if 0x10000000000000000 ≤ 10 * s.value + d then { s with power := s.power + (ds.length + 1) }
    else addWhole { s with value := 10 * s.value + d } ds

/-- Takes digits of the fraction up to the first that does not fit. -/
def addFraction (s : Significand) : List Nat → Significand
  | [] => s
  | d :: ds =>
    if 0x10000000000000000 ≤ 10 * s.value + d then s
    else addFraction ⟨10 * s.value + d, s.power - 1⟩ ds

def ofNumeral (n : Numeral) : Significand :=
  let s := (addWhole ⟨0, 0⟩ n.whole).addFraction n.fraction
  { s with power := s.power + n.power.getD 0 }

/-- The greatest power of ten that is a binary64 value. -/
def greatestPower : Nat := 308

/-- Divides by the greatest power of ten until the rest of the division is in range or nothing is
left of the value. -/
def divideDown : Nat → Double → Nat → Option Double
  | 0, _, _ => some (.zero false)
  | steps + 1, x, k =>
    if k ≤ greatestPower then Double.ofNat? (Nat.pow 10 k) >>= x.div?
    else if x.isZero then some x
    else do
      let p ← Double.ofNat? (Nat.pow 10 greatestPower)
      divideDown steps (← x.div? p) (k - greatestPower)

/-- The magnitude as a binary64 value; none where it is too large. -/
def magnitude? (s : Significand) : Option Double := do
  let x ← Double.ofNat? s.value
  if 0 ≤ s.power then
    if s.power ≤ greatestPower then x.mul? (← Double.ofNat? (Nat.pow 10 s.power.toNat))
    else if x.isZero then some x else none
  else divideDown 4 x (-s.power).toNat

end Significand

/-- The value of a numeral. Minus zero is a real number, as is any integer outside 64 bits. -/
def Numeral.number? (n : Numeral) : Option Number :=
  let real : Option Number := do
    let x ← (Significand.ofNumeral n).magnitude?
    return .real (if n.negative then x.neg else x)
  if n.fraction = [] ∧ n.power = none then
    let m : Int := ofDigits n.whole
    if n.negative then
      if m = 0 then real
      else ((Integer.ofInt? (-m)).map Number.integer).or real
    else ((Integer.ofInt? m).map Number.integer).or real
  else real

end Retrace.Json
