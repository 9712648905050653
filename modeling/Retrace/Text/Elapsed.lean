import Retrace.Text.Column

/-!
A span of time in the unit that suits it, with two places.
-/
namespace Retrace.Text

/-- `n / unit` with two places, a half rounded up. -/
def twoPlaces (n unit : Nat) : String :=
  let hundredths := (200 * n + unit) / (2 * unit)
  toString (hundredths / 100) ++ "." ++ zeroPadded 2 (hundredths % 100)

/-- The text of a number of nanoseconds. -/
def elapsed (nanos : Nat) : String :=
  if 1000000000 ≤ nanos then twoPlaces nanos 1000000000 ++ "s"
  else if 1000000 ≤ nanos then twoPlaces nanos 1000000 ++ "ms"
  else if 1000 ≤ nanos then twoPlaces nanos 1000 ++ "µs"
  else twoPlaces nanos 1 ++ "ns"

end Retrace.Text
