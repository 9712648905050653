/-!
Byte sequences, the contents of files, and their hexadecimal text.
-/
namespace Retrace

abbrev Bytes := List UInt8

namespace Bytes

def hexDigit (n : Nat) : Char :=
  if n < 10 then Char.ofNat (48 + n) else Char.ofNat (87 + n)

def hexDigit? (c : Char) : Option Nat :=
  if '0' ≤ c ∧ c ≤ '9' then some (c.toNat - 48)
  else if 'a' ≤ c ∧ c ≤ 'f' then some (c.toNat - 87)
  else if 'A' ≤ c ∧ c ≤ 'F' then some (c.toNat - 55)
  else none

/-- Two lowercase digits for each byte, the high half first. -/
def hexChars (b : Bytes) : List Char :=
  b.flatMap fun x => [hexDigit (x.toNat / 16), hexDigit (x.toNat % 16)]

def hex (b : Bytes) : String := String.ofList b.hexChars

/-- Reads pairs of digits of either case; an odd digit or any other character has no value. -/
def ofHexChars? : List Char → Option Bytes
  | [] => some []
  | [_] => none
  | x :: y :: r => do
    let hi ← hexDigit? x
    let lo ← hexDigit? y
    let rest ← ofHexChars? r
    return UInt8.ofNat (16 * hi + lo) :: rest

def ofHex? (s : String) : Option Bytes := ofHexChars? s.toList

theorem length_hexChars (b : Bytes) : b.hexChars.length = 2 * b.length := by
  induction b with
  | nil => rfl
  | cons x r ih =>
    change (hexChars r).length + 2 = 2 * (r.length + 1)
    rw [ih]; rfl

end Bytes
end Retrace
