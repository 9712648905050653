/-!
Numbers and text at a fixed width.
-/
namespace Retrace.Text

/-- Left-aligned in `width` characters; longer text is kept whole. -/
def padRight (width : Nat) (s : String) : String :=
  s ++ String.ofList (List.replicate (width - s.length) ' ')

/-- Decimal digits, with zeros in front up to `width`. -/
def zeroPadded (width n : Nat) : String :=
  let s := toString n
  String.ofList (List.replicate (width - s.length) '0') ++ s

def octal (n : Nat) : String := String.ofList (Nat.toDigits 8 n)

theorem le_length_padRight (width : Nat) (s : String) : width ≤ (padRight width s).length := by
  simp [padRight]; omega

end Retrace.Text
