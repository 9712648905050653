import Retrace.Json.Number

/-!
The value of a document: every string and every number in it needs one, arrays and objects may nest
only so deep, and of fields with one key the last stands.
-/
namespace Retrace.Json

mutual

/-- The value, with at most `depth` arrays and objects inside one another. -/
def Written.value? (depth : Nat) : Written → Option Json
  | .null => some .null
  | .bool b => some (.bool b)
  | .numeral n => n.number?.map .number
  | .string s => s.map .string
  | .array items =>
    if depth = 0 then none else (Written.values? (depth - 1) items).map .array
  | .object fields =>
    if depth = 0 then none else (Written.fields? (depth - 1) [] fields).map .object

def Written.values? (depth : Nat) : List Written → Option (List Json)
  | [] => some []
  | w :: ws => do return (← Written.value? depth w) :: (← Written.values? depth ws)

/-- Fields in key order; `before` holds those that come earlier in the text. -/
def Written.fields? (depth : Nat) (before : List (String × Json)) :
    List (Option String × Written) → Option (List (String × Json))
  | [] => some before
  | (k, w) :: r => do
    let v ← Written.value? depth w
    Written.fields? depth (insertField (← k) v before) r

end

/-- Arrays and objects inside one another, at most, in a document that has a value. -/
def greatestDepth : Nat := 127

end Retrace.Json
