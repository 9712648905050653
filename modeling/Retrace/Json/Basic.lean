import Retrace.Decimal.Double

/-!
JSON values as the library keeps them. Integers between the least signed and the greatest unsigned
64-bit number stay exact; every other number is a binary64 value.
-/
namespace Retrace

/-- An integer that fits 64 bits, signed or unsigned. -/
structure Json.Integer where
  value : Int
  bounds : -0x8000000000000000 ≤ value ∧ value < 0x10000000000000000 := by decide
  deriving DecidableEq, Repr

inductive Json.Number
  | integer (n : Json.Integer)
  | real (x : Double)
  deriving DecidableEq, Repr

/-- Fields of an object stand in the order in which they are written. -/
inductive Json
  | null
  | bool (b : Bool)
  | number (n : Json.Number)
  | string (s : String)
  | array (items : List Json)
  | object (fields : List (String × Json))
  deriving Repr, Inhabited

namespace Json

def Integer.ofInt? (n : Int) : Option Integer :=
  if h : -0x8000000000000000 ≤ n ∧ n < 0x10000000000000000 then some ⟨n, h⟩ else none

/-- The integer, or the greatest one where it is too large. -/
def ofNat (n : Nat) : Json :=
  .number (.integer ((Integer.ofInt? n).getD ⟨0xffffffffffffffff, by decide⟩))

def ofStrings (ss : List String) : Json := .array (ss.map .string)

def ofOption {α : Type} (f : α → Json) : Option α → Json
  | none => .null
  | some x => f x

/-- The value of the first field of that name. -/
def field? (name : String) : Json → Option Json
  | .object fields => fields.lookup name
  | _ => none

/-- Puts a field in key order, in place of an earlier one of the same key. -/
def insertField (key : String) (v : Json) : List (String × Json) → List (String × Json)
  | [] => [(key, v)]
  | (k, w) :: r =>
    if key < k then (key, v) :: (k, w) :: r
    else if key = k then (key, v) :: r
    else (k, w) :: insertField key v r

end Json
end Retrace
