import Retrace.Json.Number

/-!
Records in a document. A record is an object of named fields or an array of the same values in their
order of declaration. An object may hold other fields, which are not looked at, but none of its own
twice; an array may lack fields only where all that are lacking have a default.
-/
namespace Retrace.Json

/-- The values found for the fields of a record. -/
structure Record where
  values : List (String × Written)
  /-- Written as an array. -/
  byPlace : Bool
  deriving Repr

namespace Written

/-- The one field of a name, none where it is absent, an error where it stands twice. -/
def find (fields : List (String × Written)) (name : String) :
    Option (List (String × Written)) :=
  match fields.filter (·.1 = name) with
  | [] => some []
  | [f] => some [f]
  | _ => none

/-- The fields with the given names. -/
def record? (names : List String) : Written → Option Record
  | .object fields => do
    let fields ← fields.mapM fun (k, v) => k.map (·, v)
    let found ← names.mapM (find fields)
    return ⟨found.flatten, false⟩
  | .array items => if items.length ≤ names.length then some ⟨names.zip items, true⟩ else none
  | _ => none

def text? : Written → Option String
  | .string s => s
  | _ => none

def flag? : Written → Option Bool
  | .bool b => some b
  | _ => none

/-- A natural number of so many bits, written without point, power or sign. -/
def natural? (bits : Nat) : Written → Option Nat
  | .numeral n =>
    match n.number? with
    | some (.integer i) => if 0 ≤ i.value ∧ i.value < Nat.pow 2 bits then some i.value.toNat else none
    | _ => none
  | _ => none

def items? : Written → Option (List Written)
  | .array items => some items
  | _ => none

/-- A name written as a string, or as the key of an object whose one field is null. -/
def variant? : Written → Option String
  | .string s => s
  | .object [(k, .null)] => k
  | _ => none

end Written

namespace Record

def required {α : Type} (r : Record) (name : String) (read : Written → Option α) : Option α :=
  r.values.lookup name >>= read

/-- Null stands for no value, and so does an absent field of an object. -/
def optional {α : Type} (r : Record) (name : String) (read : Written → Option α) :
    Option (Option α) :=
  match r.values.lookup name with
  | none => if r.byPlace then none else some none
  | some .null => some none
  | some w => (read w).map some

def withDefault {α : Type} (r : Record) (name : String) (default : α)
    (read : Written → Option α) : Option α :=
  match r.values.lookup name with
  | none => some default
  | some w => read w

end Record
end Retrace.Json
