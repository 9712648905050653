import Retrace.Json.Token

/-!
Reading a JSON document: one token at a time moves a machine with a stack of the arrays and objects
that are still open, so nesting may have any depth.
-/
namespace Retrace.Json

namespace Reader

/-- An open array or object with its finished parts, latest first; an object also has the key of the
field under way. -/
inductive Frame
  | array (done : List Written)
  | object (done : List (Option String × Written)) (key : Option String)
  deriving Repr

/-- What may come next. -/
inductive State
  | value (above : List Frame)
  /-- After an opening bracket: a value or the closing bracket. -/
  | firstItem (above : List Frame)
  | firstKey (above : List Frame)
  | key (done : List (Option String × Written)) (above : List Frame)
  | colon (done : List (Option String × Written)) (key : Option String) (above : List Frame)
  /-- After an item or a field: a comma or the closing bracket. -/
  | afterItem (done : List Written) (above : List Frame)
  | afterField (done : List (Option String × Written)) (above : List Frame)
  | finished (v : Written)
  deriving Repr

/-- Hands a value to the innermost open array or object. -/
def put (v : Written) : List Frame → State
  | [] => .finished v
  | .array done :: above => .afterItem (v :: done) above
  | .object done key :: above => .afterField ((key, v) :: done) above

/-- The start of a value. -/
def start? (above : List Frame) : Token → Option State
  | .openArray => some (.firstItem above)
  | .openObject => some (.firstKey above)
  | .null => some (put .null above)
  | .bool b => some (put (.bool b) above)
  | .numeral n => some (put (.numeral n) above)
  | .string s => some (put (.string s) above)
  | _ => none

def step? : State → Token → Option State
  | .value above, t => start? above t
  | .firstItem above, .closeArray => some (put (.array []) above)
  | .firstItem above, t => start? (.array [] :: above) t
  | .firstKey above, .closeObject => some (put (.object []) above)
  | .firstKey above, .string k => some (.colon [] k above)
  | .key done above, .string k => some (.colon done k above)
  | .colon done k above, .colon => some (.value (.object done k :: above))
  | .afterItem done above, .comma => some (.value (.array done :: above))
  | .afterItem done above, .closeArray => some (put (.array done.reverse) above)
  | .afterField done above, .comma => some (.key done above)
  | .afterField done above, .closeObject => some (put (.object done.reverse) above)
  | _, _ => none

def run? : State → List Token → Option Written
  | .finished v, [] => some v
  | _, [] => none
  | s, t :: ts =>
    match step? s t with
    | none => none
    | some s => run? s ts

end Reader

/-- The document that the whole text spells. -/
def Written.ofText? (s : String) : Option Written :=
  Token.ofText? s >>= Reader.run? (.value [])

end Retrace.Json
