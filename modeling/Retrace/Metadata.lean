import Retrace.Json.Record
import Retrace.Json.Value

/-!
Named values of any kind that accompany a document.
-/
namespace Retrace

/-- Fields by name, in order of their names, each name once. -/
abbrev Metadata := List (String × Json)

namespace Metadata

def set (m : Metadata) (name : String) (v : Json) : Metadata := Json.insertField name v m

/-- Reads an object whose values nest at most `depth` levels. -/
def ofWritten? (depth : Nat) : Json.Written → Option Metadata
  | .object fields => Json.Written.fields? depth [] fields
  | _ => none

/-- The field that a document has for metadata, none where there are none. -/
def toFields (m : Metadata) : List (String × Json) :=
  if m = [] then [] else [("metadata", .object m)]

end Metadata
end Retrace
