import Retrace.Metadata
import Retrace.Time.Reader
import Retrace.Json.Reader
import Retrace.Json.Printer

/-!
A checkpoint: a named selection of transactions that are undone together. It holds their names only,
so a transaction that is no longer kept drops out.
-/
namespace Retrace

structure Checkpoint where
  id : String
  name : String
  description : String
  timestamp : Instant
  /-- Oldest first. -/
  transactionIds : List String
  metadata : Metadata
  deriving Repr, Inhabited

namespace Checkpoint

/-- Each element at its first occurrence only. -/
def firsts : List String → List String → List String
  | _, [] => []
  | seen, x :: xs => if x ∈ seen then firsts seen xs else x :: firsts (x :: seen) xs

def create (id : String) (now : Instant) (name description : String) (transactionIds : List String)
    (metadata : Metadata) : Checkpoint :=
  { id, name, description, timestamp := now, transactionIds := firsts [] transactionIds, metadata }

/-- Newer first. -/
def newestFirst (c d : Checkpoint) : Bool :=
  d.timestamp.lt c.timestamp || (c.timestamp = d.timestamp && c.id ≤ d.id)

def fieldNames : List String :=
  ["id", "name", "description", "timestamp", "transaction_ids", "metadata"]

def toJson (c : Checkpoint) : Json :=
  .object <|
    [("id", .string c.id), ("name", .string c.name), ("description", .string c.description),
      ("timestamp", .string c.timestamp.toText),
      ("transaction_ids", .ofStrings c.transactionIds)] ++ c.metadata.toFields

def ofWritten? (w : Json.Written) : Option Checkpoint := do
  let r ← w.record? fieldNames
  return {
    id := ← r.required "id" Json.Written.text?
    name := ← r.required "name" Json.Written.text?
    description := ← r.required "description" Json.Written.text?
    timestamp := ← r.required "timestamp" fun w => w.text? >>= Instant.ofText?
    transactionIds := ← r.required "transaction_ids" fun w => do
      (← w.items?).mapM Json.Written.text?
    metadata := ← r.withDefault "metadata" [] (Metadata.ofWritten? (Json.greatestDepth - 2)) }

def toText (c : Checkpoint) : String := c.toJson.indented

def ofText? (s : String) : Option Checkpoint := Json.Written.ofText? s >>= ofWritten?

theorem firsts_disjoint (seen xs : List String) : ∀ x ∈ firsts seen xs, x ∉ seen := by
  induction xs generalizing seen with
  | nil => simp [firsts]
  | cons y ys ih =>
    intro x hx
    simp only [firsts] at hx
    split at hx
    · exact ih seen x hx
    · next hy =>
      rcases List.mem_cons.1 hx with rfl | hx
      · exact hy
      · exact fun h => ih (y :: seen) x hx (List.mem_cons_of_mem _ h)

/-- No element is left twice. -/
theorem nodup_firsts (seen xs : List String) : (firsts seen xs).Nodup := by
  induction xs generalizing seen with
  | nil => simp [firsts]
  | cons y ys ih =>
    simp only [firsts]
    split
    · exact ih seen
    · exact List.nodup_cons.2 ⟨fun h => firsts_disjoint _ _ y h List.mem_cons_self, ih _⟩

end Checkpoint
end Retrace
