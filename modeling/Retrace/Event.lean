import Retrace.Operation

/-!
Events that tell subscribers what happens to transactions, and the log that hands them out. A
subscriber who falls too far behind loses the oldest events and is told how many.
-/
namespace Retrace

inductive Event
  | transactionStarted (transactionId name command : String)
  | operationExecuted (transactionId operationId : String) (kind : Operation.Kind) (path : Path)
  | transactionCompleted (transactionId : String) (operationCount : Nat)
  | transactionFailed (transactionId error : String)
  | rollbackStarted (transactionId : String)
  | rollbackCompleted (transactionId : String) (success : Bool) (operations : Nat)
  deriving Repr

namespace Event

/-- The event as a document, none where a path is no text. -/
def toJson? : Event → Option Json
  | transactionStarted id name command =>
    some <| tagged "TransactionStarted"
      [("transaction_id", .string id), ("name", .string name), ("command", .string command)]
  | operationExecuted id operation kind path => do
    return tagged "OperationExecuted"
      [("transaction_id", .string id), ("operation_id", .string operation),
        ("op_type", .string kind.name), ("path", .string (← path.text?))]
  | transactionCompleted id n =>
    some <| tagged "TransactionCompleted"
      [("transaction_id", .string id), ("operation_count", .ofNat n)]
  | transactionFailed id error =>
    some <| tagged "TransactionFailed" [("transaction_id", .string id), ("error", .string error)]
  | rollbackStarted id => some <| tagged "RollbackStarted" [("transaction_id", .string id)]
  | rollbackCompleted id success n =>
    some <| tagged "RollbackCompleted"
      [("transaction_id", .string id), ("success", .bool success),
        ("rolled_back_operations", .ofNat n)]
where
  tagged (tag : String) (fields : List (String × Json)) : Json := .object [(tag, .object fields)]

end Event

structure EventLog where
  /-- Events that a subscriber may be behind; a power of two. -/
  capacity : Nat
  /-- Latest first. -/
  published : List Event
  deriving Repr

/-- The number of events that a subscriber has seen or missed. -/
structure Subscription where
  position : Nat
  deriving DecidableEq, Repr

namespace EventLog

inductive Delivery
  | event (e : Event)
  /-- This many events were lost. -/
  | lagged (count : Nat)
  deriving Repr

/-- A queue has room for all its events from the start, and takes about a hundred bytes for each; the
next power of two would take more than the 2^63 bytes that can be addressed. -/
def greatestCapacity : Nat := 0x100000000000000

/-- The least power of two that is no less than `n`. -/
def powerAbove (n : Nat) : Nat := if n ≤ 1 then 1 else Nat.pow 2 ((n - 1).log2 + 1)

/-- A log for at least one event; none where the capacity is too great. -/
def create? (capacity : Nat) : Option EventLog :=
  if greatestCapacity < capacity then none else some ⟨powerAbove (max capacity 1), []⟩

def publish (l : EventLog) (e : Event) : EventLog := { l with published := e :: l.published }

def subscribe (l : EventLog) : Subscription := ⟨l.published.length⟩

/-- All that a subscriber has not seen yet, and where it stands afterwards. -/
def receive (l : EventLog) (s : Subscription) : List Delivery × Subscription :=
  let behind := l.published.length - s.position
  let kept := (l.published.take (min behind l.capacity)).reverse.map .event
  let lost := behind - l.capacity
  (if lost = 0 then kept else .lagged lost :: kept, l.subscribe)

theorem le_powerAbove (n : Nat) : n ≤ powerAbove n := by
  unfold powerAbove
  split
  · assumption
  · have := @Nat.lt_log2_self (n - 1)
    rw [Nat.pow_eq]
    omega

end EventLog
end Retrace
