import Retrace.Manager.Basic

/-!
Letting go of transactions: one by one, beyond the number that is kept, or by age.
-/
namespace Retrace.Manager

/-- Removes a transaction with its document and its backups. It is kept where the document cannot be
removed. -/
def purge (m : Manager) (id : String) : Script (Except OsError Unit × Manager) := do
  match m.transaction? id with
  | none => return (.ok (), m)
  | some t =>
    match ← m.store.deleteTransaction id with
    | .error e => return (.error e, m)
    | .ok _ =>
      let _ ← m.backups.removeFor t
      return (.ok (), { m with history := m.history.remove id })

/-- Purges as many of the transactions as it can, and counts them. -/
def purgeEach (m : Manager) : List String → Script (Nat × Manager)
  | [] => return (0, m)
  | id :: ids => do
    let (r, m) ← m.purge id
    let (n, m) ← m.purgeEach ids
    return (if r.isOk then n + 1 else n, m)

/-- Older first, equal times by id. -/
def olderFirst (t u : Transaction) : Bool :=
  t.timestamp.lt u.timestamp || (t.timestamp = u.timestamp && t.id ≤ u.id)

/-- The ids of the transactions beyond the number that is kept, oldest first. -/
def excess (m : Manager) : List String :=
  let byAge := m.history.values.mergeSort olderFirst
  (byAge.take (byAge.length - m.settings.maxTransactions)).map (·.id)

def enforceLimit (m : Manager) : Script Manager := do
  let (_, m) ← m.purgeEach m.excess
  return m

/-- Removes the transactions older than a number of days, or all of them, and counts them. None where
the day that many days ago has no date. -/
def clear? (m : Manager) (now : Instant) (olderThanDays : Option Nat) :
    Option (Script (Nat × Manager)) :=
  match olderThanDays with
  | none => some (m.purgeEach (m.history.values.map (·.id)))
  | some days =>
    (now.minusDays? days).map fun cutoff =>
      m.purgeEach ((m.history.values.filter (·.timestamp.lt cutoff)).map (·.id))

end Retrace.Manager
