import Retrace.Manager.Rollback

/-!
Checkpoints over the transactions that are kept, and rolling back all of a checkpoint.
-/
namespace Retrace.Manager

open Rollback (Options Result Pending)

/-- The newest transactions, oldest of them first. -/
def recentIds (m : Manager) : List String :=
  ((m.transactions.take m.settings.checkpointSize).map (·.id)).reverse

/-- The ids that a checkpoint takes: those that are named, if all are known, or the newest ones. -/
def selection (m : Manager) : Option (List String) → Except Error (List String)
  | none => .ok m.recentIds
  | some ids =>
    match ids.find? fun id => (m.transaction? id).isNone with
    | some unknown => .error (.transactionNotFound unknown)
    | none => .ok ids

/-- Makes a checkpoint under a new id. -/
def createCheckpoint (m : Manager) (id : String) (now : Instant) (name description : String)
    (transactionIds : Option (List String)) (metadata : Metadata) :
    Script (Except Error String × Manager) := do
  match m.selection transactionIds with
  | .error e => return (.error e, m)
  | .ok ids =>
    let c := Checkpoint.create id now name description ids metadata
    match ← m.store.saveCheckpoint c with
    | .error e => return (.error e, m)
    | .ok () => return (.ok id, { m with checkpoints := m.checkpoints.put id c })

/-- Deletes a checkpoint; its transactions stay. -/
def deleteCheckpoint (m : Manager) (id : String) : Script (Except Error Unit × Manager) := do
  if m.checkpoints.has id then
    let m := { m with checkpoints := m.checkpoints.remove id }
    match ← m.store.deleteCheckpoint id with
    | .ok _ => return (.ok (), m)
    | .error e => return (.error (.io e), m)
  else return (.error (.checkpointNotFound id), m)

/-- The transactions of a checkpoint that are still kept, newest first; of equal times the one that
is named last. -/
def membersOf (m : Manager) (c : Checkpoint) : List Transaction :=
  ((c.transactionIds.filterMap m.transaction?).mergeSort
    fun t u => !u.timestamp.lt t.timestamp).reverse

/-- One after the other, up to the first failure unless forced. -/
def rollbackInTurn (m : Manager) (now : Instant) (options : Options) :
    List Transaction → Script (List Result × Manager)
  | [] => return ([], m)
  | t :: ts => do
    let (r, m) ← m.rollback now options t.id
    if !r.success && !options.force then return ([r], m)
    else
      let (rs, m) ← m.rollbackInTurn now options ts
      return (r :: rs, m)

def executeEach (m : Manager) (options : Options) : List Transaction → Script (List Pending)
  | [] => return []
  | t :: ts => do
    let p ← m.execute options t
    let rest ← m.executeEach options ts
    return p :: rest

def finalizeEach (m : Manager) (now : Instant) (options : Options) :
    List Pending → Script (List Result × Manager)
  | [] => return ([], m)
  | p :: ps => do
    let (r, m) ← m.finalize now options p
    let (rs, m) ← m.finalizeEach now options ps
    return (r :: rs, m)

/-- All are announced, then reverted on disk, then recorded in order. No failure stops the others. -/
def rollbackTogether (m : Manager) (now : Instant) (options : Options) (ts : List Transaction) :
    Script (List Result × Manager) := do
  let m := ts.foldl (fun m t => m.attempted.publish (.rollbackStarted t.id)) m
  let pending ← m.executeEach options ts
  m.finalizeEach now options pending

def rollbackCheckpoint (m : Manager) (now : Instant) (options : Options) (id : String) :
    Script (Except Error (List Result) × Manager) := do
  match m.checkpoint? id with
  | none => return (.error (.checkpointNotFound id), m)
  | some c =>
    let ts := m.membersOf c
    let (rs, m) ← if options.parallel && !options.interactive then m.rollbackTogether now options ts
      else m.rollbackInTurn now options ts
    return (.ok rs, m)

end Retrace.Manager
