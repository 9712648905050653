import Retrace.Manager.Checkpoints
import Retrace.Manager.Recording

/-!
What can be asked of an open manager, and runs of it: one request after the other, each succeeding
or failing, and between two of them whatever may happen to the files.
-/
namespace Retrace

/-- What is asked of a manager. Ids and times are given to it. -/
inductive Request
  | start (id : String) (now : Instant) (name description command : String) (metadata : Metadata)
  | add (id : String) (now : Instant) (kind : Operation.Kind) (p : Path) (details : Operation.Details)
  | complete
  | abort
  | rollback (now : Instant) (options : Rollback.Options) (id : String)
  | createCheckpoint (id : String) (now : Instant) (name description : String)
    (transactionIds : Option (List String)) (metadata : Metadata)
  | deleteCheckpoint (id : String)
  | rollbackCheckpoint (now : Instant) (options : Rollback.Options) (id : String)
  | clear (now : Instant) (olderThanDays : Option Nat)

namespace Request

def options? : Request → Option Rollback.Options
  | rollback _ options _ | rollbackCheckpoint _ options _ => some options
  | _ => none

/-- Meets a request. Of its answers only what came of rollbacks is kept; errors leave a manager as
well. -/
def perform (m : Manager) : Request → Script (List Rollback.Result × Manager)
  | start id now name description command metadata =>
    return ([], (m.start id now name description command metadata).2)
  | add id now kind p details => do
    let (_, m) ← m.add id now kind p details
    return ([], m)
  | complete => do
    let (_, m) ← m.complete
    return ([], m)
  | abort => do
    let (_, m) ← m.abort
    return ([], m)
  | rollback now options id => do
    let (r, m) ← m.rollback now options id
    return ([r], m)
  | createCheckpoint id now name description transactionIds metadata => do
    let (_, m) ← m.createCheckpoint id now name description transactionIds metadata
    return ([], m)
  | deleteCheckpoint id => do
    let (_, m) ← m.deleteCheckpoint id
    return ([], m)
  | rollbackCheckpoint now options id => do
    let (r, m) ← m.rollbackCheckpoint now options id
    return (r.toOption.getD [], m)
  | clear now olderThanDays =>
    match m.clear? now olderThanDays with
    | none => return ([], m)
    | some s => do
      let (_, m) ← s
      return ([], m)

end Request

/-- A request that was met, with the manager and the tree before and after. -/
structure Turn where
  before : Manager
  tree : FileSystem
  request : Request
  results : List Rollback.Result
  after : Manager
  left : FileSystem

/-- The turn that a request makes. -/
def Request.turn (m : Manager) (fs : FileSystem) (r : Request) : Turn :=
  let out := (r.perform m).run fs
  ⟨m, fs, r, out.1.1, out.1.2, out.2⟩

theorem Request.turn_request (m : Manager) (fs : FileSystem) (r : Request) : (r.turn m fs).request = r := rfl

theorem Request.turn_before (m : Manager) (fs : FileSystem) (r : Request) : (r.turn m fs).before = m := rfl

/-- Requests that are met one after the other. Each is `Fair`, and between two requests the tree
changes in no other way than `Meanwhile` says. -/
inductive Run (Fair : Manager → FileSystem → Request → Prop)
    (Meanwhile : Manager → FileSystem → FileSystem → Prop) (m : Manager) (fs : FileSystem) :
    List Turn → Manager → FileSystem → Prop
  | nil : Run Fair Meanwhile m fs [] m fs
  | wait {turns : List Turn} {m' : Manager} {fs' fs'' : FileSystem}
    (h : Run Fair Meanwhile m fs turns m' fs') (hchange : Meanwhile m' fs' fs'') :
    Run Fair Meanwhile m fs turns m' fs''
  | snoc {turns : List Turn} {m' : Manager} {fs' : FileSystem} {r : Request} {s : Turn}
    (h : Run Fair Meanwhile m fs turns m' fs') (hfair : Fair m' fs' r) (hs : s = r.turn m' fs') :
    Run Fair Meanwhile m fs (turns ++ [s]) s.after s.left

/-- What holds at first, and is kept by fair requests and in between, holds in the end. It may be
about the turns so far as well. -/
theorem Run.invariant {Fair : Manager → FileSystem → Request → Prop}
    {Meanwhile : Manager → FileSystem → FileSystem → Prop}
    {m m' : Manager} {fs fs' : FileSystem} {turns : List Turn}
    (h : Run Fair Meanwhile m fs turns m' fs') (Inv : List Turn → Manager → FileSystem → Prop)
    (hstart : Inv [] m fs)
    (hwait : ∀ turns m fs fs', Inv turns m fs → Meanwhile m fs fs' → Inv turns m fs')
    (hturn : ∀ turns m fs r, Inv turns m fs → Fair m fs r →
      Inv (turns ++ [r.turn m fs]) (r.turn m fs).after (r.turn m fs).left) :
    Inv turns m' fs' := by
  induction h with
  | nil => exact hstart
  | wait h hchange ih => exact hwait _ _ _ _ ih hchange
  | snoc h hfair hs ih =>
    subst hs
    exact hturn _ _ _ _ ih hfair

end Retrace
