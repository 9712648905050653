import Retrace.Proofs.DryRun
import Retrace.Proofs.Events
import Retrace.Proofs.Loading

/-!
What is published and what is counted. Each turn of a manager tells what it does and counts what it
tells (`turn_recounts`), so that after any run events and counters say the same
(`events_and_counters`).
-/
namespace Retrace

open Script
open Rollback (Options Result Pending)

/-! ### Rolling back -/

namespace Manager

variable {m m' m'' : Manager} {t : Transaction} {id : String} {es es' : List Event} {dry : Bool}

/-- What rollbacks do to a manager: they publish events and count them, and may change transactions
that are kept, each under its own id. -/
structure Narrates (m : Manager) (dry : Bool) (es : List Event) (m' : Manager) : Prop where
  events : m'.events.published = es ++ m.events.published
  counters : m.counters.Follows m'.counters dry es 0
  current : m'.current = m.current
  keyed : Keyed m → Keyed m'
  known : ∀ id, (m.transaction? id).isSome → (m'.transaction? id).isSome

theorem Narrates.refl (m : Manager) (dry : Bool) : Narrates m dry [] m where
  events := rfl
  counters := by constructor <;> simp [reverted]
  current := rfl
  keyed := id
  known _ := id

theorem Narrates.trans (h : Narrates m dry es m') (h' : Narrates m' dry es' m'') :
    Narrates m dry (es' ++ es) m'' where
  events := by rw [h'.events, h.events, List.append_assoc]
  counters := h.counters.trans h'.counters
  current := h'.current.trans h.current
  keyed hk := h'.keyed (h.keyed hk)
  known id hid := h'.known id (h.known id hid)

theorem Narrates.publish {e : Event} (hm : m' = { m with
    events := m.events.publish e, counters := m.counters.after dry e }) : Narrates m dry [e] m' := by
  subst hm
  exact ⟨rfl, m.counters.follows_after dry e, rfl, id, fun _ => id⟩

theorem announcing_narrates (m : Manager) (dry : Bool) (t : Transaction) :
    Narrates m dry [.rollbackStarted t.id] (m.announcing t) := .publish rfl

def completion (r : Result) : Event :=
  .rollbackCompleted r.transactionId r.success r.rolledBackOperations

theorem settle_narrates (m : Manager) (options : Options) (r : Result) :
    Narrates m options.dryRun [completion (m.settle options r).1] (m.settle options r).2 := by
  refine .publish ?_
  simp only [settle, publish, completion, Counters.after]
  cases r.errors.isEmpty <;> cases options.dryRun <;> rfl

theorem put_narrates {u : Transaction} (hu : u.id = id) :
    Narrates m dry [] { m with history := m.history.put id u } where
  events := rfl
  counters := (Narrates.refl m dry).counters
  current := rfl
  keyed hk j v hv := by
    rw [transaction?_put] at hv
    split at hv
    · next hj => cases hv; rw [hu, hj]
    · exact hk j v hv
  known j hj := by
    rw [transaction?_put]
    split
    · rfl
    · exact hj

theorem finalize_narrates (now : Instant) (options : Options) (fs : FileSystem)
    (hk : Keyed m) {p : Pending} (hp : (m.transaction? p.result.transactionId).isSome) :
    ((m.finalize now options p).run fs).1.1.transactionId = p.result.transactionId ∧
      Narrates m options.dryRun [completion ((m.finalize now options p).run fs).1.1]
        ((m.finalize now options p).run fs).1.2 := by
  obtain ⟨t, ht⟩ := Option.isSome_iff_exists.1 hp
  have hid := hk _ t ht
  have hcases : Finalized m now options p t fs ((m.finalize now options p).run fs) := finalize_cases ht
  generalize (m.finalize now options p).run fs = out at hcases
  cases hcases with
  | quiet h => exact ⟨rfl, settle_narrates _ _ _⟩
  | failed hsuccess herrors hdry hsave =>
    exact ⟨rfl, (put_narrates (u := restored t) hid).trans (settle_narrates _ _ _)⟩
  | recorded hsuccess herrors hdry hsave hremove =>
    exact ⟨rfl, (put_narrates (u := t.reverted now) hid).trans (settle_narrates _ _ _)⟩

structure Told (es : List Event) : Prop where
  paired : Paired es
  only : ∀ e ∈ es, e.ofRollback = true

theorem Told.append (h' : Told es') (h : Told es) : Told (es' ++ es) where
  paired := h'.paired.append h.paired
  only e he := (List.mem_append.1 he).elim (h'.only e) (h.only e)

theorem Told.silent (h : Told es) :
    ∀ e ∈ es, e.started? = none ∧ e.executed? = none ∧ e.completed? = none := by
  intro e he
  have honly := h.only e he
  cases e with
  | rollbackStarted | rollbackCompleted => exact ⟨rfl, rfl, rfl⟩
  | _ => cases honly

theorem told_pair (r : Result) (hid : r.transactionId = id) :
    Told ([completion r] ++ [.rollbackStarted id]) where
  paired := by
    refine .of_halves (fun _ => rfl) (fun _ => rfl) fun j => ?_
    rw [← hid]
    rfl
  only e he := by
    rcases List.mem_cons.1 he with rfl | he
    · rfl
    · rw [List.mem_singleton.1 he]
      rfl

theorem rollback_narrates (now : Instant) (options : Options) (fs : FileSystem)
    (hk : Keyed m) (hid : (m.transaction? id).isSome) :
    ∃ es, Narrates m options.dryRun es ((m.rollback now options id).run fs).1.2 ∧ Told es := by
  obtain ⟨t, ht⟩ := Option.isSome_iff_exists.1 hid
  have hstart := announcing_narrates m options.dryRun t
  rw [rollback_some ht, run_bind]
  generalize hp : (m.execute options t).run fs = executed
  have hpid : executed.1.result.transactionId = t.id := by rw [← hp, execute_id]
  have hknown : ((m.announcing t).transaction? executed.1.result.transactionId).isSome := by
    rw [hpid, hk id t ht]
    exact hstart.known id hid
  obtain ⟨hrid, hend⟩ :=
    finalize_narrates now options executed.2 (hstart.keyed hk) hknown
  exact ⟨_, hstart.trans hend, told_pair _ (hrid.trans hpid)⟩

theorem rollbackInTurn_narrates (now : Instant) (options : Options) (fs : FileSystem)
    (hk : Keyed m) (ts : List Transaction) (hts : ∀ t ∈ ts, (m.transaction? t.id).isSome) :
    ∃ es, Narrates m options.dryRun es ((m.rollbackInTurn now options ts).run fs).1.2 ∧ Told es := by
  induction ts generalizing m fs with
  | nil => exact ⟨[], .refl m _, .nil, fun e he => nomatch he⟩
  | cons t ts ih =>
    obtain ⟨es, hfirst, htold⟩ := rollback_narrates now options fs hk (hts t List.mem_cons_self)
    simp only [rollbackInTurn, run_bind]
    split
    · exact ⟨es, hfirst, htold⟩
    · obtain ⟨es', hrest, htold'⟩ := ih ((m.rollback now options t.id).run fs).2
        (hfirst.keyed hk) fun u hu => hfirst.known _ (hts u (List.mem_cons_of_mem _ hu))
      rw [run_bind]
      exact ⟨es' ++ es, hfirst.trans hrest, htold'.append htold⟩

theorem foldl_announcing_narrates (m : Manager) (dry : Bool) (ts : List Transaction) :
    Narrates m dry (ts.reverse.map fun t => .rollbackStarted t.id) (ts.foldl announcing m) := by
  induction ts generalizing m with
  | nil => exact .refl m dry
  | cons t ts ih =>
    rw [List.reverse_cons, List.map_append]
    exact (announcing_narrates m dry t).trans (ih _)

theorem finalizeEach_narrates (now : Instant) (options : Options) (fs : FileSystem)
    (hk : Keyed m) (ps : List Pending)
    (hps : ∀ p ∈ ps, (m.transaction? p.result.transactionId).isSome) :
    ∃ rs : List Result, rs.map (·.transactionId) = ps.reverse.map (·.result.transactionId) ∧
      Narrates m options.dryRun (rs.map completion) ((m.finalizeEach now options ps).run fs).1.2 := by
  induction ps generalizing m fs with
  | nil => exact ⟨[], rfl, .refl m _⟩
  | cons p ps ih =>
    obtain ⟨hid, hfirst⟩ := finalize_narrates now options fs hk (hps p List.mem_cons_self)
    obtain ⟨rs, hids, hrest⟩ := ih ((m.finalize now options p).run fs).2 (hfirst.keyed hk)
      fun q hq => hfirst.known _ (hps q (List.mem_cons_of_mem _ hq))
    simp only [finalizeEach, run_bind, run_pure]
    refine ⟨rs ++ [((m.finalize now options p).run fs).1.1], ?_, ?_⟩
    · rw [List.map_append, hids, List.reverse_cons, List.map_append, List.map_singleton,
        List.map_singleton, hid]
    · rw [List.map_append]
      exact hfirst.trans hrest

/-- What rollbacks tell that begin together. -/
theorem told_together {ts : List Transaction} {rs : List Result}
    (h : rs.map (·.transactionId) = ts.reverse.map (·.id)) :
    Told (rs.map completion ++ ts.reverse.map fun t => .rollbackStarted t.id) := by
  have hends : ∀ id, ended id (rs.map completion) = (rs.map (·.transactionId)).count id := by
    intro id
    rw [ended, List.filterMap_map, ← List.filterMap_eq_map]
    rfl
  have hstarts : ∀ id, begun id (ts.reverse.map fun t => .rollbackStarted t.id) =
      (ts.reverse.map (·.id)).count id := by
    intro id
    rw [begun, List.filterMap_map, ← List.filterMap_eq_map]
    rfl
  refine ⟨.of_halves (fun id => ?_) (fun id => ?_) fun id => by rw [hends, hstarts, h], fun e he => ?_⟩
  · rw [ended, List.filterMap_map]
    simp [Function.comp_def, Event.rollbackCompleted?]
  · rw [begun, List.filterMap_map]
    simp [Function.comp_def, Event.rollbackStarted?, completion]
  · rcases List.mem_append.1 he with he | he
    · obtain ⟨r, -, rfl⟩ := List.mem_map.1 he
      rfl
    · obtain ⟨t, -, rfl⟩ := List.mem_map.1 he
      rfl

theorem rollbackTogether_narrates (now : Instant) (options : Options) (fs : FileSystem)
    (hk : Keyed m) (ts : List Transaction) (hts : ∀ t ∈ ts, m.transaction? t.id = some t) :
    ∃ es, Narrates m options.dryRun es ((m.rollbackTogether now options ts).run fs).1.2 ∧
      Told es := by
  have hstart := foldl_announcing_narrates m options.dryRun ts
  have hkept : ∀ t ∈ ts, (ts.foldl announcing m).transaction? t.id = some t := fun t ht => by
    rw [(foldl_announcing_inert m ts).transaction?_eq]
    exact hts t ht
  obtain ⟨hids, -⟩ := executeEach_ready options fs hkept
  rw [rollbackTogether_eq, run_bind]
  generalize ((ts.foldl announcing m).executeEach options ts).run fs = executed at hids
  have hknown : ∀ p ∈ executed.1,
      ((ts.foldl announcing m).transaction? p.result.transactionId).isSome := by
    intro p hp
    have hmem : p.result.transactionId ∈ ts.map (·.id) := hids ▸ List.mem_map_of_mem hp
    obtain ⟨t, ht, hid⟩ := List.mem_map.1 hmem
    rw [← hid, hkept t ht]
    rfl
  obtain ⟨rs, hrs, hend⟩ := finalizeEach_narrates now options executed.2 (hstart.keyed hk)
    executed.1 hknown
  refine ⟨_, hstart.trans hend, told_together ?_⟩
  rw [hrs, List.map_reverse, hids, List.map_reverse]

theorem rollbackCheckpoint_narrates (now : Instant) (options : Options) (fs : FileSystem)
    (id : String) (hk : Keyed m) :
    ∃ es, Narrates m options.dryRun es ((m.rollbackCheckpoint now options id).run fs).1.2 ∧
      Told es := by
  cases hc : m.checkpoint? id with
  | none =>
    rw [rollbackCheckpoint_none hc]
    exact ⟨[], .refl m _, .nil, fun e he => nomatch he⟩
  | some c =>
    have hts : ∀ t ∈ m.membersOf c, m.transaction? t.id = some t := fun t ht =>
      hk.transaction?_of_member ht
    rw [rollbackCheckpoint_some hc, run_bind, rollbackMembers]
    split
    · exact rollbackTogether_narrates now options fs hk _ hts
    · exact rollbackInTurn_narrates now options fs hk _ fun t ht => by rw [hts t ht]; rfl

end Manager

/-! ### Turns -/

namespace Turn

/-- The turn rolls back a transaction that is not known. -/
def missed (s : Turn) : Bool :=
  match s.request with
  | .rollback _ _ id => (s.before.transaction? id).isNone
  | _ => false

/-- The turn gives up the transaction under way. -/
def aborted (s : Turn) : Bool :=
  match s.request with
  | .abort => (s.before.abort.run s.tree).1.1.isOk
  | _ => false

/-- The turn is a dry run. -/
def isDry (s : Turn) : Bool := s.request.options?.any (·.dryRun)

/-- The events that the turn publishes, latest first. -/
def published (s : Turn) : List Event :=
  s.after.events.published.take
    (s.after.events.published.length - s.before.events.published.length)

/-- What a turn does to the transaction under way, whether it gives that up, and the events that tell
of it. -/
inductive Tells (s : Turn) : Bool → List Event → Prop
  | nothing (hcurrent : s.after.current = s.before.current) : s.Tells false []
  | started {t : Transaction} {name command : String} (hbefore : s.before.current = none)
    (hcurrent : s.after.current = some t) (hnone : t.operations = []) :
    s.Tells false [.transactionStarted t.id name command]
  | executed {t : Transaction} {op : Operation} (hbefore : s.before.current = some t)
    (hcurrent : s.after.current = some { t with operations := t.operations ++ [op] }) :
    s.Tells false [.operationExecuted t.id op.id op.kind op.path]
  | failed {t : Transaction} {e : String} (hbefore : s.before.current = some t)
    (hcurrent : s.after.current = some { t with status := .failed }) :
    s.Tells false [.transactionFailed t.id e]
  | completed {t : Transaction} (hbefore : s.before.current = some t)
    (hcurrent : s.after.current = none) :
    s.Tells false [.transactionCompleted t.id t.operations.length]
  | aborted {t : Transaction} (hbefore : s.before.current = some t)
    (hcurrent : s.after.current = none) : s.Tells true []
  | rolledBack {es : List Event} (hcurrent : s.after.current = s.before.current)
    (htold : Manager.Told es) : s.Tells false es

structure Recounts (s : Turn) (es : List Event) : Prop where
  events : s.after.events.published = es ++ s.before.events.published
  counters : s.before.counters.Follows s.after.counters s.isDry es s.missed.toNat
  keyed : s.after.Keyed
  tells : s.Tells s.aborted es

theorem Recounts.published_eq {s : Turn} {es : List Event} (h : s.Recounts es) : s.published = es := by
  rw [published, h.events, List.length_append, Nat.add_sub_cancel, List.take_left]

end Turn

namespace Manager

variable {m m' : Manager} {fs : FileSystem} {s : Turn} {es : List Event}

theorem recounts_nothing {after : Manager} (hafter : s.after = after)
    (hevents : after.events = s.before.events) (hcounters : after.counters = s.before.counters)
    (hcurrent : after.current = s.before.current) (hkeyed : after.Keyed)
    (haborted : s.aborted = false) (hmissed : s.missed = false) : s.Recounts [] where
  events := by rw [hafter, hevents]; rfl
  counters := by
    rw [hafter, hcounters, hmissed]
    exact (Narrates.refl s.before _).counters
  keyed := hafter ▸ hkeyed
  tells := by rw [haborted]; exact .nothing (by rw [hafter, hcurrent])

theorem recounts_event {e : Event} {after : Manager}
    (hafter : s.after = after) (hevents : after.events = s.before.events.publish e)
    (hcounters : after.counters = s.before.counters.after s.isDry e)
    (hkeyed : after.Keyed) (hmissed : s.missed = false) (htells : s.Tells s.aborted [e]) :
    s.Recounts [e] where
  events := by rw [hafter, hevents]; rfl
  counters := by
    rw [hafter, hcounters, hmissed]
    exact s.before.counters.follows_after s.isDry e
  keyed := hafter ▸ hkeyed
  tells := htells

theorem recounts_narrated {options : Options}
    (h : Narrates s.before options.dryRun es s.after) (htold : Told es) (hkeyed : Keyed s.before)
    (hoptions : s.request.options? = some options) (haborted : s.aborted = false)
    (hmissed : s.missed = false) : s.Recounts es where
  events := h.events
  counters := by
    rw [hmissed, Turn.isDry, hoptions]
    exact h.counters
  keyed := h.keyed hkeyed
  tells := by rw [haborted]; exact .rolledBack h.current htold

theorem abort_told (m : Manager) (fs : FileSystem) :
    ((m.abort.run fs).1.1.isOk = false ∧ (m.abort.run fs).1.2 = m) ∨
      ∃ t, m.current = some t ∧ (m.abort.run fs).1.1.isOk = true ∧
        (m.abort.run fs).1.2 = { m with current := none } := by
  rw [abort]
  cases hc : m.current with
  | none => exact .inl ⟨rfl, rfl⟩
  | some t =>
    dsimp only
    rw [run_bind]
    split
    · exact .inl ⟨rfl, rfl⟩
    · rw [run_bind]
      exact .inr ⟨t, rfl, rfl, rfl⟩

theorem Fewer.keyed (h : Fewer m m') (hk : Keyed m) : Keyed m' :=
  fun id t ht => hk id t (h.kept id t ht)

theorem keep_keyed (hk : Keyed m) (t : Transaction) : Keyed (m.keep t) := by
  intro id u hu
  rw [transaction?_keep] at hu
  split at hu
  · next heq => cases hu; exact heq.symm
  · exact hk id u hu

section

variable {id name description command : String} {now : Instant} {metadata : Metadata}
  {kind : Operation.Kind} {p : Path} {details : Operation.Details} {options : Options}
  {ids : Option (List String)} {days : Option Nat}

theorem start_recounts (hk : Keyed m) (fs : FileSystem) :
    ∃ es, (Request.turn m fs (.start id now name description command metadata)).Recounts es := by
  cases hc : m.current with
  | some t =>
    have hafter : (Request.turn m fs (.start id now name description command metadata)).after = m := by
      simp only [Request.turn, Request.perform, run_pure, start, hc]
    exact ⟨[], recounts_nothing hafter rfl rfl rfl hk rfl rfl⟩
  | none =>
    have hafter : (Request.turn m fs (.start id now name description command metadata)).after =
        { m with
          events := m.events.publish (.transactionStarted id name command)
          current := some (.start id now name description command metadata)
          counters.transactionsStarted := m.counters.transactionsStarted + 1 } := by
      simp only [Request.turn, Request.perform, run_pure, start, hc]
    exact ⟨_, recounts_event hafter rfl rfl hk rfl
      (.started (t := .start id now name description command metadata) hc (by rw [hafter]) rfl)⟩

theorem add_recounts (hk : Keyed m) (fs : FileSystem) :
    ∃ es, (Request.turn m fs (.add id now kind p details)).Recounts es := by
  rcases add_cases m fs id now kind p details with h | ⟨t, previous, hc, -, h⟩
  · have hafter : (Request.turn m fs (.add id now kind p details)).after = m := by
      simpa only [Request.turn, Request.perform, run_bind, run_pure] using h
    exact ⟨[], recounts_nothing hafter rfl rfl rfl hk rfl rfl⟩
  · have hafter : (Request.turn m fs (.add id now kind p details)).after =
        m.append t (m.operationOf id now kind p details previous) := by
      simpa only [Request.turn, Request.perform, run_bind, run_pure] using h
    exact ⟨_, recounts_event hafter rfl rfl hk rfl
      (.executed hc (by rw [hafter]; rfl))⟩

theorem complete_recounts (hk : Keyed m) (fs : FileSystem) :
    ∃ es, (Request.turn m fs .complete).Recounts es := by
  rcases complete_cases m fs with h | ⟨t, hc, ⟨e, h⟩ | ⟨m₁, hfewer, h⟩⟩
  · have hafter : (Request.turn m fs .complete).after = m := by
      simpa only [Request.turn, Request.perform, run_bind, run_pure] using h
    exact ⟨[], recounts_nothing hafter rfl rfl rfl hk rfl rfl⟩
  · have hafter : (Request.turn m fs .complete).after = m.markFailed { t with status := .completed } e := by
      simpa only [Request.turn, Request.perform, run_bind, run_pure] using h
    exact ⟨_, recounts_event hafter rfl rfl hk rfl (.failed (t := t) hc (by rw [hafter]; rfl))⟩
  · have hafter : (Request.turn m fs .complete).after =
        m₁.publish (.transactionCompleted t.id t.operations.length) := by
      simpa only [Request.turn, Request.perform, run_bind, run_pure] using h
    have hm₁ := hfewer.others
    refine ⟨_, recounts_event hafter ?_ ?_ (hfewer.keyed (keep_keyed hk _)) rfl
      (.completed hc ?_)⟩
    · rw [publish, hm₁]; rfl
    · rw [publish, hm₁]; rfl
    · rw [hafter, publish, hm₁]; rfl

theorem abort_recounts (hk : Keyed m) (fs : FileSystem) :
    ∃ es, (Request.turn m fs .abort).Recounts es := by
  have hafter : (Request.turn m fs .abort).after = (m.abort.run fs).1.2 := by
    simp only [Request.turn, Request.perform, run_bind, run_pure]
  rcases abort_told m fs with ⟨hno, h⟩ | ⟨t, hc, hyes, h⟩
  · rw [h] at hafter
    exact ⟨[], recounts_nothing hafter rfl rfl rfl hk hno rfl⟩
  · rw [h] at hafter
    have haborted : (Request.turn m fs .abort).aborted = true := hyes
    refine ⟨[], by rw [hafter]; rfl, ?_, hafter ▸ hk, ?_⟩
    · rw [hafter]
      exact (Narrates.refl m _).counters
    · rw [haborted]
      exact .aborted hc (by rw [hafter])

theorem rollback_recounts (hk : Keyed m) (fs : FileSystem) :
    ∃ es, (Request.turn m fs (.rollback now options id)).Recounts es := by
  have hafter : (Request.turn m fs (.rollback now options id)).after =
      ((m.rollback now options id).run fs).1.2 := by
    simp only [Request.turn, Request.perform, run_bind, run_pure]
  cases ht : m.transaction? id with
  | none =>
    have hmissed : (Request.turn m fs (.rollback now options id)).missed = true := by
      simp [Turn.missed, Request.turn, ht]
    rw [rollback_none ht] at hafter
    refine ⟨[], by rw [hafter]; rfl, ?_, hafter ▸ hk, .nothing (by rw [hafter]; rfl)⟩
    rw [hafter, hmissed]
    constructor <;> simp [reverted, attempted, Request.turn]
  | some t =>
    have hmissed : (Request.turn m fs (.rollback now options id)).missed = false := by
      simp [Turn.missed, Request.turn, ht]
    obtain ⟨es, h, htold⟩ := rollback_narrates now options fs hk (by rw [ht]; rfl)
    rw [← hafter] at h
    exact ⟨es, recounts_narrated h htold hk rfl rfl hmissed⟩

theorem createCheckpoint_recounts (hk : Keyed m) (fs : FileSystem) :
    ∃ es, (Request.turn m fs (.createCheckpoint id now name description ids metadata)).Recounts es := by
  have hafter : (Request.turn m fs (.createCheckpoint id now name description ids metadata)).after =
      ((m.createCheckpoint id now name description ids metadata).run fs).1.2 := by
    simp only [Request.turn, Request.perform, run_bind, run_pure]
  rcases createCheckpoint_cases m fs id now name description ids metadata with h | ⟨c, -, h⟩ <;>
    rw [h] at hafter <;>
    exact ⟨[], recounts_nothing hafter rfl rfl rfl hk rfl rfl⟩

theorem deleteCheckpoint_recounts (hk : Keyed m) (fs : FileSystem) :
    ∃ es, (Request.turn m fs (.deleteCheckpoint id)).Recounts es := by
  have hafter : (Request.turn m fs (.deleteCheckpoint id)).after =
      ((m.deleteCheckpoint id).run fs).1.2 := by
    simp only [Request.turn, Request.perform, run_bind, run_pure]
  rcases deleteCheckpoint_cases m fs id with h | h <;>
    rw [h] at hafter <;>
    exact ⟨[], recounts_nothing hafter rfl rfl rfl hk rfl rfl⟩

theorem rollbackCheckpoint_recounts (hk : Keyed m) (fs : FileSystem) :
    ∃ es, (Request.turn m fs (.rollbackCheckpoint now options id)).Recounts es := by
  obtain ⟨es, h, htold⟩ := rollbackCheckpoint_narrates now options fs id hk
  have hafter : (Request.turn m fs (.rollbackCheckpoint now options id)).after =
      ((m.rollbackCheckpoint now options id).run fs).1.2 := by
    simp only [Request.turn, Request.perform, run_bind, run_pure]
  rw [← hafter] at h
  exact ⟨es, recounts_narrated h htold hk rfl rfl rfl⟩

theorem clear_recounts (hk : Keyed m) (fs : FileSystem) :
    ∃ es, (Request.turn m fs (.clear now days)).Recounts es := by
  have hafter : Fewer m (Request.turn m fs (.clear now days)).after := by
    simp only [Request.turn, Request.perform]
    cases hs : m.clear? now days with
    | none => exact .refl m
    | some s => simpa only [run_bind, run_pure] using clear_fewer fs hs
  exact ⟨[], recounts_nothing hafter.others rfl rfl rfl (hafter.others ▸ hafter.keyed hk) rfl rfl⟩

end

/-- Each turn tells what it does, and counts what it tells. -/
theorem turn_recounts (hk : Keyed m) (r : Request) (fs : FileSystem) :
    ∃ es, (r.turn m fs).Recounts es :=
  match r with
  | .start .. => start_recounts hk fs
  | .add .. => add_recounts hk fs
  | .complete => complete_recounts hk fs
  | .abort => abort_recounts hk fs
  | .rollback .. => rollback_recounts hk fs
  | .createCheckpoint .. => createCheckpoint_recounts hk fs
  | .deleteCheckpoint .. => deleteCheckpoint_recounts hk fs
  | .rollbackCheckpoint .. => rollbackCheckpoint_recounts hk fs
  | .clear .. => clear_recounts hk fs

end Manager

/-- A turn goes on with what the events tell. -/
theorem Chronicle.tells {s : Turn} {aborted : Bool} (h : Chronicle es s.before.current)
    (htells : s.Tells aborted new) : Chronicle (new ++ es) s.after.current := by
  cases htells with
  | nothing hcurrent =>
    rw [hcurrent]
    exact h
  | started hbefore hcurrent hnone =>
    rw [hbefore] at h
    rw [hcurrent]
    exact h.start hnone
  | executed hbefore hcurrent =>
    rw [hbefore] at h
    rw [hcurrent]
    exact h.execute
  | @failed t e hbefore hcurrent =>
    refine h.silent (fun e he => ?_) fun t' ht' => ?_
    · rw [List.mem_singleton.1 he]
      exact ⟨rfl, rfl, rfl⟩
    · rw [hcurrent] at ht'
      cases ht'
      exact ⟨t, hbefore, rfl, rfl⟩
  | completed hbefore hcurrent =>
    rw [hbefore] at h
    rw [hcurrent]
    exact h.complete
  | aborted hbefore hcurrent =>
    rw [hcurrent]
    exact h.abort
  | rolledBack hcurrent htold =>
    rw [hcurrent]
    exact h.silent htold.silent fun t ht => ⟨t, ht, rfl, rfl⟩

theorem Turn.Tells.paired {s : Turn} {aborted : Bool} {es : List Event} (h : s.Tells aborted es) :
    Paired es := by
  cases h with
  | nothing | aborted => exact .nil
  | started | executed | failed | completed => exact .single rfl
  | rolledBack hcurrent htold => exact htold.paired

/-! ### Runs -/

/-- Events and counters agree, after the turns that have been made. -/
structure Agrees (turns : List Turn) (m : Manager) : Prop where
  keyed : m.Keyed
  chronicle : Chronicle m.events.published m.current
  paired : Paired m.events.published
  started : m.counters.transactionsStarted = (m.events.published.filterMap Event.started?).length
  balance : m.counters.transactionsStarted =
    m.counters.transactionsCompleted + turns.countP Turn.aborted + m.current.isSome.toNat
  completed :
    m.counters.transactionsCompleted = (m.events.published.filterMap Event.completed?).length
  failed : m.counters.transactionsFailed = (m.events.published.filterMap Event.failed?).length
  recorded : m.counters.operationsRecorded = (m.events.published.filterMap Event.executed?).length
  attempted : m.counters.rollbacksAttempted =
    (m.events.published.filterMap Event.rollbackStarted?).length + turns.countP Turn.missed
  succeeded :
    m.counters.rollbacksSucceeded = (m.events.published.filterMap Event.outcome?).countP (·.1)
  rolledBack : m.counters.operationsRolledBack =
    (turns.map fun s => if s.isDry then 0 else reverted s.published).sum

/-- What a turn does to the balance of transactions. -/
theorem Turn.Tells.balance {s : Turn} {dry aborted : Bool} {es : List Event} {missed n : Nat}
    (h : s.Tells aborted es) (hc : s.before.counters.Follows s.after.counters dry es missed)
    (hn : s.before.counters.transactionsStarted =
      s.before.counters.transactionsCompleted + n + s.before.current.isSome.toNat) :
    s.after.counters.transactionsStarted = s.after.counters.transactionsCompleted +
      (n + aborted.toNat) + s.after.current.isSome.toNat := by
  have hstarted := hc.started
  have hcompleted := hc.completed
  cases h with
  | nothing hcurrent =>
    rw [hcurrent]
    simp only [List.filterMap_nil, List.length_nil] at hstarted hcompleted
    simp only [Bool.toNat_false]
    omega
  | rolledBack hcurrent htold =>
    rw [List.filterMap_eq_nil_iff.2 fun e he => (htold.silent e he).1] at hstarted
    rw [List.filterMap_eq_nil_iff.2 fun e he => (htold.silent e he).2.2] at hcompleted
    rw [hcurrent]
    simp only [List.length_nil] at hstarted hcompleted
    simp only [Bool.toNat_false]
    omega
  | started hbefore hcurrent =>
    rw [hbefore] at hn
    rw [hcurrent]
    change _ = _ + 1 at hstarted
    change _ = _ + 0 at hcompleted
    simp only [Option.isSome_none, Option.isSome_some, Bool.toNat_false, Bool.toNat_true] at hn ⊢
    omega
  | executed hbefore hcurrent | failed hbefore hcurrent =>
    rw [hbefore] at hn
    rw [hcurrent]
    change _ = _ + 0 at hstarted
    change _ = _ + 0 at hcompleted
    simp only [Option.isSome_some, Bool.toNat_false, Bool.toNat_true] at hn ⊢
    omega
  | completed hbefore hcurrent =>
    rw [hbefore] at hn
    rw [hcurrent]
    change _ = _ + 0 at hstarted
    change _ = _ + 1 at hcompleted
    simp only [Option.isSome_none, Option.isSome_some, Bool.toNat_false, Bool.toNat_true] at hn ⊢
    omega
  | aborted hbefore hcurrent =>
    rw [hbefore] at hn
    rw [hcurrent]
    change _ = _ + 0 at hstarted
    change _ = _ + 0 at hcompleted
    simp only [Option.isSome_none, Option.isSome_some, Bool.toNat_false, Bool.toNat_true] at hn ⊢
    omega

theorem Agrees.turn {turns : List Turn} {s : Turn} {es : List Event} (h : Agrees turns s.before)
    (hs : s.Recounts es) : Agrees (turns ++ [s]) s.after where
  keyed := hs.keyed
  chronicle := by rw [hs.events]; exact h.chronicle.tells hs.tells
  paired := by rw [hs.events]; exact hs.tells.paired.append h.paired
  started := by
    rw [hs.counters.started, h.started, hs.events, List.filterMap_append, List.length_append,
      Nat.add_comm]
  balance := by
    rw [List.countP_append, List.countP_singleton]
    have := hs.tells.balance hs.counters h.balance
    cases haborted : s.aborted <;> simpa [haborted] using this
  completed := by
    rw [hs.counters.completed, h.completed, hs.events, List.filterMap_append, List.length_append,
      Nat.add_comm]
  failed := by
    rw [hs.counters.failed, h.failed, hs.events, List.filterMap_append, List.length_append,
      Nat.add_comm]
  recorded := by
    rw [hs.counters.recorded, h.recorded, hs.events, List.filterMap_append, List.length_append,
      Nat.add_comm]
  attempted := by
    rw [hs.counters.attempted, h.attempted, hs.events, List.filterMap_append, List.length_append,
      List.countP_append, List.countP_singleton]
    cases s.missed <;> simp <;> omega
  succeeded := by
    rw [hs.counters.succeeded, h.succeeded, hs.events, List.filterMap_append, List.countP_append,
      Nat.add_comm]
  rolledBack := by
    rw [hs.counters.rolledBack, h.rolledBack, List.map_append, List.sum_append, List.map_singleton,
      List.sum_singleton, hs.published_eq]

theorem agrees_opened {project : Path} {settings : Settings} {now : Instant}
    {s : Script (Except Error Manager)} {m : Manager} {fs₀ fs : FileSystem}
    (hopen : Manager.open? project settings now = some s) (hload : s.run fs₀ = (.ok m, fs)) :
    Agrees [] m := by
  obtain ⟨log, hlog, rfl⟩ := Option.map_eq_some_iff.1 hopen
  rw [run_bind] at hload
  obtain ⟨ts, cs, -, -, -, rfl⟩ := Manager.load_ok hload
  rw [EventLog.create?] at hlog
  split at hlog
  · cases hlog
  · cases hlog
    exact ⟨fun _ _ ht => (Index.mem_of_get?_ofValues ht).2, .nil, .nil, rfl, rfl, rfl, rfl, rfl, rfl, rfl, rfl⟩

/-- After any run of requests on a manager that was just opened, failing ones included and whatever
happens to the files in between, the events and the counters tell the same. Started transactions are
completed, given up or under way. Operations are told of the transaction that was started last, and as
many as are told when it is completed, where no two have started under one id. Each rollback that has
begun has ended, and none before it began. -/
theorem events_and_counters {project : Path} {settings : Settings} {now : Instant}
    {s : Script (Except Error Manager)} {m m' : Manager} {fs₀ fs fs' : FileSystem} {turns : List Turn}
    (hopen : Manager.open? project settings now = some s) (hload : s.run fs₀ = (.ok m, fs))
    (hrun : Run (fun _ _ _ => True) (fun _ _ _ => True) m fs turns m' fs') :
    let es := m'.events.published
    let c := m'.counters
    (c.transactionsStarted = (es.filterMap Event.started?).length ∧
      c.transactionsStarted =
        c.transactionsCompleted + turns.countP Turn.aborted + m'.current.isSome.toNat) ∧
    (c.transactionsCompleted = (es.filterMap Event.completed?).length ∧
      c.transactionsFailed = (es.filterMap Event.failed?).length ∧
      c.operationsRecorded = (es.filterMap Event.executed?).length) ∧
    (∀ e past, e :: past <:+ es → ∀ id, e.executed? = some id →
      (past.filterMap Event.started?).head? = some id) ∧
    ((es.filterMap Event.started?).Nodup → ∀ id n, (id, n) ∈ es.filterMap Event.completed? →
      n = (es.filterMap Event.executed?).count id) ∧
    ((∀ past, past <:+ es → ∀ id, (past.filterMap Event.rollbackCompleted?).count id ≤
        (past.filterMap Event.rollbackStarted?).count id) ∧
      ∀ id, (es.filterMap Event.rollbackStarted?).count id =
        (es.filterMap Event.rollbackCompleted?).count id) ∧
    c.rollbacksAttempted =
      (es.filterMap Event.rollbackStarted?).length + turns.countP Turn.missed ∧
    c.rollbacksSucceeded = (es.filterMap Event.outcome?).countP (·.1) ∧
    c.operationsRolledBack = (turns.map fun s => if s.isDry then 0 else reverted s.published).sum := by
  have h : Agrees turns m' := by
    refine hrun.invariant (fun turns m _ => Agrees turns m) (agrees_opened hopen hload)
      (fun _ _ _ _ h _ => h) fun turns m fs r h _ => ?_
    obtain ⟨es, hs⟩ := Manager.turn_recounts h.keyed r fs
    exact h.turn hs
  exact ⟨⟨h.started, h.balance⟩, ⟨h.completed, h.failed, h.recorded⟩, h.chronicle.executed,
    fun hnodup id n hmem => (h.chronicle.completed hnodup (id, n) hmem).1,
    ⟨h.paired.ahead, h.paired.level⟩, h.attempted, h.succeeded, h.rolledBack⟩

theorem events_and_counters_of_one_rolled_back :
    Sample.startingAgain.after.counters.transactionsStarted = 2 ∧
      Sample.startingAgain.after.counters.transactionsCompleted = 1 ∧
      (Sample.startingAgain.after.events.published.filterMap Event.executed?).length = 1 ∧
      (Sample.startingAgain.after.events.published.filterMap Event.started?).length = 2 ∧
      (Sample.startingAgain.after.events.published.filterMap Event.rollbackStarted?).count "t" =
        (Sample.startingAgain.after.events.published.filterMap Event.rollbackCompleted?).count "t" := by
  have hload : Sample.opening.run Sample.tree = (.ok Sample.opened, (Sample.opening.run Sample.tree).2) :=
    eq_ok_get Sample.opens
  have hrun : Run (fun _ _ _ => True) (fun _ _ _ => True) Sample.opened
      (Sample.opening.run Sample.tree).2
      ([] ++ [Sample.starting] ++ [Sample.adding] ++ [Sample.completing] ++ [Sample.rollingBack] ++
        [Sample.startingAgain])
      Sample.startingAgain.after Sample.startingAgain.left :=
    .snoc (.snoc (.snoc (.snoc (.snoc .nil (r := .start "t" ⟨0, 0⟩ "" "" "" []) trivial rfl)
      (r := .add "o" ⟨0, 0⟩ .update (.ofString "f") {}) trivial rfl) (r := .complete) trivial rfl)
      (r := .rollback ⟨1, 0⟩ {} "t") trivial rfl) (r := .start "u" ⟨2, 0⟩ "" "" "" []) trivial rfl
  obtain ⟨⟨hstarted, hbalance⟩, ⟨-, -, hrecorded⟩, -, -, ⟨-, hlevel⟩, -⟩ :=
    events_and_counters (Option.some_get _).symm hload hrun
  have hended : Sample.startingAgain.after.counters.transactionsStarted = 2 ∧
      Sample.startingAgain.after.current.isSome = true ∧
      Sample.startingAgain.after.counters.operationsRecorded = 1 ∧
      [Sample.starting, Sample.adding, Sample.completing, Sample.rollingBack,
        Sample.startingAgain].countP Turn.aborted = 0 := by decide +kernel
  obtain ⟨hcount, hcurrent, hadded, haborted⟩ := hended
  simp only [List.nil_append, List.cons_append, haborted, hcurrent, Bool.toNat_true] at hbalance
  exact ⟨hcount, by omega, hrecorded.symm.trans hadded, hstarted.symm.trans hcount, hlevel "t"⟩

end Retrace
