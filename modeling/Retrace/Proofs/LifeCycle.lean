import Mathlib.Data.List.Nodup
import Retrace.Proofs.Requests
import Retrace.Proofs.Restoration

/-!
The life of a transaction. Under way it takes operations while it is pending; once it is kept it
does not change any more, but that it may be rolled back, and that is for good (`life_cycle`).
-/
namespace Retrace

open Script
open Rollback (Options Result Pending)

/-- A later form of a transaction that is kept: at most, it has been rolled back since. -/
structure Transaction.Becomes (t t' : Transaction) : Prop where
  record : t' = { t with status := t'.status, rollbackTimestamp := t'.rollbackTimestamp }
  status : t'.status = t.status ∨ t.status = .completed ∧ t'.status = .rolledBack

theorem Transaction.Becomes.refl (t : Transaction) : t.Becomes t := ⟨rfl, .inl rfl⟩

theorem Transaction.Becomes.trans {t t' t'' : Transaction} (h : t.Becomes t') (h' : t'.Becomes t'') :
    t.Becomes t'' where
  record := by rw [h'.record, h.record]
  status := by
    rcases h.status with hs | ⟨hs, hs'⟩ <;> rcases h'.status with hs'' | ⟨hs'', hs'''⟩
    · exact .inl (hs''.trans hs)
    · exact .inr ⟨hs.symm.trans hs'', hs'''⟩
    · exact .inr ⟨hs, hs''.trans hs'⟩
    · rw [hs'] at hs''; cases hs''

namespace Manager

variable {m m' m'' : Manager} {fs fs' : FileSystem} {now : Instant} {options : Options}
  {rs rs' : List Result} {id : String} {t : Transaction} {p : Pending} {ps : List Pending} {dry : Bool}

/-! ### Rolling back -/

/-- What rollbacks do to a manager: a completed transaction becomes rolled back where one of the
results is a success and says so, and nowhere else. -/
structure Rolled (m : Manager) (dry : Bool) (rs : List Result) (m' : Manager) : Prop where
  others : m' = { m with events := m'.events, counters := m'.counters, history := m'.history }
  kept : ∀ id t, m.transaction? id = some t → ∃ t', m'.transaction? id = some t' ∧ t.Becomes t' ∧
    (t'.status ≠ t.status ↔
      t.status = .completed ∧ dry = false ∧ ∃ r ∈ rs, r.transactionId = id ∧ r.success = true)
  unknown : ∀ id, m.transaction? id = none → m'.transaction? id = none

theorem Rolled.quiet
    (hm : m' = { m with events := m'.events, counters := m'.counters, history := m.history })
    (hrs : dry = false → ∀ r ∈ rs, r.success = true →
      ∀ t, m.transaction? r.transactionId = some t → t.status ≠ .completed) :
    Rolled m dry rs m' where
  others := by rw [hm]
  kept id t ht := by
    refine ⟨t, by rw [hm]; exact ht, .refl t, fun h => absurd rfl h, ?_⟩
    rintro ⟨hc, hdry, r, hr, rfl, hsucc⟩
    exact absurd hc (hrs hdry r hr hsucc t ht)
  unknown id h := by rw [hm]; exact h

theorem Rolled.counted (hm : m' = { m with events := m'.events, counters := m'.counters }) :
    Rolled m dry [] m' :=
  .quiet (hm.trans rfl) (by simp)

theorem Rolled.trans (h : Rolled m dry rs m') (h' : Rolled m' dry rs' m'') :
    Rolled m dry (rs ++ rs') m'' where
  others := by rw [h'.others, h.others]
  kept id t ht := by
    obtain ⟨t', ht', hb, hiff⟩ := h.kept id t ht
    obtain ⟨t'', ht'', hb', hiff'⟩ := h'.kept id t' ht'
    refine ⟨t'', ht'', hb.trans hb', ?_⟩
    simp only [List.mem_append, or_and_right, exists_or, and_or_left, ← hiff]
    -- a transaction that the first results have rolled back stays as it is
    rcases hb.status with hs | ⟨hs, hs'⟩
    · rw [hs] at hiff'
      rw [hiff']
      simp [hs]
    · have hstay : t''.status = t'.status :=
        hb'.status.resolve_right fun h => by rw [hs'] at h; cases h.1
      simp [hstay, hs, hs']
  unknown id hid := h'.unknown id (h.unknown id hid)

theorem settle_snd (m : Manager) (options : Options) (r : Result) :
    (m.settle options r).2 = { m with
      events := (m.settle options r).2.events, counters := (m.settle options r).2.counters } := rfl

theorem settle_fst (m : Manager) (options : Options) (r : Result) :
    (m.settle options r).1 = { r with success := r.errors.isEmpty } := rfl

def Ready (m : Manager) (p : Pending) : Prop :=
  ∃ t, m.transaction? p.result.transactionId = some t ∧
    (p.result.success = true → t.status ≠ .completed) ∧
    (p.result.success = false → p.result.errors = [] → t.status = .completed)

theorem execute_id : ((m.execute options t).run fs).1.result.transactionId = t.id := by
  rw [execute]
  cases t.status with
  | completed =>
    simp only [run_bind]
    split
    · rfl
    · rw [run_bind]; rfl
  | _ => rfl

theorem execute_ready (ht : m.transaction? t.id = some t) :
    Ready m ((m.execute options t).run fs).1 := by
  refine ⟨t, by rw [execute_id, ht], ?_⟩
  rw [execute]
  cases hs : t.status with
  | completed =>
    simp only [run_bind]
    split
    · simp
    · rw [run_bind]; simp
  | rolledBack => simp
  | pending => simp
  | failed => simp

theorem transaction?_put (m : Manager) (id j : String) (t : Transaction) :
    ({ m with history := m.history.put id t } : Manager).transaction? j =
      if j = id then some t else m.transaction? j := Index.get?_put _ _ _ _

/-- What becomes of a manager when a transaction is put back, changed by a rollback at most. -/
theorem Rolled.put {u : Transaction} {r : Result} {m₁ : Manager}
    (ht : m.transaction? r.transactionId = some t) (hb : t.Becomes u)
    (hiff : u.status ≠ t.status ↔ t.status = .completed ∧ dry = false ∧ r.success = true)
    (hm : m₁ = { m with
      events := m₁.events, counters := m₁.counters, history := m.history.put r.transactionId u }) :
    Rolled m dry [r] m₁ where
  others := by rw [hm]
  kept id t' ht' := by
    have hget := transaction?_put m r.transactionId id u
    by_cases hid : id = r.transactionId
    · subst hid
      rw [ht] at ht'
      obtain rfl := Option.some.inj ht'
      rw [if_pos rfl] at hget
      exact ⟨u, by rw [hm]; exact hget, hb, by simpa using hiff⟩
    · rw [if_neg hid] at hget
      refine ⟨t', by rw [hm]; exact hget.trans ht', .refl t', fun h => absurd rfl h, ?_⟩
      rintro ⟨-, -, r', hr', hid', -⟩
      rw [List.mem_singleton.1 hr'] at hid'
      exact absurd hid'.symm hid
  unknown id hnone := by
    have hget := transaction?_put m r.transactionId id u
    rw [if_neg fun h => by rw [h, ht] at hnone; cases hnone] at hget
    rw [hm]
    exact hget.trans hnone

/-- A transaction as it is kept when its rollback could not be recorded. -/
def restored (t : Transaction) : Transaction := { t with status := .completed, rollbackTimestamp := none }

/-- The ways in which a rollback is recorded or not: with what result, which manager and which tree. -/
inductive Finalized (m : Manager) (now : Instant) (options : Options) (p : Pending) (t : Transaction)
    (fs : FileSystem) : (Result × Manager) × FileSystem → Prop
  /-- There is nothing to record. -/
  | quiet (h : p.result.success = true ∨ p.result.errors ≠ [] ∨ options.dryRun = true) :
    Finalized m now options p t fs (m.settle options p.result, fs)
  /-- The document could not be written. -/
  | failed {e : Error} {fs₁ : FileSystem} (hsuccess : p.result.success = false)
    (herrors : p.result.errors = []) (hdry : options.dryRun = false)
    (hsave : (m.store.saveTransaction (t.reverted now)).run fs = (.error e, fs₁)) :
    Finalized m now options p t fs
      (({ m with history := m.history.put p.result.transactionId (restored t) } : Manager).settle
        options { p.result with errors := [e.message] }, fs₁)
  /-- The document says that the transaction is rolled back, and the backups are let go. -/
  | recorded {fs₁ fs₂ : FileSystem} {warnings : List String} (hsuccess : p.result.success = false)
    (herrors : p.result.errors = []) (hdry : options.dryRun = false)
    (hsave : (m.store.saveTransaction (t.reverted now)).run fs = (.ok (), fs₁))
    (hremove : (if options.preserveBackups then pure [] else
      removeBackups m.backups p.consumedBackups : Script (List String)).run fs₁ = (warnings, fs₂)) :
    Finalized m now options p t fs
      (({ m with history := m.history.put p.result.transactionId (t.reverted now) } : Manager).settle
        options { p.result with warnings := p.result.warnings ++ warnings }, fs₂)

theorem finalize_cases (ht : m.transaction? p.result.transactionId = some t) :
    Finalized m now options p t fs ((m.finalize now options p).run fs) := by
  rw [finalize]
  by_cases hgo : (p.result.success || !p.result.errors.isEmpty || options.dryRun) = true
  · rw [if_pos hgo]
    refine .quiet ?_
    simpa [or_assoc] using hgo
  · rw [if_neg hgo]
    simp only [Bool.or_eq_true, not_or, Bool.not_eq_true, Bool.not_eq_false',
      List.isEmpty_iff] at hgo
    obtain ⟨⟨hsuccess, herrors⟩, hdry⟩ := hgo
    simp only [markRolledBack, ht, run_bind]
    rw [← Transaction.reverted]
    cases hsave : (m.store.saveTransaction (t.reverted now)).run fs with
    | mk r fs₁ =>
      cases r with
      | error e =>
        simp only [run_pure, herrors, List.nil_append]
        exact .failed hsuccess herrors hdry hsave
      | ok _ =>
        simp only [run_pure]
        by_cases hp : options.preserveBackups = true
        · rw [if_pos hp]
          have hnone : (if options.preserveBackups then pure [] else
              removeBackups m.backups p.consumedBackups : Script (List String)).run fs₁ = ([], fs₁) := by
            rw [if_pos hp]; rfl
          have hrec := Finalized.recorded hsuccess herrors hdry hsave hnone
          rwa [List.append_nil] at hrec
        · rw [if_neg hp, run_bind]
          exact .recorded hsuccess herrors hdry hsave (by rw [if_neg hp]; rfl)

theorem finalize_rolled (hready : Ready m p) :
    ((m.finalize now options p).run fs).1.1.transactionId = p.result.transactionId ∧
      Rolled m options.dryRun [((m.finalize now options p).run fs).1.1]
        ((m.finalize now options p).run fs).1.2 := by
  obtain ⟨t, ht, hdone, hopen⟩ := hready
  have hcases : Finalized m now options p t fs ((m.finalize now options p).run fs) := finalize_cases ht
  generalize (m.finalize now options p).run fs = out at hcases
  cases hcases with
  | quiet h =>
    refine ⟨rfl, Rolled.quiet (settle_snd _ _ _) fun hdry r hr hsuccess u hu => ?_⟩
    rw [List.mem_singleton] at hr
    subst hr
    rw [settle_fst] at hsuccess hu
    rw [ht] at hu
    obtain rfl := Option.some.inj hu
    refine hdone (h.resolve_right ?_)
    rintro (herrors | hdry')
    · exact herrors (List.isEmpty_iff.1 hsuccess)
    · rw [hdry] at hdry'; cases hdry'
  | failed hsuccess herrors hdry hsave =>
    have hc := hopen hsuccess herrors
    exact ⟨rfl, Rolled.put ht (u := restored t) ⟨rfl, .inl hc.symm⟩
      (by simp [settle_fst, restored, hc]) rfl⟩
  | recorded hsuccess herrors hdry hsave hremove =>
    have hc := hopen hsuccess herrors
    exact ⟨rfl, Rolled.put ht (u := t.reverted now) ⟨rfl, .inr ⟨hc, rfl⟩⟩
      (by simp [settle_fst, Transaction.reverted, hc, hdry, herrors]) rfl⟩

theorem rollback_rolled (hid : ∀ t, m.transaction? id = some t → t.id = id) :
    Rolled m options.dryRun [((m.rollback now options id).run fs).1.1]
      ((m.rollback now options id).run fs).1.2 := by
  rw [rollback]
  cases ht : m.attempted.transaction? id with
  | none =>
    refine Rolled.quiet rfl fun _ r hr hsuccess => ?_
    rw [run_pure, List.mem_singleton] at hr
    rw [hr] at hsuccess
    cases hsuccess
  | some t =>
    obtain rfl := hid t ht
    simp only [run_bind]
    have hready : Ready (m.attempted.publish (.rollbackStarted t.id))
      (((m.attempted.publish (.rollbackStarted t.id)).execute options t).run fs).1 := execute_ready ht
    exact (Rolled.counted rfl).trans (finalize_rolled hready).2

/-- Each transaction is kept under its own id. -/
def Keyed (m : Manager) : Prop := ∀ id t, m.transaction? id = some t → t.id = id

theorem mem_transactions (hkeyed : Keyed m) (hnodup : (m.history.map (·.1)).Nodup) :
    t ∈ m.transactions ↔ m.transaction? t.id = some t := by
  rw [transactions, List.mem_mergeSort, Index.values, transaction?, Index.get?_eq_some_iff hnodup]
  constructor
  · intro h
    obtain ⟨⟨k, v⟩, hmem, rfl⟩ := List.mem_map.1 h
    rw [hkeyed k v ((Index.get?_eq_some_iff hnodup).2 hmem)]
    exact hmem
  · exact fun h => List.mem_map_of_mem (f := (·.2)) h

theorem Rolled.keyed (h : Rolled m dry rs m') (hk : Keyed m) : Keyed m' := by
  intro id t' ht'
  cases ht : m.transaction? id with
  | none => rw [h.unknown id ht] at ht'; cases ht'
  | some t =>
    obtain ⟨u, hu, hb, -⟩ := h.kept id t ht
    rw [ht', Option.some.injEq] at hu
    rw [hu, hb.record]
    exact hk id t ht

theorem rollbackInTurn_rolled (hk : Keyed m) (ts : List Transaction) :
    Rolled m options.dryRun ((m.rollbackInTurn now options ts).run fs).1.1
      ((m.rollbackInTurn now options ts).run fs).1.2 := by
  induction ts generalizing m fs with
  | nil => exact Rolled.quiet rfl (by simp [rollbackInTurn])
  | cons t ts ih =>
    have hfirst : Rolled m options.dryRun [((m.rollback now options t.id).run fs).1.1]
        ((m.rollback now options t.id).run fs).1.2 := rollback_rolled (hk t.id)
    simp only [rollbackInTurn, run_bind]
    split
    · exact hfirst
    · rw [run_bind]
      exact hfirst.trans (ih (hfirst.keyed hk))

theorem executeEach_ready {ts : List Transaction} (options : Options) (fs : FileSystem)
    (hts : ∀ t ∈ ts, m.transaction? t.id = some t) :
    (((m.executeEach options ts).run fs).1.map (·.result.transactionId)) = ts.map (·.id) ∧
      ∀ p ∈ ((m.executeEach options ts).run fs).1, Ready m p := by
  induction ts generalizing fs with
  | nil => simp [executeEach]
  | cons t ts ih =>
    obtain ⟨hids, hready⟩ := ih ((m.execute options t).run fs).2 fun u hu =>
      hts u (List.mem_cons_of_mem _ hu)
    simp only [executeEach, run_bind, run_pure, List.map_cons, execute_id, hids, List.mem_cons,
      forall_eq_or_imp, true_and]
    exact ⟨execute_ready (hts t List.mem_cons_self), hready⟩

theorem Ready.of_rolled {r : Result} (hready : Ready m p) (h : Rolled m dry [r] m')
    (hne : r.transactionId ≠ p.result.transactionId) : Ready m' p := by
  obtain ⟨t, ht, hdone, hopen⟩ := hready
  obtain ⟨t', ht', -, hiff⟩ := h.kept _ t ht
  have hstatus : t'.status = t.status := by
    by_contra hchange
    obtain ⟨-, -, r', hr', hid, -⟩ := hiff.1 hchange
    rw [List.mem_singleton.1 hr'] at hid
    exact hne hid
  exact ⟨t', ht', hstatus ▸ hdone, hstatus ▸ hopen⟩

theorem finalizeEach_rolled (hready : ∀ p ∈ ps, Ready m p)
    (hids : (ps.map (·.result.transactionId)).Nodup) :
    Rolled m options.dryRun ((m.finalizeEach now options ps).run fs).1.1
      ((m.finalizeEach now options ps).run fs).1.2 := by
  induction ps generalizing m fs with
  | nil => exact Rolled.quiet rfl (by simp [finalizeEach])
  | cons p ps ih =>
    have hone : ((m.finalize now options p).run fs).1.1.transactionId = p.result.transactionId ∧
        Rolled m options.dryRun [((m.finalize now options p).run fs).1.1]
          ((m.finalize now options p).run fs).1.2 := finalize_rolled (hready p List.mem_cons_self)
    obtain ⟨hid, hfirst⟩ := hone
    rw [List.map_cons, List.nodup_cons] at hids
    simp only [finalizeEach, run_bind, run_pure]
    refine hfirst.trans (ih (fun q hq => ?_) hids.2)
    exact (hready q (List.mem_cons_of_mem _ hq)).of_rolled hfirst fun heq =>
      hids.1 (by rw [← hid, heq]; exact List.mem_map_of_mem hq)

theorem mem_membersOf {c : Checkpoint} : t ∈ m.membersOf c ↔
    ∃ id ∈ c.transactionIds, m.transaction? id = some t := by
  rw [membersOf, List.mem_reverse, List.mem_mergeSort, List.mem_filterMap]

theorem Keyed.transaction?_of_member {c : Checkpoint} (hk : Keyed m) (ht : t ∈ m.membersOf c) :
    m.transaction? t.id = some t := by
  obtain ⟨i, -, hi⟩ := mem_membersOf.1 ht
  rw [hk i t hi, hi]

theorem ids_of_named (hk : Keyed m) (ids : List String) :
    (ids.filterMap m.transaction?).map (·.id) = ids.filter fun id => (m.transaction? id).isSome := by
  rw [List.map_filterMap, ← List.filterMap_eq_filter]
  refine List.filterMap_congr fun id _ => ?_
  cases ht : m.transaction? id with
  | none => simp [Option.guard, ht]
  | some t => simp [Option.guard, ht, hk id t ht]

theorem nodup_membersOf {c : Checkpoint} (hk : Keyed m) (hc : c.transactionIds.Nodup) :
    ((m.membersOf c).map (·.id)).Nodup := by
  rw [membersOf, List.map_reverse, List.nodup_reverse,
    ((List.mergeSort_perm _ _).map _).nodup_iff, ids_of_named hk]
  exact hc.filter _

theorem announce_eq (m : Manager) (ts : List Transaction) :
    ts.foldl (fun m t => m.attempted.publish (.rollbackStarted t.id)) m = { m with
      events := (ts.foldl (fun m t => m.attempted.publish (.rollbackStarted t.id)) m).events
      counters := (ts.foldl (fun m t => m.attempted.publish (.rollbackStarted t.id)) m).counters } := by
  induction ts generalizing m with
  | nil => rfl
  | cons t ts ih =>
    rw [List.foldl_cons, ih]
    rfl

/-- Rolling back a checkpoint that names no transaction twice. -/
theorem rollbackCheckpoint_rolled (hk : Keyed m)
    (hc : ∀ c, m.checkpoint? id = some c → c.transactionIds.Nodup) :
    Rolled m options.dryRun (((m.rollbackCheckpoint now options id).run fs).1.1.toOption.getD [])
      ((m.rollbackCheckpoint now options id).run fs).1.2 := by
  rw [rollbackCheckpoint]
  cases hcp : m.checkpoint? id with
  | none => exact Rolled.quiet rfl (by simp [Except.toOption])
  | some c =>
    have hmembers : ∀ t ∈ m.membersOf c, m.transaction? t.id = some t := fun t ht =>
      hk.transaction?_of_member ht
    dsimp only
    split
    · rw [run_bind, rollbackTogether, run_bind]
      have hcalled := announce_eq m (m.membersOf c)
      generalize (m.membersOf c).foldl _ m = m₁ at hcalled
      have hmembers₁ : ∀ t ∈ m.membersOf c, m₁.transaction? t.id = some t := by
        rw [hcalled]
        exact hmembers
      obtain ⟨hids, hready⟩ := executeEach_ready options fs hmembers₁
      exact (Rolled.counted hcalled).trans
        (finalizeEach_rolled hready (hids ▸ nodup_membersOf hk (hc c hcp)))
    · rw [run_bind]
      exact rollbackInTurn_rolled hk _

/-! ### Letting go -/

structure Fewer (m m' : Manager) : Prop where
  others : m' = { m with history := m'.history }
  kept : ∀ id t, m'.transaction? id = some t → m.transaction? id = some t

theorem Fewer.refl (m : Manager) : Fewer m m := ⟨rfl, fun _ _ h => h⟩

theorem Fewer.trans (h : Fewer m m') (h' : Fewer m' m'') : Fewer m m'' :=
  ⟨by rw [h'.others, h.others], fun id t ht => h.kept id t (h'.kept id t ht)⟩

theorem purge_fewer (m : Manager) (id : String) : Fewer m ((m.purge id).run fs).1.2 := by
  rw [purge]
  cases m.transaction? id with
  | none => exact .refl m
  | some t =>
    simp only [run_bind]
    split
    · exact .refl m
    · rw [run_bind]
      refine ⟨rfl, fun j u hu => ?_⟩
      change Manager.transaction? { m with history := m.history.remove id } j = some u at hu
      rw [transaction?_remove] at hu
      split at hu
      · cases hu
      · exact hu

theorem purgeEach_fewer (m : Manager) (ids : List String) :
    Fewer m ((m.purgeEach ids).run fs).1.2 := by
  induction ids generalizing m fs with
  | nil => exact .refl m
  | cons id ids ih =>
    simp only [purgeEach, run_bind, run_pure]
    exact (purge_fewer m id).trans (ih _)

theorem enforceLimit_fewer (m : Manager) : Fewer m (m.enforceLimit.run fs).1 := by
  simp only [enforceLimit, run_bind, run_pure]
  exact purgeEach_fewer m _

theorem clear_fewer {s : Script (Nat × Manager)} {days : Option Nat} (fs : FileSystem) (h : m.clear? now days = some s) :
    Fewer m (s.run fs).1.2 := by
  cases days with
  | none =>
    obtain rfl := Option.some.inj h
    exact purgeEach_fewer m _
  | some days =>
    obtain ⟨cutoff, -, rfl⟩ := Option.map_eq_some_iff.1 h
    exact purgeEach_fewer m _

/-! ### Turns -/

structure Orderly (m : Manager) : Prop where
  keyed : Keyed m
  current : ∀ t, m.current = some t →
    (t.status = .pending ∨ t.status = .failed) ∧ m.transaction? t.id = none
  checkpoints : ∀ id c, m.checkpoint? id = some c → c.transactionIds.Nodup

end Manager

/-- A transaction is opened under an id that none is kept under. -/
def Request.Fresh (m : Manager) : Request → Prop
  | .start id .. => m.transaction? id = none
  | _ => True

/-- What a turn may do to transactions. -/
structure Turn.Lawful (s : Turn) : Prop where
  /-- Operations come at the end of a transaction that is pending. -/
  appended : ∀ t t', s.before.current = some t → s.after.current = some t' →
    t' = { t with operations := t'.operations, status := t'.status } ∧
      (t'.operations = t.operations ∨
        t.status = .pending ∧ ∃ op, t'.operations = t.operations ++ [op])
  /-- A new transaction has none. -/
  opened : ∀ t', s.before.current = none → s.after.current = some t' → t'.operations = []
  /-- What comes to be kept is the transaction that was under way. -/
  entered : ∀ id t', s.before.transaction? id = none → s.after.transaction? id = some t' →
    ∃ t, s.before.current = some t ∧ t' = { t with status := .completed } ∧ id = t.id
  /-- What is kept stays as it is, unless it is rolled back. -/
  kept : ∀ id t t', s.before.transaction? id = some t → s.after.transaction? id = some t' →
    t.Becomes t' ∧ (t'.status ≠ t.status ↔ t.status = .completed ∧
      ∃ options, s.request.options? = some options ∧ options.dryRun = false ∧
        ∃ r ∈ s.results, r.transactionId = id ∧ r.success = true)

namespace Manager

variable {m m' : Manager} {fs : FileSystem} {s : Turn} {r : Request}

theorem lawful_of_kept
    (hkept : ∀ id t, s.after.transaction? id = some t → s.before.transaction? id = some t)
    (hrequest : s.request.options? = none)
    (happended : ∀ t t', s.before.current = some t → s.after.current = some t' →
      t' = { t with operations := t'.operations, status := t'.status } ∧
        (t'.operations = t.operations ∨
          t.status = .pending ∧ ∃ op, t'.operations = t.operations ++ [op]))
    (hopened : ∀ t', s.before.current = none → s.after.current = some t' → t'.operations = []) :
    s.Lawful where
  appended := happended
  opened := hopened
  entered id t' hnone ht' := by
    rw [hkept id t' ht'] at hnone
    cases hnone
  kept id t t' ht ht' := by
    rw [hkept id t' ht', Option.some.injEq] at ht
    subst ht
    refine ⟨.refl _, fun hne => absurd rfl hne, ?_⟩
    rintro ⟨-, o, ho, -⟩
    rw [hrequest] at ho
    cases ho

theorem lawful_of_still (hm : s.after.current = s.before.current)
    (hkept : ∀ id t, s.after.transaction? id = some t → s.before.transaction? id = some t)
    (hrequest : s.request.options? = none) : s.Lawful :=
  lawful_of_kept hkept hrequest
    (fun t t' ht ht' => by
      rw [hm, ht, Option.some.injEq] at ht'
      subst ht'
      exact ⟨rfl, .inl rfl⟩)
    (fun t' hnone ht' => by rw [hm, hnone] at ht'; cases ht')

theorem Fewer.unknown (h : Fewer m m') {id : String} (hid : m.transaction? id = none) :
    m'.transaction? id = none := by
  cases ht : m'.transaction? id with
  | none => rfl
  | some t => rw [h.kept id t ht] at hid; cases hid

theorem Fewer.orderly (h : Fewer m m') (ho : Orderly m) : Orderly m' where
  keyed id t ht := ho.keyed id t (h.kept id t ht)
  current t ht := by
    rw [h.others] at ht
    obtain ⟨hs, hnone⟩ := ho.current t ht
    exact ⟨hs, h.unknown hnone⟩
  checkpoints id c hc := by
    rw [h.others] at hc
    exact ho.checkpoints id c hc

theorem Orderly.keep (ho : Orderly m) {t : Transaction} (_ : m.current = some t) :
    Orderly (m.keep { t with status := .completed }) where
  keyed id u hu := by
    rw [transaction?_keep] at hu
    split at hu
    · next heq => cases hu; exact heq.symm
    · exact ho.keyed id u hu
  current u hu := by cases hu
  checkpoints := ho.checkpoints

theorem Rolled.orderly {dry : Bool} {rs : List Result} (h : Rolled m dry rs m') (ho : Orderly m) :
    Orderly m' where
  keyed := h.keyed ho.keyed
  current t ht := by
    rw [h.others] at ht
    obtain ⟨hs, hnone⟩ := ho.current t ht
    exact ⟨hs, h.unknown _ hnone⟩
  checkpoints id c hc := by
    rw [h.others] at hc
    exact ho.checkpoints id c hc

theorem lawful_of_rolled {options : Options} (h : Rolled s.before options.dryRun s.results s.after)
    (hoptions : s.request.options? = some options) : s.Lawful where
  appended t t' ht ht' := by
    rw [h.others, ht, Option.some.injEq] at ht'
    subst ht'
    exact ⟨rfl, .inl rfl⟩
  opened t' hnone ht' := by
    rw [h.others, hnone] at ht'
    cases ht'
  entered id t' hnone ht' := by
    rw [h.unknown id hnone] at ht'
    cases ht'
  kept id t t' ht ht' := by
    obtain ⟨u, hu, hb, hiff⟩ := h.kept id t ht
    rw [ht', Option.some.injEq] at hu
    subst hu
    refine ⟨hb, hiff.trans ?_⟩
    simp [hoptions]

theorem add_cases (m : Manager) (fs : FileSystem) (id : String) (now : Instant) (kind : Operation.Kind) (p : Path)
    (details : Operation.Details) :
    ((m.add id now kind p details).run fs).1.2 = m ∨
      ∃ t previous, m.current = some t ∧ t.status = .pending ∧
        ((m.add id now kind p details).run fs).1.2 =
          m.append t (m.operationOf id now kind p details previous) := by
  rw [add]
  cases hc : m.current with
  | none => exact .inl rfl
  | some t =>
    dsimp only
    split
    · exact .inl rfl
    · next hs =>
      rw [run_bind]
      split
      · exact .inl rfl
      · rw [run_bind]
        split
        · exact .inl rfl
        · exact .inr ⟨t, _, rfl, not_not.1 hs, rfl⟩

theorem complete_cases (m : Manager) (fs : FileSystem) :
    (m.complete.run fs).1.2 = m ∨
      ∃ t, m.current = some t ∧ ((∃ e, (m.complete.run fs).1.2 =
          m.markFailed { t with status := .completed } e) ∨
        ∃ m₁, Fewer (m.keep { t with status := .completed }) m₁ ∧ (m.complete.run fs).1.2 =
          m₁.publish (.transactionCompleted t.id t.operations.length)) := by
  rw [complete]
  cases hc : m.current with
  | none => exact .inl rfl
  | some t =>
    refine .inr ⟨t, rfl, ?_⟩
    dsimp only
    rw [run_bind]
    split
    · exact .inl ⟨_, rfl⟩
    · rw [run_bind]
      exact .inr ⟨_, enforceLimit_fewer _, rfl⟩

theorem abort_cases (m : Manager) (fs : FileSystem) :
    (m.abort.run fs).1.2 = m ∨ (m.abort.run fs).1.2 = { m with current := none } := by
  rw [abort]
  cases hc : m.current with
  | none => exact .inl rfl
  | some t =>
    dsimp only
    rw [run_bind]
    split
    · exact .inl rfl
    · rw [run_bind]
      exact .inr rfl

theorem createCheckpoint_cases (m : Manager) (fs : FileSystem) (id : String) (now : Instant) (name description : String)
    (ids : Option (List String)) (metadata : Metadata) :
    ((m.createCheckpoint id now name description ids metadata).run fs).1.2 = m ∨
      ∃ c, c.transactionIds.Nodup ∧
        ((m.createCheckpoint id now name description ids metadata).run fs).1.2 =
          { m with checkpoints := m.checkpoints.put id c } := by
  rw [createCheckpoint]
  split
  · exact .inl rfl
  · rw [run_bind]
    split
    · exact .inl rfl
    · exact .inr ⟨_, Checkpoint.nodup_firsts _ _, rfl⟩

theorem deleteCheckpoint_cases (m : Manager) (fs : FileSystem) (id : String) :
    ((m.deleteCheckpoint id).run fs).1.2 = m ∨
      ((m.deleteCheckpoint id).run fs).1.2 = { m with checkpoints := m.checkpoints.remove id } := by
  rw [deleteCheckpoint]
  split
  · rw [run_bind]
    split <;> exact .inr rfl
  · exact .inl rfl

theorem Orderly.checkpointed {x : Index Checkpoint} (ho : Orderly m)
    (hx : ∀ id c, x.get? id = some c → c.transactionIds.Nodup) :
    Orderly { m with checkpoints := x } where
  keyed := ho.keyed
  current := ho.current
  checkpoints := hx

theorem Fewer.of_keep {id : String} {t u : Transaction} (h : Fewer (m.keep t) m')
    (hu : m'.transaction? id = some u) : id = t.id ∧ u = t ∨ m.transaction? id = some u := by
  have hkept := h.kept id u hu
  rw [transaction?_keep] at hkept
  split at hkept
  · next hid => exact .inl ⟨hid, (Option.some.inj hkept).symm⟩
  · exact .inr hkept

def Abides (m : Manager) (fs : FileSystem) (r : Request) : Prop :=
  (r.turn m fs).Lawful ∧ Orderly (r.turn m fs).after

section

variable {id name description command : String} {now : Instant} {metadata : Metadata}
  {kind : Operation.Kind} {p : Path} {details : Operation.Details} {options : Options}
  {ids : Option (List String)} {days : Option Nat}

theorem start_abides (ho : Orderly m) (fs : FileSystem)
    (hr : Request.Fresh m (.start id now name description command metadata)) :
    Abides m fs (.start id now name description command metadata) := by
  simp only [Abides, Request.turn, Request.perform, run_pure, start]
  cases hc : m.current with
  | some t => exact ⟨lawful_of_still rfl (fun _ _ h => h) rfl, ho⟩
  | none =>
    refine ⟨lawful_of_kept (fun _ _ h => h) rfl (fun t t' ht => by rw [hc] at ht; cases ht)
      fun t' _ ht' => by cases ht'; rfl, ho.keyed, fun t ht => ?_, ho.checkpoints⟩
    cases ht
    exact ⟨.inl rfl, hr⟩

theorem add_abides (ho : Orderly m) (fs : FileSystem) :
    Abides m fs (.add id now kind p details) := by
  simp only [Abides, Request.turn, Request.perform, run_bind, run_pure]
  rcases add_cases m fs id now kind p details with h | ⟨t, previous, hc, hs, h⟩
  · rw [h]
    exact ⟨lawful_of_still rfl (fun _ _ h => h) rfl, ho⟩
  · rw [h]
    refine ⟨lawful_of_kept (fun _ _ h => h) rfl (fun u u' hu hu' => ?_)
      (fun u' hnone => by rw [hc] at hnone; cases hnone), ho.keyed, fun u hu => ?_, ho.checkpoints⟩
    · rw [hc, Option.some.injEq] at hu
      subst hu
      cases hu'
      exact ⟨rfl, .inr ⟨hs, _, rfl⟩⟩
    · cases hu
      exact ho.current t hc

theorem complete_abides (ho : Orderly m) (fs : FileSystem) :
    Abides m fs .complete := by
  simp only [Abides, Request.turn, Request.perform, run_bind, run_pure]
  rcases complete_cases m fs with h | ⟨t, hc, ⟨e, h⟩ | ⟨m₁, hfewer, h⟩⟩
  · rw [h]
    exact ⟨lawful_of_still rfl (fun _ _ h => h) rfl, ho⟩
  · rw [h]
    refine ⟨lawful_of_kept (fun _ _ h => h) rfl (fun u u' hu hu' => ?_)
      (fun u' hnone => by rw [hc] at hnone; cases hnone), ho.keyed, fun u hu => ?_, ho.checkpoints⟩
    · rw [hc, Option.some.injEq] at hu
      subst hu
      cases hu'
      exact ⟨rfl, .inl rfl⟩
    · cases hu
      exact ⟨.inr rfl, (ho.current t hc).2⟩
  · rw [h]
    have hnone := (ho.current t hc).2
    have hcurrent : m₁.current = none := by rw [hfewer.others]; rfl
    have ho' : Orderly m₁ := hfewer.orderly (ho.keep hc)
    refine ⟨⟨fun u u' _ hu' => ?_, fun u' _ hu' => ?_, fun id u hid hu => ?_,
      fun id u u' hu hu' => ?_⟩, ho'.keyed, ho'.current, ho'.checkpoints⟩
    · cases hcurrent.symm.trans hu'
    · cases hcurrent.symm.trans hu'
    · rcases hfewer.of_keep hu with ⟨heq, rfl⟩ | hold
      · exact ⟨t, hc, rfl, heq⟩
      · rw [hid] at hold
        cases hold
    · rcases hfewer.of_keep hu' with ⟨heq, -⟩ | hold
      · rw [heq, hnone] at hu
        cases hu
      · obtain rfl := Option.some.inj (hu.symm.trans hold)
        refine ⟨.refl _, fun hne => absurd rfl hne, ?_⟩
        rintro ⟨-, o, ho, -⟩
        cases ho

theorem abort_abides (ho : Orderly m) (fs : FileSystem) :
    Abides m fs .abort := by
  simp only [Abides, Request.turn, Request.perform, run_bind, run_pure]
  rcases abort_cases m fs with h | h
  · rw [h]
    exact ⟨lawful_of_still rfl (fun _ _ h => h) rfl, ho⟩
  · rw [h]
    exact ⟨lawful_of_kept (fun _ _ h => h) rfl (fun t t' _ ht' => by cases ht')
      (fun t' _ ht' => by cases ht'), ho.keyed, (fun t ht => by cases ht), ho.checkpoints⟩

theorem rollback_abides (ho : Orderly m) (fs : FileSystem) :
    Abides m fs (.rollback now options id) := by
  have h : Rolled m options.dryRun [((m.rollback now options id).run fs).1.1]
      ((m.rollback now options id).run fs).1.2 := rollback_rolled (ho.keyed id)
  simp only [Abides, Request.turn, Request.perform, run_bind, run_pure]
  exact ⟨lawful_of_rolled h rfl, h.orderly ho⟩

theorem createCheckpoint_abides (ho : Orderly m) (fs : FileSystem) :
    Abides m fs (.createCheckpoint id now name description ids metadata) := by
  simp only [Abides, Request.turn, Request.perform, run_bind, run_pure]
  rcases createCheckpoint_cases m fs id now name description ids metadata with h | ⟨c, hc, h⟩
  · rw [h]
    exact ⟨lawful_of_still rfl (fun _ _ h => h) rfl, ho⟩
  · rw [h]
    refine ⟨lawful_of_still rfl (fun _ _ h => h) rfl, ho.checkpointed fun j d hd => ?_⟩
    rw [Index.get?_put] at hd
    split at hd
    · cases hd; exact hc
    · exact ho.checkpoints j d hd

theorem deleteCheckpoint_abides (ho : Orderly m) (fs : FileSystem) :
    Abides m fs (.deleteCheckpoint id) := by
  simp only [Abides, Request.turn, Request.perform, run_bind, run_pure]
  rcases deleteCheckpoint_cases m fs id with h | h
  · rw [h]
    exact ⟨lawful_of_still rfl (fun _ _ h => h) rfl, ho⟩
  · rw [h]
    refine ⟨lawful_of_still rfl (fun _ _ h => h) rfl, ho.checkpointed fun j d hd => ?_⟩
    rw [Index.get?_remove] at hd
    split at hd
    · cases hd
    · exact ho.checkpoints j d hd

theorem rollbackCheckpoint_abides (ho : Orderly m) (fs : FileSystem) :
    Abides m fs (.rollbackCheckpoint now options id) := by
  have h : Rolled m options.dryRun
      (((m.rollbackCheckpoint now options id).run fs).1.1.toOption.getD [])
      ((m.rollbackCheckpoint now options id).run fs).1.2 :=
    rollbackCheckpoint_rolled ho.keyed (ho.checkpoints id)
  simp only [Abides, Request.turn, Request.perform, run_bind, run_pure]
  exact ⟨lawful_of_rolled h rfl, h.orderly ho⟩

theorem clear_abides (ho : Orderly m) (fs : FileSystem) :
    Abides m fs (.clear now days) := by
  rw [Abides, Request.turn, Request.perform]
  cases hs : m.clear? now days with
  | none => exact ⟨lawful_of_still rfl (fun _ _ h => h) rfl, ho⟩
  | some s =>
    simp only [run_bind, run_pure]
    have h := clear_fewer fs hs
    exact ⟨lawful_of_still (by rw [h.others]) h.kept rfl, h.orderly ho⟩

end

theorem turn_lawful (ho : Orderly m) (hr : r.Fresh m) (fs : FileSystem) :
    (r.turn m fs).Lawful ∧ Orderly (r.turn m fs).after :=
  match r, hr with
  | .start .., hr => start_abides ho fs hr
  | .add .., _ => add_abides ho fs
  | .complete, _ => complete_abides ho fs
  | .abort, _ => abort_abides ho fs
  | .rollback .., _ => rollback_abides ho fs
  | .createCheckpoint .., _ => createCheckpoint_abides ho fs
  | .deleteCheckpoint .., _ => deleteCheckpoint_abides ho fs
  | .rollbackCheckpoint .., _ => rollbackCheckpoint_abides ho fs
  | .clear .., _ => clear_abides ho fs

theorem rollback_again {id : String} {t : Transaction} (ht : m.transaction? id = some t) (hs : t.status = .rolledBack)
    (now : Instant) (options : Options) :
    ∃ r m', (m.rollback now options id).run fs = ((r, m'), fs) ∧ r.success = true ∧ r.errors = [] ∧
      r.rolledBackOperations = 0 ∧ m' = { m with events := m'.events, counters := m'.counters } := by
  have hexecute : ∀ m : Manager, (m.execute options t).run fs =
      (⟨{ transactionId := t.id, success := true
          warnings := ["Transaction " ++ t.id ++ " is already rolled back"] }, []⟩, fs) := by
    intro m
    rw [execute, hs]
    rfl
  have ht' : m.attempted.transaction? id = some t := ht
  simp only [rollback, ht', run_bind, hexecute, finalize, Bool.true_or, if_true, run_pure]
  exact ⟨_, _, rfl, rfl, rfl, rfl, rfl⟩

/-! ### Runs -/

theorem open_orderly {project : Path} {settings : Settings} {now : Instant}
    {s : Script (Except Error Manager)} {fs₀ : FileSystem}
    (hopen : open? project settings now = some s) (hload : s.run fs₀ = (.ok m, fs))
    (hc : ∀ id c, m.checkpoint? id = some c → c.transactionIds.Nodup) : Orderly m := by
  obtain ⟨events, -, rfl⟩ := Option.map_eq_some_iff.1 hopen
  rw [run_bind, load, run_bind] at hload
  split at hload
  · cases hload
  · rw [run_bind] at hload
    split at hload
    · cases hload
    · rw [run_bind] at hload
      split at hload
      · cases hload
      · obtain ⟨rfl, rfl⟩ := hload
        exact ⟨fun _ _ ht => (Index.mem_of_get?_ofValues ht).2, (fun t ht => by cases ht), hc⟩

theorem run_orderly {turns : List Turn} {fs' : FileSystem} (ho : Orderly m)
    (h : Run (fun m _ r => r.Fresh m) (fun _ _ _ => True) m fs turns m' fs') :
    Orderly m' ∧ ∀ s ∈ turns, s.Lawful := by
  refine h.invariant (fun turns m _ => Orderly m ∧ ∀ s ∈ turns, s.Lawful) ⟨ho, by simp⟩
    (fun _ _ _ _ h _ => h) fun turns m fs r h hr => ?_
  obtain ⟨hlawful, ho'⟩ := turn_lawful h.1 hr fs
  refine ⟨ho', fun s hs => ?_⟩
  rcases List.mem_append.1 hs with hs | hs
  · exact h.2 s hs
  · rwa [List.mem_singleton.1 hs]

theorem run_kept {turns : List Turn} {fs' : FileSystem} {id : String} {t : Transaction}
    (ho : Orderly m) (h : Run (fun m _ r => r.Fresh m) (fun _ _ _ => True) m fs turns m' fs')
    (ht : m.transaction? id = some t) (hkept : ∀ s ∈ turns, (s.after.transaction? id).isSome) :
    ∃ t', m'.transaction? id = some t' ∧ t.Becomes t' := by
  induction h with
  | nil => exact ⟨t, ht, .refl t⟩
  | wait h hchange ih => exact ih hkept
  | @snoc _ m₁ fs₁ r _ h hr hs ih =>
    subst hs
    obtain ⟨t', ht', hb⟩ := ih fun s hs => hkept s (List.mem_append_left _ hs)
    obtain ⟨t'', ht''⟩ := Option.isSome_iff_exists.1 (hkept _ (List.mem_append_right _ List.mem_cons_self))
    have hlawful : (r.turn m₁ fs₁).Lawful := (turn_lawful (run_orderly ho h).1 hr fs₁).1
    exact ⟨t'', ht'', hb.trans (hlawful.kept id t' t'' ht' ht'').1⟩

end Manager
/-- The life of transactions, for a manager that was opened on checkpoints of which none names a
transaction twice. There is at most one transaction under way, pending or failed, whose id none that
is kept has; it takes operations at its end while it is pending. What is kept does not change but from
completed to rolled back, exactly when a rollback of it that is no dry run is a success; and rolled
back is for good: to roll it back again is a success that changes nothing. -/
theorem life_cycle {project : Path} {settings : Settings} {now : Instant}
    {s : Script (Except Error Manager)} {fs₀ fs fs₁ fs₂ : FileSystem} {m m₁ m₂ : Manager}
    {turns later : List Turn} (hopen : Manager.open? project settings now = some s)
    (hload : s.run fs₀ = (.ok m, fs))
    (hcheckpoints : ∀ id c, m.checkpoint? id = some c → c.transactionIds.Nodup)
    (hrun : Run (fun m _ r => r.Fresh m) (fun _ _ _ => True) m fs turns m₁ fs₁)
    (hlater : Run (fun m _ r => r.Fresh m) (fun _ _ _ => True) m₁ fs₁ later m₂ fs₂) :
    (∀ t, m₁.current = some t →
      (t.status = .pending ∨ t.status = .failed) ∧ m₁.transaction? t.id = none) ∧
    (∀ s ∈ turns ++ later, s.Lawful) ∧
    (∀ id t, m₁.transaction? id = some t → (∀ s ∈ later, (s.after.transaction? id).isSome) →
      ∃ t', m₂.transaction? id = some t' ∧ t.Becomes t' ∧
        (t.status = .rolledBack → t'.status = .rolledBack)) ∧
    ∀ id t, m₁.transaction? id = some t → t.status = .rolledBack → ∀ later options,
      ∃ r m', (m₁.rollback later options id).run fs₁ = ((r, m'), fs₁) ∧ r.success = true ∧
        r.errors = [] ∧ r.rolledBackOperations = 0 ∧
        m' = { m₁ with events := m'.events, counters := m'.counters } := by
  obtain ⟨ho, hturns⟩ := Manager.run_orderly (Manager.open_orderly hopen hload hcheckpoints) hrun
  refine ⟨ho.current, fun s hs => ?_, fun id t ht hkept => ?_,
    fun id t ht hs => Manager.rollback_again ht hs⟩
  · rcases List.mem_append.1 hs with hs | hs
    · exact hturns s hs
    · exact (Manager.run_orderly ho hlater).2 s hs
  · obtain ⟨t', ht', hb⟩ := Manager.run_kept ho hlater ht hkept
    refine ⟨t', ht', hb, fun hs => ?_⟩
    rcases hb.status with h | ⟨h, -⟩
    · exact h.trans hs
    · rw [hs] at h; cases h

theorem eq_ok_get {ε α β : Type} {r : Except ε α × β} (h : (r.1.toOption).isSome) :
    r = (.ok (r.1.toOption.get h), r.2) := by
  rcases r with ⟨_ | a, b⟩
  · cases h
  · rfl

namespace Sample

def opening : Script (Except Error Manager) :=
  (Manager.open? (.ofString "/p") {} ⟨0, 0⟩).get (by decide +kernel)

theorem opens : ((opening.run tree).1.toOption).isSome := by decide +kernel

def opened : Manager := (opening.run tree).1.toOption.get opens

def starting : Turn := (Request.start "t" ⟨0, 0⟩ "" "" "" []).turn opened (opening.run tree).2

def adding : Turn :=
  (Request.add "o" ⟨0, 0⟩ .update (.ofString "f") {}).turn starting.after starting.left

def completing : Turn := Request.complete.turn adding.after adding.left

def rollingBack : Turn := (Request.rollback ⟨1, 0⟩ {} "t").turn completing.after completing.left

def startingAgain : Turn :=
  (Request.start "u" ⟨2, 0⟩ "" "" "" []).turn rollingBack.after rollingBack.left

end Sample

theorem life_cycle_of_one_rolled_back :
    ∃ t, Sample.rollingBack.after.transaction? "t" = some t ∧ t.status = .rolledBack ∧
      (∀ s ∈ [Sample.starting, Sample.adding, Sample.completing, Sample.rollingBack,
        Sample.startingAgain], s.Lawful) ∧
      ∃ t', Sample.startingAgain.after.transaction? "t" = some t' ∧ t'.status = .rolledBack := by
  have hload : Sample.opening.run Sample.tree = (.ok Sample.opened, (Sample.opening.run Sample.tree).2) :=
    eq_ok_get Sample.opens
  have hopened : Sample.opened.checkpoints.isEmpty = true ∧
      (Sample.opened.transaction? "t").isNone = true := by decide +kernel
  have hended : (Sample.rollingBack.after.transaction? "u").isNone = true ∧
      (Sample.rollingBack.after.transaction? "t").map (·.status) = some .rolledBack ∧
      (Sample.startingAgain.after.transaction? "t").isSome = true := by decide +kernel
  obtain ⟨hunused, hstatus, hstays⟩ := hended
  have hcheckpoints : ∀ id c, Sample.opened.checkpoint? id = some c → c.transactionIds.Nodup := by
    intro id c hc
    rw [Manager.checkpoint?, List.isEmpty_iff.1 hopened.1] at hc
    cases hc
  have hfresh : (Request.start "t" ⟨0, 0⟩ "" "" "" []).Fresh Sample.opened :=
    Option.isNone_iff_eq_none.1 hopened.2
  have hfresh' : (Request.start "u" ⟨2, 0⟩ "" "" "" []).Fresh Sample.rollingBack.after :=
    Option.isNone_iff_eq_none.1 hunused
  have hstarting : Run (fun m _ r => r.Fresh m) (fun _ _ _ => True) Sample.opened
      (Sample.opening.run Sample.tree).2 ([] ++ [Sample.starting]) Sample.starting.after
      Sample.starting.left := .snoc .nil hfresh rfl
  have hrun : Run (fun m _ r => r.Fresh m) (fun _ _ _ => True) Sample.opened
      (Sample.opening.run Sample.tree).2
      ([] ++ [Sample.starting] ++ [Sample.adding] ++ [Sample.completing] ++ [Sample.rollingBack])
      Sample.rollingBack.after Sample.rollingBack.left :=
    .snoc (.snoc (.snoc hstarting (r := .add "o" ⟨0, 0⟩ .update (.ofString "f") {}) trivial rfl)
      (r := .complete) trivial rfl) (r := .rollback ⟨1, 0⟩ {} "t") trivial rfl
  have hlater : Run (fun m _ r => r.Fresh m) (fun _ _ _ => True) Sample.rollingBack.after
      Sample.rollingBack.left ([] ++ [Sample.startingAgain]) Sample.startingAgain.after
      Sample.startingAgain.left := .snoc .nil hfresh' rfl
  obtain ⟨-, hlawful, hkept, -⟩ := life_cycle (Option.some_get _).symm hload hcheckpoints hrun hlater
  obtain ⟨t, ht, hs⟩ := Option.map_eq_some_iff.1 hstatus
  obtain ⟨t', ht', -, hs'⟩ := hkept "t" t ht (by simpa using hstays)
  exact ⟨t, ht, hs, by simpa using hlawful, t', ht', hs' hs⟩

end Retrace
