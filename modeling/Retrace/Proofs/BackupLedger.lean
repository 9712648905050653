import Retrace.Proofs.Outlying

/-!
What becomes of backups. Rollbacks take those of what they have rolled back and no others, all of
them unless they are to be preserved (`Repaid`). Where the backups are those that are needed
(`Accounted`), they still are after transactions were rolled back or let go (`Accounted.sheds`).
-/
namespace Retrace

open FileSystem Retrace.Path Script
open Rollback (Options Result Pending)

namespace Manager

variable {g : Grounds} {m m' m'' : Manager} {fs fs' fs'' : FileSystem} {t : Transaction} {p : Pending}
  {ps : List Pending} {ts : List Transaction} {now : Instant} {options : Options} {id : String}
  {rs rs' : List Result} {C : Call → FileSystem → Prop} {P : FileSystem → Prop}

/-! ### Rolling back -/

/-- What rollbacks do to the backups: those of a transaction go when it becomes rolled back, all of
them unless they are to be preserved. -/
structure Repaid (g : Grounds) (m : Manager) (fs : FileSystem) (options : Options) (rs : List Result)
    (m' : Manager) (fs' : FileSystem) : Prop where
  rolled : Rolled m options.dryRun rs m'
  keeps : Keeps g m.store fs'
  backups : ∀ w, fs'.at (w :: g.backups) = fs.at (w :: g.backups) ∨
    fs'.at (w :: g.backups) = none ∧ ∃ id t t' op, m.transaction? id = some t ∧
      t.status = .completed ∧ m'.transaction? id = some t' ∧ t'.status = .rolledBack ∧
      op ∈ t.operations ∧ w = backupName op.id
  gone : options.preserveBackups = false → ∀ id t t', m.transaction? id = some t →
    t.status = .completed → m'.transaction? id = some t' → t'.status = .rolledBack →
    ∀ op ∈ t.operations, op.requiresBackup = true → fs'.at (backupName op.id :: g.backups) = none

theorem Rolled.store (h : Rolled m options.dryRun rs m') : m'.store = m.store := by rw [h.others]

theorem Repaid.quiet (h : Rolled m options.dryRun rs m') (hk : Keeps g m.store fs')
    (hb : ∀ w, fs'.at (w :: g.backups) = fs.at (w :: g.backups))
    (hstay : ∀ id t t', m.transaction? id = some t → t.status = .completed →
      m'.transaction? id = some t' → t'.status ≠ .rolledBack) :
    Repaid g m fs options rs m' fs' where
  rolled := h
  keeps := hk
  backups w := .inl (hb w)
  gone _ id t t' ht hs ht' hs' := absurd hs' (hstay id t t' ht hs ht')

theorem Repaid.refl (hk : Keeps g m.store fs) : Repaid g m fs options [] m fs :=
  .quiet (Rolled.quiet rfl (by simp)) hk (fun _ => rfl) fun id t t' ht hs ht' hs' => by
    rw [ht, Option.some.injEq] at ht'
    rw [← ht', hs] at hs'
    cases hs'

theorem Repaid.trans (h : Repaid g m fs options rs m' fs') (h' : Repaid g m' fs' options rs' m'' fs'') :
    Repaid g m fs options (rs ++ rs') m'' fs'' where
  rolled := h.rolled.trans h'.rolled
  keeps := h.rolled.store ▸ h'.keeps
  backups w := by
    rcases h'.backups w with hw | ⟨hw, id, t, t', op, ht, hs, ht', hs', hop, heq⟩
    · rw [hw]
      refine (h.backups w).imp_right ?_
      rintro ⟨hnone, id, t, t', op, ht, hs, ht', hs', hop, heq⟩
      obtain ⟨t'', ht'', hb, -⟩ := h'.rolled.kept id t' ht'
      refine ⟨hnone, id, t, t'', op, ht, hs, ht'', ?_, hop, heq⟩
      exact (hb.status.resolve_right fun hc => by rw [hs'] at hc; cases hc.1).trans hs'
    · refine .inr ⟨hw, ?_⟩
      cases hu : m.transaction? id with
      | none => rw [h.rolled.unknown id hu] at ht; cases ht
      | some u =>
        obtain ⟨v, hv, hb, -⟩ := h.rolled.kept id u hu
        rw [ht, Option.some.injEq] at hv
        subst hv
        have hops : op ∈ u.operations := by rw [hb.record] at hop; exact hop
        refine ⟨id, u, t', op, hu, ?_, ht', hs', hops, heq⟩
        exact (hb.status.resolve_right fun hc => by rw [hs] at hc; cases hc.2).symm.trans hs
  gone hpres id t t'' ht hs ht'' hs'' op hop hreq := by
    obtain ⟨t', ht', hb, -⟩ := h.rolled.kept id t ht
    have hop' : op ∈ t'.operations := by rw [hb.record]; exact hop
    rcases hb.status with hs' | ⟨-, hs'⟩
    · exact h'.gone hpres id t' t'' ht' (hs'.trans hs) ht'' hs'' op hop' hreq
    · have hnone := h.gone hpres id t t' ht hs ht' hs' op hop hreq
      rcases h'.backups (backupName op.id) with hw | ⟨hw, -⟩
      · exact hw.trans hnone
      · exact hw

theorem Repaid.of_spared (h : Repaid g m fs' options rs m' fs'') (hs : Spared g m.store fs fs') :
    Repaid g m fs options rs m' fs'' where
  rolled := h.rolled
  keeps := h.keeps
  backups w := by
    rw [← hs.at_eq _ (Grounds.within_cons (by simp [Grounds.folders]) w)]
    exact h.backups w
  gone := h.gone

theorem Repaid.of_quiet {m₀ : Manager} (h : Repaid g m fs options rs m' fs')
    (hm : m = { m₀ with events := m.events, counters := m.counters }) :
    Repaid g m₀ fs options rs m' fs' where
  rolled := (Rolled.counted hm).trans h.rolled
  keeps := by have := h.keeps; rw [hm] at this; exact this
  backups := by have := h.backups; rw [hm] at this; exact this
  gone := by have := h.gone; rw [hm] at this; exact this

theorem finalize_removal_goes (fs₁ : FileSystem) (ht : m.transaction? p.result.transactionId = some t)
    (hsuccess : p.result.success = false) (herrors : p.result.errors = [])
    (hdry : options.dryRun = false) (hpres : options.preserveBackups = false)
    (hsave : (m.store.saveTransaction (t.reverted now)).run fs = (.ok (), fs₁))
    (hgo : Goes C P (m.finalize now options p) fs) :
    Goes C P (removeBackups m.backups p.consumedBackups) fs₁ := by
  rw [finalize, if_neg (by simp [hsuccess, herrors, hdry])] at hgo
  obtain ⟨-, hgo⟩ := hgo.bind
  have hmark : (m.markRolledBack now p.result.transactionId).run fs =
      ((.ok (), { m with history := m.history.put p.result.transactionId (t.reverted now) }), fs₁) := by
    simp only [markRolledBack, ht, run_bind]
    rw [← Transaction.reverted, hsave]
    rfl
  rw [hmark] at hgo
  dsimp only at hgo
  rw [if_neg (by simp [hpres])] at hgo
  exact hgo.bind.1

theorem at_backups_of_writing {f : Path} {w content : Bytes} (hk : Keeps g m.store fs)
    (h : Files.Writing fs f g.transactions w content fs') (v : Bytes) :
    fs'.at (v :: g.backups) = fs.at (v :: g.backups) := by
  have hne : ∀ u, v :: g.backups ≠ u :: g.transactions := fun u heq =>
    hk.transactions_ne_backups (List.cons.inj heq).2.symm
  rcases h with ⟨k, o, -, -, hedit⟩ | ⟨hedit, -⟩
  · exact hedit.at_of_ne (hne _)
  · exact hedit.at_of_ne (hne _)

theorem saveTransaction_writing (hk : Keeps g m.store fs) (ht : Plain t.id) :
    ∃ content, ∀ k ∈ (m.store.saveTransaction t).stages fs,
      Files.Writing fs m.store.transactionsDirectory g.transactions (documentName t.id) content k := by
  cases htext : t.toText? with
  | none =>
    refine ⟨[], fun k hmem => ?_⟩
    rw [Store.saveTransaction, htext] at hmem
    rw [List.mem_singleton.1 hmem]
    exact .inl (Files.Littered.refl hk.sound _)
  | some text => exact ⟨Utf8.encode text, (saveTransaction_meets hk ht htext).stages⟩

/-- A rollback that is ready to be recorded, recorded or not. -/
theorem finalize_repaid (hk : Keeps g m.store fs) (hp : PlainIds m) (ht : m.transaction? t.id = some t)
    (hready : Ready m p) (howes : Owes t options p) (hgo : Sure m.store P (m.finalize now options p) fs) :
    Repaid g m fs options [((m.finalize now options p).run fs).1.1]
      ((m.finalize now options p).run fs).1.2 ((m.finalize now options p).run fs).2 := by
  have hid := howes.id
  have ht' : m.transaction? p.result.transactionId = some t := hid ▸ ht
  have hplain : Plain (t.reverted now).id := hp.transaction _ _ ht
  have hrolled : Rolled m options.dryRun [((m.finalize now options p).run fs).1.1]
    ((m.finalize now options p).run fs).1.2 := (finalize_rolled hready).2
  obtain ⟨content, hwriting⟩ := saveTransaction_writing (t := t.reverted now) hk hplain
  have hcases : Finalized m now options p t fs ((m.finalize now options p).run fs) := finalize_cases ht'
  have hremoval := fun fs₁ h₁ h₂ h₃ h₄ hsave =>
    finalize_removal_goes fs₁ ht' h₁ h₂ h₃ h₄ hsave hgo
  generalize (m.finalize now options p).run fs = out at hcases hrolled ⊢
  -- only what has been put back may have another status
  have hput : ∀ (u : Transaction) (m₁ : Manager),
      m₁.history = m.history.put p.result.transactionId u → ∀ id v v', m.transaction? id = some v →
      v.status = .completed → m₁.transaction? id = some v' → v'.status = .rolledBack →
      id = t.id ∧ v = t ∧ v' = u := by
    intro u m₁ hm₁ id v v' hv hs hv' hs'
    have hget := transaction?_put m p.result.transactionId id u
    rw [transaction?, hm₁] at hv'
    rw [transaction?, hv', hid] at hget
    split at hget
    · next h =>
      subst h
      rw [ht, Option.some.injEq] at hv
      exact ⟨rfl, hv.symm, Option.some.inj hget⟩
    · rw [hv, Option.some.injEq] at hget
      rw [hget, hs] at hs'
      cases hs'
  cases hcases with
  | quiet h =>
    refine .quiet hrolled hk (fun _ => rfl) fun id v v' hv hs hv' hs' => ?_
    have hsame : m.transaction? id = some v' := hv'
    rw [hv, Option.some.injEq] at hsame
    rw [← hsame, hs] at hs'
    cases hs'
  | @failed _ fs₁ hsuccess herrors hdry hsave =>
    have hw := hwriting fs₁ (by have := mem_stages_run (m.store.saveTransaction (t.reverted now)) fs
                                rwa [hsave] at this)
    refine .quiet hrolled ((hk.tended_writing (by simp [Grounds.folders]) hw).keeps hk)
      (at_backups_of_writing hk hw) fun id v v' hv hs hv' hs' => ?_
    obtain ⟨-, -, rfl⟩ := hput (restored t) _ rfl id v v' hv hs hv' hs'
    cases hs'
  | @recorded fs₁ fs₂ warnings hsuccess herrors hdry hsave hremove =>
    have hw := hwriting fs₁ (by have := mem_stages_run (m.store.saveTransaction (t.reverted now)) fs
                                rwa [hsave] at this)
    have hk₁ := (hk.tended_writing (by simp [Grounds.folders]) hw).keeps hk
    have hb := at_backups_of_writing hk hw
    by_cases hpres : options.preserveBackups = true
    · rw [if_pos hpres] at hremove
      obtain ⟨rfl, rfl⟩ := Prod.mk.inj hremove
      exact ⟨hrolled, hk₁, fun w => .inl (hb w), fun h => by rw [hpres] at h; cases h⟩
    · rw [if_neg hpres] at hremove
      have hids : ∀ i ∈ p.consumedBackups, Plain i := fun i hi => by
        obtain ⟨op, hop, -, rfl⟩ := howes.used i hi
        exact hp.operation _ t ht op hop
      have hshed := (removeBackups_meets hk₁ hids).result
      have hgone := removeBackups_sure hk₁ hids
        (hremoval fs₁ hsuccess herrors hdry (by simpa using hpres) hsave)
      have hfs : ((removeBackups ⟨m.store.backupsDirectory⟩ p.consumedBackups).run fs₁).2 = fs₂ := by
        rw [backups] at hremove
        rw [hremove]
      rw [hfs] at hshed hgone
      have hs : t.status = .completed := by
        obtain ⟨u, hu, -, hopen⟩ := hready
        rw [ht', Option.some.injEq] at hu
        exact hu ▸ hopen hsuccess herrors
      refine ⟨hrolled, (hshed.tended hk₁ (by simp [Grounds.folders])).keeps hk₁, fun w => ?_,
        fun _ id v v' hv hs hv' hs' op hop hreq => ?_⟩
      · rw [← hb w]
        refine (hshed.at_eq (w :: g.backups)).imp_right ?_
        rintro ⟨hnone, x, hx, heq⟩
        obtain ⟨i, hi, rfl⟩ := List.mem_map.1 hx
        obtain ⟨op, hop, -, rfl⟩ := howes.used i hi
        refine ⟨hnone, t.id, t, t.reverted now, op, ht, hs, ?_, rfl, hop, (List.cons.inj heq).1⟩
        have := transaction?_put m p.result.transactionId t.id (t.reverted now)
        rw [if_pos hid.symm] at this
        exact this
      · obtain ⟨-, rfl, -⟩ := hput (t.reverted now) _ rfl id v v' hv hs hv' hs'
        exact hgone op.id (howes.all hsuccess herrors hdry op hop hreq)

def Clears (g : Grounds) (m : Manager) (P : FileSystem → Prop) : Prop :=
  ∀ k, P k → ∀ id t, m.transaction? id = some t → ∀ op ∈ t.operations, op.Outlying g k

theorem Rolled.earlier (h : Rolled m options.dryRun rs m') {t' : Transaction}
    (ht' : m'.transaction? id = some t') : ∃ t, m.transaction? id = some t ∧ t.Becomes t' := by
  cases ht : m.transaction? id with
  | none => rw [h.unknown id ht] at ht'; cases ht'
  | some t =>
    obtain ⟨u, hu, hb, -⟩ := h.kept id t ht
    rw [ht', Option.some.injEq] at hu
    exact ⟨t, rfl, hu ▸ hb⟩

theorem Rolled.plainIds (h : Rolled m options.dryRun rs m') (hp : PlainIds m) : PlainIds m' where
  transaction id t' ht' := by
    obtain ⟨t, ht, -⟩ := h.earlier ht'
    exact hp.transaction id t ht
  operation id t' ht' := by
    obtain ⟨t, ht, hb⟩ := h.earlier ht'
    rw [hb.record]
    exact hp.operation id t ht

theorem Rolled.clears (h : Rolled m options.dryRun rs m') (hc : Clears g m P) : Clears g m' P := by
  intro k hP id t' ht'
  obtain ⟨t, ht, hb⟩ := h.earlier ht'
  rw [hb.record]
  exact hc k hP id t ht

theorem rollback_repaid (hk : Keeps g m.store fs) (hp : PlainIds m) (hkeyed : Keyed m)
    (hc : Clears g m P) (hgo : Sure m.store P (m.rollback now options id) fs) :
    Repaid g m fs options [((m.rollback now options id).run fs).1.1]
      ((m.rollback now options id).run fs).1.2 ((m.rollback now options id).run fs).2 := by
  have hrolled : Rolled m options.dryRun [((m.rollback now options id).run fs).1.1]
      ((m.rollback now options id).run fs).1.2 := rollback_rolled (hkeyed id)
  rw [rollback] at hgo hrolled ⊢
  cases ht : m.attempted.transaction? id with
  | none =>
    simp only [ht] at hrolled
    refine .quiet hrolled hk (fun _ => rfl) fun j t t' hj hs hj' hs' => ?_
    have hsame : m.transaction? j = some t' := hj'
    rw [hj, Option.some.injEq] at hsame
    rw [← hsame, hs] at hs'
    cases hs'
  | some t =>
    simp only [ht] at hgo
    obtain rfl := hkeyed id t ht
    simp only [run_bind]
    obtain ⟨hgo₁, hgo₂⟩ := hgo.bind
    have hspared := (execute_untouched (g := g) (m := m.attempted.publish (.rollbackStarted t.id)) hk
      hgo₁ (fun k hP => hc k hP t.id t ht) _ (mem_stages_run _ fs)).toSpared
    have hready : Ready (m.attempted.publish (.rollbackStarted t.id))
      (((m.attempted.publish (.rollbackStarted t.id)).execute options t).run fs).1 := execute_ready ht
    have hfinal := finalize_repaid (g := g) (m := m.attempted.publish (.rollbackStarted t.id))
      hspared.keeps ⟨hp.transaction, hp.operation⟩ ht hready (execute_owes _ _ _ _) hgo₂
    exact (hfinal.of_spared hspared).of_quiet rfl

theorem rollbackInTurn_repaid (hk : Keeps g m.store fs) (hp : PlainIds m) (hkeyed : Keyed m)
    (hc : Clears g m P) (hgo : Sure m.store P (m.rollbackInTurn now options ts) fs) :
    Repaid g m fs options ((m.rollbackInTurn now options ts).run fs).1.1
      ((m.rollbackInTurn now options ts).run fs).1.2 ((m.rollbackInTurn now options ts).run fs).2 := by
  induction ts generalizing m fs with
  | nil => exact .refl hk
  | cons t ts ih =>
    rw [rollbackInTurn] at hgo ⊢
    obtain ⟨hgo₁, hgo₂⟩ := hgo.bind
    have hfirst := rollback_repaid hk hp hkeyed hc hgo₁
    rw [run_bind]
    generalize (m.rollback now options t.id).run fs = out at hgo₂ hfirst
    obtain ⟨⟨r, m₁⟩, fs₁⟩ := out
    dsimp only at hgo₂ hfirst ⊢
    split at hgo₂
    · next hstop => rw [if_pos hstop]; exact hfirst
    · next hgo' =>
      rw [if_neg hgo', run_bind]
      have hstore := hfirst.rolled.store
      exact hfirst.trans (ih (hstore ▸ hfirst.keeps) (hfirst.rolled.plainIds hp)
        (hfirst.rolled.keyed hkeyed) (hfirst.rolled.clears hc) (hstore ▸ hgo₂.bind.1))

theorem executeEach_spared (hk : Keeps g m.store fs)
    (hgo : Goes C P (m.executeEach options ts) fs)
    (hout : ∀ k, P k → ∀ t ∈ ts, ∀ op ∈ t.operations, op.Outlying g k) :
    Spared g m.store fs ((m.executeEach options ts).run fs).2 ∧
      List.Forall₂ (fun t p => Owes t options p) ts ((m.executeEach options ts).run fs).1 := by
  induction ts generalizing fs with
  | nil => exact ⟨Spared.refl hk, .nil⟩
  | cons t ts ih =>
    rw [executeEach] at hgo ⊢
    obtain ⟨hgo₁, hgo₂⟩ := hgo.bind
    have hspared := (execute_untouched hk hgo₁ (fun k hP => hout k hP t List.mem_cons_self) _
      (mem_stages_run _ fs)).toSpared
    obtain ⟨hrest, howes⟩ := ih hspared.keeps hgo₂.bind.1
      fun k hP u hu => hout k hP u (List.mem_cons_of_mem _ hu)
    simp only [run_bind, run_pure]
    exact ⟨hspared.trans hrest, .cons (execute_owes m options t fs) howes⟩

theorem Owes.congr {u : Transaction} (h : Owes t options p) (hid : u.id = t.id)
    (hops : u.operations = t.operations) : Owes u options p where
  id := h.id.trans hid.symm
  used := hops ▸ h.used
  all := hops ▸ h.all

theorem ids_of_owes (h : List.Forall₂ (fun t p => Owes t options p) ts ps) :
    ps.map (·.result.transactionId) = ts.map (·.id) := by
  induction h with
  | nil => rfl
  | cons h _ ih => rw [List.map_cons, List.map_cons, h.id, ih]

theorem finalizeEach_repaid (hk : Keeps g m.store fs) (hp : PlainIds m)
    (hts : ∀ t ∈ ts, ∃ u, m.transaction? t.id = some u ∧ u.id = t.id ∧ u.operations = t.operations)
    (howes : List.Forall₂ (fun t p => Owes t options p) ts ps)
    (hready : ∀ p ∈ ps, Ready m p) (hids : (ts.map (·.id)).Nodup)
    (hgo : Sure m.store P (m.finalizeEach now options ps) fs) :
    Repaid g m fs options ((m.finalizeEach now options ps).run fs).1.1
      ((m.finalizeEach now options ps).run fs).1.2 ((m.finalizeEach now options ps).run fs).2 := by
  induction howes generalizing m fs with
  | nil => exact .refl hk
  | @cons t p ts ps ho howes ih =>
    rw [finalizeEach] at hgo ⊢
    obtain ⟨hgo₁, hgo₂⟩ := hgo.bind
    obtain ⟨u, hu, huid, hops⟩ := hts t List.mem_cons_self
    have hp₀ := hready p List.mem_cons_self
    have hfirst := finalize_repaid hk hp (huid ▸ hu) hp₀ (ho.congr huid hops) hgo₁
    have hid : ((m.finalize now options p).run fs).1.1.transactionId = p.result.transactionId :=
      (finalize_rolled hp₀).1
    simp only [run_bind, run_pure]
    generalize (m.finalize now options p).run fs = out at hgo₂ hfirst hid
    obtain ⟨⟨r, m₁⟩, fs₁⟩ := out
    have hrolled := hfirst.rolled
    rw [List.map_cons, List.nodup_cons] at hids
    refine hfirst.trans (ih (hrolled.store ▸ hfirst.keeps) (hrolled.plainIds hp) (fun v hv => ?_)
      (fun q hq => ?_) hids.2 (hrolled.store ▸ hgo₂.bind.1))
    · obtain ⟨w, hw, hwid, hwops⟩ := hts v (List.mem_cons_of_mem _ hv)
      obtain ⟨w', hw', hb, -⟩ := hrolled.kept _ w hw
      exact ⟨w', hw', by rw [hb.record]; exact hwid, by rw [hb.record]; exact hwops⟩
    · refine (hready q (List.mem_cons_of_mem _ hq)).of_rolled hrolled fun heq => hids.1 ?_
      rw [← ids_of_owes howes, ← ho.id, ← hid, heq]
      exact List.mem_map_of_mem hq

theorem rollbackCheckpoint_repaid (hk : Keeps g m.store fs) (hp : PlainIds m) (hkeyed : Keyed m)
    (hc : Clears g m P) (hcheckpoint : ∀ c, m.checkpoint? id = some c → c.transactionIds.Nodup)
    (hgo : Sure m.store P (m.rollbackCheckpoint now options id) fs) :
    Repaid g m fs options (((m.rollbackCheckpoint now options id).run fs).1.1.toOption.getD [])
      ((m.rollbackCheckpoint now options id).run fs).1.2
      ((m.rollbackCheckpoint now options id).run fs).2 := by
  rw [rollbackCheckpoint] at hgo ⊢
  cases hcp : m.checkpoint? id with
  | none => exact .refl hk
  | some c =>
    simp only [hcp] at hgo
    have hmembers : ∀ t ∈ m.membersOf c, m.transaction? t.id = some t := fun t ht =>
      hkeyed.transaction?_of_member ht
    dsimp only
    split at hgo
    · next htogether =>
      rw [if_pos htogether]
      obtain ⟨hgo₁, -⟩ := hgo.bind
      rw [run_bind]
      rw [rollbackTogether] at hgo₁ ⊢
      have hcalled := announce_eq m (m.membersOf c)
      generalize (m.membersOf c).foldl (fun m t => m.attempted.publish (.rollbackStarted t.id)) m = m₁
        at hcalled hgo₁ ⊢
      obtain ⟨hgo₂, hgo₃⟩ := hgo₁.bind
      rw [run_bind]
      have hstore : m₁.store = m.store := by rw [hcalled]
      have hget : ∀ j, m₁.transaction? j = m.transaction? j := fun j => by
        rw [transaction?, hcalled]; rfl
      have hk₁ : Keeps g m₁.store fs := hstore ▸ hk
      have hp₁ : PlainIds m₁ :=
        ⟨fun j t ht => hp.transaction j t (hget j ▸ ht), fun j t ht => hp.operation j t (hget j ▸ ht)⟩
      have hmembers₁ : ∀ t ∈ m.membersOf c, m₁.transaction? t.id = some t := fun t ht => by
        rw [hget, hmembers t ht]
      obtain ⟨hspared, howes⟩ := executeEach_spared hk₁ hgo₂ fun k hP t ht op hop =>
        hc k hP t.id t (hmembers t ht) op hop
      obtain ⟨-, hready⟩ := executeEach_ready options fs hmembers₁
      have hfinal := finalizeEach_repaid hspared.keeps hp₁
        (fun t ht => ⟨t, hmembers₁ t ht, rfl, rfl⟩) howes hready
        (nodup_membersOf hkeyed (hcheckpoint c hcp)) (hstore ▸ hgo₃)
      exact (hfinal.of_spared hspared).of_quiet hcalled
    · next hturns =>
      rw [if_neg hturns, run_bind]
      exact rollbackInTurn_repaid hk hp hkeyed hc hgo.bind.1

/-! ### What is recorded -/

/-- A transaction that is under way or kept. -/
def Records (m : Manager) (t : Transaction) : Prop :=
  m.current = some t ∨ ∃ id, m.transaction? id = some t

/-- A transaction that is under way, or kept and not rolled back. -/
def Revertible (m : Manager) (t : Transaction) : Prop :=
  m.current = some t ∨ ∃ id, m.transaction? id = some t ∧ t.status = .completed

theorem Revertible.records (h : m.Revertible t) : m.Records t :=
  h.imp_right fun h => ⟨h.choose, h.choose_spec.1⟩

theorem Orderly.unique {u : Transaction} (ho : Orderly m) (ht : m.Records t) (hu : m.Records u)
    (hid : t.id = u.id) : t = u := by
  have hkept : ∀ {v id}, m.transaction? id = some v → m.transaction? v.id = some v := fun {v id} hv => by
    rw [ho.keyed id v hv]; exact hv
  rcases ht with ht | ⟨i, ht⟩ <;> rcases hu with hu | ⟨j, hu⟩
  · rw [ht, Option.some.injEq] at hu; exact hu
  · have := hkept hu
    rw [← hid, (ho.current t ht).2] at this
    cases this
  · have := hkept ht
    rw [hid, (ho.current u hu).2] at this
    cases this
  · have h₁ := hkept ht
    rw [hid, hkept hu, Option.some.injEq] at h₁
    exact h₁.symm

def BackedUp (g : Grounds) (s : Store) (fs : FileSystem) (op : Operation) : Prop :=
  ∃ b, fs.at (backupName op.id :: g.backups) = some (.file 0o600 b) ∧
    op.checksum = some (Sha256.hexDigest b) ∧ Aims fs s.backupsDirectory g.backups (backupName op.id)

/-- The backups are those that are needed, for transactions and operations whose ids are among those
that were given. -/
structure Accounted (g : Grounds) (ids : List String) (m : Manager) (fs : FileSystem) : Prop where
  orderly : Orderly m
  keeps : Keeps g m.store fs
  plain : ∀ i ∈ ids, Plain i
  checkpoints : ∀ id c, m.checkpoint? id = some c → id ∈ ids
  known : ∀ t, m.Records t → t.id ∈ ids ∧ ∀ op ∈ t.operations, op.id ∈ ids
  once : ∀ t, m.Records t → (t.operations.map (·.id)).Nodup
  apart : ∀ t u, m.Records t → m.Records u → t.id ≠ u.id →
    ∀ op ∈ t.operations, ∀ op' ∈ u.operations, op.id ≠ op'.id
  named : ∀ w e, fs.at (w :: g.backups) = some e →
    ∃ t op, m.Records t ∧ op ∈ t.operations ∧ op.requiresBackup = true ∧ w = backupName op.id
  backed : ∀ t, m.Revertible t → ∀ op ∈ t.operations, op.requiresBackup = true →
    BackedUp g m.store fs op

theorem Accounted.plainIds {ids : List String} (h : Accounted g ids m fs) : PlainIds m where
  transaction id t ht := by
    rw [← h.orderly.keyed id t ht]
    exact h.plain _ (h.known t (.inr ⟨id, ht⟩)).1
  operation id t ht op hop := h.plain _ ((h.known t (.inr ⟨id, ht⟩)).2 op hop)

theorem Accounted.spared {ids : List String} (h : Accounted g ids m fs) (hs : Spared g m.store fs fs') :
    Accounted g ids m fs' where
  orderly := h.orderly
  keeps := hs.keeps
  plain := h.plain
  checkpoints := h.checkpoints
  known := h.known
  once := h.once
  apart := h.apart
  named w e he := by
    rw [hs.at_eq _ (Grounds.within_cons (by simp [Grounds.folders]) w)] at he
    exact h.named w e he
  backed t ht op hop hreq := by
    obtain ⟨b, hb, hsum, ha⟩ := h.backed t ht op hop hreq
    refine ⟨b, ?_, hsum, ha.of_leads hs.keeps.backups⟩
    rw [hs.at_eq _ (Grounds.within_cons (by simp [Grounds.folders]) _)]
    exact hb

/-- A change in which no transaction is recorded anew, and only those that are let go or rolled back
lose backups, and those that are let go lose all of them. -/
structure Sheds (g : Grounds) (m : Manager) (fs : FileSystem) (m' : Manager) (fs' : FileSystem) :
    Prop where
  store : m'.store = m.store
  keeps : Keeps g m.store fs'
  records : ∀ t', m'.Records t' → ∃ t, m.Records t ∧ t.id = t'.id ∧ t.operations = t'.operations
  revertible : ∀ t', m'.Revertible t' →
    ∃ t, m.Revertible t ∧ t.id = t'.id ∧ t.operations = t'.operations
  fewer : ∀ w, fs'.at (w :: g.backups) = fs.at (w :: g.backups) ∨ fs'.at (w :: g.backups) = none
  held : ∀ t', m'.Revertible t' → ∀ op ∈ t'.operations,
    fs'.at (backupName op.id :: g.backups) = fs.at (backupName op.id :: g.backups)
  gone : ∀ t, m.Records t → (∀ t', m'.Records t' → t'.id ≠ t.id) → ∀ op ∈ t.operations,
    op.requiresBackup = true → fs'.at (backupName op.id :: g.backups) = none

theorem Accounted.sheds {ids : List String} (h : Accounted g ids m fs) (ho : Orderly m')
    (hc : ∀ id c, m'.checkpoint? id = some c → id ∈ ids) (hs : Sheds g m fs m' fs') :
    Accounted g ids m' fs' where
  orderly := ho
  keeps := hs.store ▸ hs.keeps
  plain := h.plain
  checkpoints := hc
  known t' ht' := by
    obtain ⟨t, ht, hid, hops⟩ := hs.records t' ht'
    exact hid ▸ hops ▸ h.known t ht
  once t' ht' := by
    obtain ⟨t, ht, -, hops⟩ := hs.records t' ht'
    exact hops ▸ h.once t ht
  apart t' u' ht' hu' hne := by
    obtain ⟨t, ht, hid, hops⟩ := hs.records t' ht'
    obtain ⟨u, hu, hid', hops'⟩ := hs.records u' hu'
    rw [← hops, ← hops']
    exact h.apart t u ht hu (by rw [hid, hid']; exact hne)
  named w e he := by
    rcases hs.fewer w with heq | hnone
    swap
    · rw [he] at hnone; cases hnone
    obtain ⟨t, op, ht, hop, hreq, rfl⟩ := h.named w e (heq ▸ he)
    by_cases hkept : ∃ t', m'.Records t' ∧ t'.id = t.id
    · obtain ⟨t', ht', hid⟩ := hkept
      obtain ⟨u, hu, hid', hops⟩ := hs.records t' ht'
      obtain rfl := h.orderly.unique hu ht (hid'.trans hid)
      exact ⟨t', op, ht', hops ▸ hop, hreq, rfl⟩
    · have := hs.gone t ht (fun t' ht' hid => hkept ⟨t', ht', hid⟩) op hop hreq
      rw [he] at this
      cases this
  backed t' ht' op hop hreq := by
    obtain ⟨t, ht, -, hops⟩ := hs.revertible t' ht'
    obtain ⟨b, hb, hsum, ha⟩ := h.backed t ht op (hops ▸ hop) hreq
    exact ⟨b, (hs.held t' ht' op hop).trans hb, hsum, hs.store ▸ ha.of_leads hs.keeps.backups⟩

theorem Sheds.refl (hk : Keeps g m.store fs) : Sheds g m fs m fs where
  store := rfl
  keeps := hk
  records t' ht' := ⟨t', ht', rfl, rfl⟩
  revertible t' ht' := ⟨t', ht', rfl, rfl⟩
  fewer _ := .inl rfl
  held _ _ _ _ := rfl
  gone t ht hnone := absurd rfl (hnone t ht)

theorem Repaid.sheds {ids : List String} (h : Accounted g ids m fs)
    (hr : Repaid g m fs options rs m' fs') : Sheds g m fs m' fs' := by
  have hcurrent : m'.current = m.current := by rw [hr.rolled.others]
  have hrevertible : ∀ t', m'.Revertible t' →
      ∃ t, m.Revertible t ∧ t.id = t'.id ∧ t.operations = t'.operations := by
    rintro t' (ht' | ⟨id, ht', hs'⟩)
    · exact ⟨t', .inl (hcurrent ▸ ht'), rfl, rfl⟩
    · obtain ⟨t, ht, hb⟩ := hr.rolled.earlier ht'
      refine ⟨t, .inr ⟨id, ht, ?_⟩, by rw [hb.record], by rw [hb.record]⟩
      exact (hb.status.resolve_right fun hc => by rw [hs'] at hc; cases hc.2).symm.trans hs'
  refine
    { store := hr.rolled.store, keeps := hr.keeps, records := ?_, revertible := hrevertible
      fewer := fun w => (hr.backups w).imp_right And.left
      held := fun t' ht' op hop => ?_
      gone := fun t ht hnone => ?_ }
  · rintro t' (ht' | ⟨id, ht'⟩)
    · exact ⟨t', .inl (hcurrent ▸ ht'), rfl, rfl⟩
    · obtain ⟨t, ht, hb⟩ := hr.rolled.earlier ht'
      exact ⟨t, .inr ⟨id, ht⟩, by rw [hb.record], by rw [hb.record]⟩
  · -- what has gone belongs to a transaction that is rolled back now
    refine (hr.backups _).resolve_right ?_
    rintro ⟨-, id, u, u', op', hu, -, hu', hs', hop', heq⟩
    obtain ⟨t, ht, hid, hops⟩ := hrevertible t' ht'
    have hne : t.id ≠ u.id := by
      intro heq'
      have hkeyed := hr.rolled.keyed h.orderly.keyed
      have huid : u.id = u'.id := by
        rw [h.orderly.keyed id u hu, hkeyed id u' hu']
      rcases ht' with ht' | ⟨j, ht', hs⟩
      · have hcur : m.current = some t' := hcurrent ▸ ht'
        have hnone := (h.orderly.current t' hcur).2
        rw [← hid, heq', h.orderly.keyed id u hu, hu] at hnone
        cases hnone
      · have hj : j = id := by
          rw [← hkeyed j t' ht', ← hkeyed id u' hu', ← hid, heq', huid]
        rw [hj, hu', Option.some.injEq] at ht'
        rw [← ht', hs'] at hs
        cases hs
    exact h.apart t u ht.records (.inr ⟨id, hu⟩) hne op (hops ▸ hop) op' hop' (backupName_inj heq)
  · rcases ht with ht | ⟨id, ht⟩
    · exact absurd rfl (hnone t (.inl (hcurrent.trans ht)))
    · obtain ⟨t', ht', hb, -⟩ := hr.rolled.kept id t ht
      exact absurd (by rw [hb.record]) (hnone t' (.inr ⟨id, ht'⟩))

theorem Cleared.sheds {ids : List String} (h : Accounted g ids m fs) (hc : Cleared g m fs m' fs') :
    Sheds g m fs m' fs' := by
  have hstore : m'.store = m.store := by rw [hc.pruned.manager]
  have hcurrent : m'.current = m.current := by rw [hc.pruned.manager]
  have hrecords : ∀ t', m'.Records t' → m.Records t' := by
    rintro t' (ht' | ⟨id, ht'⟩)
    · exact .inl (hcurrent ▸ ht')
    · exact .inr ⟨id, hc.pruned.kept id t' ht'⟩
  refine
    { store := hstore, keeps := hc.pruned.tended.keeps h.keeps
      records := fun t' ht' => ⟨t', hrecords t' ht', rfl, rfl⟩
      revertible := fun t' ht' => ⟨t', ?_, rfl, rfl⟩
      fewer := hc.fewer
      held := fun t' ht' op hop => ?_
      gone := fun t ht hnone op hop hreq => ?_ }
  · rcases ht' with ht' | ⟨id, ht', hs⟩
    · exact .inl (hcurrent ▸ ht')
    · exact .inr ⟨id, hc.pruned.kept id t' ht', hs⟩
  · refine (hc.pruned.backups _).resolve_right ?_
    rintro ⟨id, u, op', hu, hgone, hop', heq⟩
    have hne : t'.id ≠ u.id := by
      intro heq'
      have : t' = u := h.orderly.unique (hrecords t' ht'.records) (.inr ⟨id, hu⟩) heq'
      subst this
      rcases ht' with ht' | ⟨j, ht', -⟩
      · have hnone := (h.orderly.current t' (hcurrent ▸ ht')).2
        rw [h.orderly.keyed id t' hu, hu] at hnone
        cases hnone
      · have hj : j = id := by
          rw [← h.orderly.keyed j t' (hc.pruned.kept j t' ht'), h.orderly.keyed id t' hu]
        rw [hj, hgone] at ht'
        cases ht'
    exact h.apart t' u (hrecords t' ht'.records) (.inr ⟨id, hu⟩) hne op hop op' hop' (backupName_inj heq)
  · rcases ht with ht | ⟨id, ht⟩
    · exact absurd rfl (hnone t (.inl (hcurrent.trans ht)))
    · refine hc.gone id t ht ?_ op hop hreq
      cases ht' : m'.transaction? id with
      | none => rfl
      | some t' =>
        have := hc.pruned.kept id t' ht'
        rw [ht, Option.some.injEq] at this
        subst this
        exact absurd rfl (hnone t (.inr ⟨id, ht'⟩))

end Manager
end Retrace
