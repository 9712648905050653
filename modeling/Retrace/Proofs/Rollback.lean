import Retrace.Proofs.Trail

/-!
Rolling back a transaction whose operations undo what was done. The tree is as it was before, the
document says that the transaction is rolled back, and no backups but its own have gone
(`rollback_run`).
-/
namespace Retrace

open FileSystem Retrace.Path Script

variable {g : Grounds} {s : Store} {fs fs₁ fs' R R' : FileSystem} {w : Bytes} {t : Transaction}
  {xs : List (Operation × Option Bytes)} {m : Manager} {now : Instant} {options : Rollback.Options}

theorem removeBackups_meets {ids : List String} (hk : Keeps g s fs) (hids : ∀ i ∈ ids, Plain i) :
    Meets (Manager.removeBackups ⟨s.backupsDirectory⟩ ids) fs
      (Shed g.backups (ids.map backupName) fs)
      fun _ fs' => Shed g.backups (ids.map backupName) fs fs' := by
  induction ids generalizing fs with
  | nil => exact Meets.pure (Shed.refl hk.sound _ _) (Shed.refl hk.sound _ _)
  | cons id ids ih =>
    have hone : ∀ {fs'}, Shed g.backups [backupName id] fs fs' →
        Shed g.backups ((id :: ids).map backupName) fs fs' := fun h => h.mono (by simp)
    rw [Manager.removeBackups]
    refine ((remove_meets hk (hids id List.mem_cons_self)).mono (fun _ => hone)
      fun _ _ _ h => h).bind fun r fs' _ h => ?_
    have hk' := (h.tended hk (by simp [Grounds.folders])).keeps hk
    have hwhole : ∀ {fs''}, Shed g.backups (ids.map backupName) fs' fs'' →
        Shed g.backups ((id :: ids).map backupName) fs fs'' :=
      fun h' => (hone h).trans (h'.mono (by simp))
    refine ((ih hk' fun i hi => hids i (List.mem_cons_of_mem _ hi)).mono (fun _ => hwhole)
      fun _ _ _ => hwhole).bind fun rest fs'' _ h' => ?_
    cases r with
    | ok b => exact Meets.pure h' h'
    | error e => exact Meets.pure h' h'

/-- A transaction as it is recorded when it has been rolled back. -/
def Transaction.reverted (t : Transaction) (now : Instant) : Transaction :=
  { t with status := .rolledBack, rollbackTimestamp := some now }

theorem isSome_toText? (t : Transaction) :
    t.toText?.isSome = (t.operations.mapM Operation.toJson?).isSome := by
  rw [Transaction.toText?, Option.isSome_map, Transaction.toJson?]
  cases t.operations.mapM Operation.toJson? <;> rfl

/-- What a rollback that undid everything says and leaves. -/
structure RolledBack (g : Grounds) (m : Manager) (now : Instant) (t : Transaction) (fs : FileSystem)
    (r : Rollback.Result) (m' : Manager) (fs' : FileSystem) : Prop where
  id : r.transactionId = t.id
  success : r.success = true
  errors : r.errors = []
  skipped : r.skippedOperations = []
  count : r.rolledBackOperations = t.operations.length
  manager : m' = { m with events := m'.events, counters := m'.counters, history := m.history.put t.id (t.reverted now) }
  keeps : Keeps g m.store fs'
  folders : ∀ d ∈ g.folders, fs'.at d = fs.at d
  document : ∃ text, (t.reverted now).toText? = some text ∧
    fs'.at (documentName t.id :: g.transactions) = some (.file 0o600 (Utf8.encode text))
  transactions : ∀ w, w ≠ documentName t.id →
    fs'.at (w :: g.transactions) = fs.at (w :: g.transactions)
  backups : ∀ w, fs'.at (w :: g.backups) = fs.at (w :: g.backups) ∨
    ∃ op ∈ t.operations, w = backupName op.id

/-- A completed transaction that is kept, with all that rolling it back takes. -/
structure Held (g : Grounds) (m : Manager) (fs : FileSystem) (t : Transaction)
    (xs : List (Operation × Option Bytes)) : Prop where
  keeps : Keeps g m.store fs
  kept : m.transaction? t.id = some t
  completed : t.status = .completed
  operations : t.operations = xs.map (·.1)
  plain : Plain t.id
  plain_operations : ∀ op ∈ t.operations, Plain op.id
  text : t.toText?.isSome
  secured : ∀ x ∈ xs, Secured g m.store fs x
  room : Room fs m.store.transactionsDirectory g.transactions
  aims : Aims fs m.store.transactionsDirectory g.transactions (documentName t.id)

/-- What reverting everything has done by the time that it is recorded. -/
structure Reverts (g : Grounds) (fs R : FileSystem) (t : Transaction) (p : Rollback.Pending)
    (R' : FileSystem) : Prop where
  id : p.result.transactionId = t.id
  open_result : p.result.success = false
  errors : p.result.errors = []
  skipped : p.result.skippedOperations = []
  count : p.result.rolledBackOperations = t.operations.length
  consumed : ∀ i ∈ p.consumedBackups, ∃ op ∈ t.operations, i = op.id
  alike : Alike g fs R'
  undisturbed : Undisturbed g R R'

theorem execute_run (hheld : Held g m R t xs) (h : Trail g m.store fs xs fs') (hR : Alike g fs' R)
    (hdry : options.dryRun = false) :
    ∃ p R', (m.execute options t).run R = (p, R') ∧ Reverts g fs R t p R' := by
  have ht := hheld.operations
  obtain ⟨p, hp, hcan⟩ := h.preview_run m.settings.verifyChecksums hheld.secured ht
  obtain ⟨o, R', hrun, hset, halike, hund⟩ :=
    h.revertEach_run m.settings.verifyChecksums hdry hheld.keeps hR hheld.secured {}
  have hreversed : t.reversed = (xs.map (·.1)).reverse := by rw [Transaction.reversed, ht]
  have hexecute : (m.execute options t).run R =
      (⟨{ transactionId := t.id, risk := p.risk, warnings := p.warnings ++ o.warnings
          rolledBackOperations := o.rolledBack, errors := o.errors, skippedOperations := o.skipped },
        o.consumedBackups⟩, R') := by
    simp only [Manager.execute, hheld.completed, run_bind, Manager.previewOf, Manager.backups, hp, hcan,
      Bool.not_true, Bool.false_and, Bool.false_eq_true, if_false, Rollback.revertAll, hreversed,
      hrun, run_pure]
  refine ⟨_, R', hexecute, ?_⟩
  exact
    { id := rfl, open_result := rfl, errors := hset.errors, skipped := hset.skipped
      count := by rw [hset.rolledBack, ht, List.length_map]; exact Nat.zero_add _
      consumed := fun i hi => by
        rcases hset.consumed i hi with hi | ⟨x, hx, rfl⟩
        · cases hi
        · exact ⟨x.1, ht ▸ List.mem_map_of_mem hx, rfl⟩
      alike := halike, undisturbed := hund }

/-- A rollback that undid everything is recorded. -/
theorem finalize_run {p : Rollback.Pending} (hheld : Held g m R t xs) (h : Reverts g fs R t p R')
    (hdry : options.dryRun = false) :
    ∃ r m' R'', (m.finalize now options p).run R' = ((r, m'), R'') ∧ Alike g fs R'' ∧
      RolledBack g m now t R r m' R'' := by
  have hk := hheld.keeps
  have hk' := h.undisturbed.keeps hk
  have hstay : ∀ d ∈ g.folders, ∀ w, R'.at (w :: d) = R.at (w :: d) := fun d hd w =>
    h.undisturbed.at_eq _ (.inl (Grounds.within_cons hd w))
  obtain ⟨text, hwritten⟩ : ∃ text, (t.reverted now).toText? = some text := by
    have htext := hheld.text
    rw [isSome_toText?] at htext
    rw [← Option.isSome_iff_exists, isSome_toText?]
    exact htext
  have hroom' : Room R' m.store.transactionsDirectory g.transactions :=
    hheld.room.congr (h.undisturbed.at_eq _ (.inr (by simp [Grounds.folders])))
      fun i => by rw [hstay _ (by simp [Grounds.folders])]
  have hmeets : Meets (m.store.saveTransaction (t.reverted now)) R' _ _ :=
    saveTransaction_meets hk' hheld.plain hwritten
  have hsaved := hmeets.result
  generalize hrun : (m.store.saveTransaction (t.reverted now)).run R' = saved at hsaved
  obtain ⟨r, R₁⟩ := saved
  rcases hsaved with ⟨hr, hedit, -⟩ | ⟨-, -, hbad⟩
  swap
  · exact absurd ⟨hroom', hheld.aims.of_leads hk'.transactions⟩ hbad
  simp only at hr hedit
  subst hr
  have ht₁ := hk'.tended_edit (by simp [Grounds.folders]) (by simp) hedit
  have hmark : (m.markRolledBack now p.result.transactionId).run R' =
      ((.ok (), { m with history := m.history.put t.id (t.reverted now) }), R₁) := by
    rw [h.id, Manager.markRolledBack]
    simp only [hheld.kept, run_bind]
    rw [← Transaction.reverted, hrun]
    rfl
  obtain ⟨warnings, R₂, hend, hshed⟩ : ∃ warnings R₂,
      (if options.preserveBackups then pure [] else Manager.removeBackups m.backups p.consumedBackups :
        Script (List String)).run R₁ = (warnings, R₂) ∧
      Shed g.backups (p.consumedBackups.map backupName) R₁ R₂ := by
    split
    · exact ⟨[], R₁, rfl, Shed.refl ht₁.sound _ _⟩
    · refine ⟨_, _, rfl, (removeBackups_meets (ht₁.keeps hk') fun i hi => ?_).result⟩
      obtain ⟨op, hop, rfl⟩ := h.consumed i hi
      exact hheld.plain_operations op hop
  have ht₂ := hshed.tended (ht₁.keeps hk') (by simp [Grounds.folders])
  have hB : ∀ w, R₁.at (w :: g.backups) = R.at (w :: g.backups) := fun w => by
    rw [hedit.at_of_ne fun heq => hk.transactions_ne_backups (List.cons.inj heq).2.symm]
    exact hstay _ (by simp [Grounds.folders]) w
  have hT : ∀ w, R₂.at (w :: g.transactions) = R₁.at (w :: g.transactions) := fun w =>
    (hshed.at_eq _).resolve_right <| by
      rintro ⟨-, v, -, heq⟩
      exact hk.transactions_ne_backups (List.cons.inj heq).2
  have hfinal : (m.finalize now options p).run R' =
      (Manager.settle { m with history := m.history.put t.id (t.reverted now) } options
        { p.result with warnings := p.result.warnings ++ warnings }, R₂) := by
    have hgo : ¬(p.result.success || !p.result.errors.isEmpty || options.dryRun) = true := by
      simp [h.open_result, h.errors, hdry]
    rw [Manager.finalize, if_neg hgo, run_bind, hmark]
    by_cases hp : options.preserveBackups = true
    · simp only [hp, if_true, run_pure, Prod.mk.injEq] at hend ⊢
      rw [← hend.1, ← hend.2, List.append_nil]
      exact ⟨rfl, rfl⟩
    · simp only [hp, Bool.false_eq_true, if_false] at hend ⊢
      rw [run_bind, Manager.backups] at *
      rw [hend]
      rfl
  refine ⟨_, _, R₂, hfinal, (h.alike.trans ht₁.alike).trans ht₂.alike, ?_⟩
  exact
    { id := h.id, success := by simp [h.errors]
      errors := h.errors, skipped := h.skipped, count := h.count, manager := rfl
      keeps := ht₂.keeps (ht₁.keeps hk')
      folders := fun d hd => by
        rw [ht₂.beyond d (hk.folder_not_within hd), ht₁.beyond d (hk.folder_not_within hd)]
        exact h.undisturbed.at_eq d (.inr (List.mem_append_left _ hd))
      document := ⟨text, hwritten, (hT _).trans hedit.at_self⟩
      transactions := fun w hw => by
        rw [hT, hedit.at_of_ne fun heq => hw (List.cons.inj heq).1]
        exact hstay _ (by simp [Grounds.folders]) w
      backups := fun w => by
        rcases hshed.at_eq (w :: g.backups) with heq | ⟨-, v, hv, heq⟩
        · exact .inl (heq.trans (hB w))
        · obtain ⟨i, hi, rfl⟩ := List.mem_map.1 hv
          obtain ⟨op, hop, rfl⟩ := h.consumed i hi
          exact .inr ⟨op, hop, (List.cons.inj heq).1⟩ }

/-- Rolling back a transaction on a tree that looks like the one in which it was completed gives one
that looks like the one in which it was started. -/
theorem rollback_run (hheld : Held g m R t xs) (h : Trail g m.store fs xs fs') (hR : Alike g fs' R)
    (hdry : options.dryRun = false) (now : Instant) :
    ∃ r m' R', (m.rollback now options t.id).run R = ((r, m'), R') ∧ Alike g fs R' ∧
      RolledBack g m now t R r m' R' := by
  have hheld' : Held g (m.attempted.publish (.rollbackStarted t.id)) R t xs := { hheld with }
  obtain ⟨p, R', hexecute, hreverts⟩ := execute_run hheld' h hR hdry
  obtain ⟨r, m', R'', hfinal, halike, hrolled⟩ := finalize_run hheld' hreverts hdry
  have hkept : m.attempted.transaction? t.id = some t := hheld.kept
  refine ⟨r, m', R'', ?_, halike, { hrolled with }⟩
  simp only [Manager.rollback, hkept, run_bind, hexecute, hfinal]

end Retrace
