import Retrace.Manager.Recording
import Retrace.Proofs.Documents

/-!
What recording leaves behind. An operation that was added is at the end of the transaction under way
and its backup is there (`add_ok`); a transaction that was completed and is still kept has kept its
backups (`complete_ok`).
-/
namespace Retrace.Manager

open FileSystem Retrace.Path Script

variable {m m' : Manager} {g : Grounds} {fs fs' : FileSystem} {id : String} {now : Instant}
  {kind : Operation.Kind} {p : Path} {details : Operation.Details} {t : Transaction}

theorem looks_previousBytes (p : Path) (content : Option String) : Looks (previousBytes p content) := by
  cases content with
  | none => exact Files.looks_snapshot p
  | some content => exact Looks.pure _

structure Added (m : Manager) (fs : FileSystem) (id : String) (now : Instant) (kind : Operation.Kind)
    (p : Path) (details : Operation.Details) (t : Transaction) (previous : Option Bytes)
    (m' : Manager) (fs' : FileSystem) : Prop where
  current : m.current = some t
  found : ((previousBytes (m.root.normalize p) details.previousContent).run fs).1 = .ok previous
  backedUp : (m.backUp (m.operationOf id now kind p details previous) previous).run fs = (.ok (), fs')
  appended : m' = m.append t (m.operationOf id now kind p details previous)

theorem add_ok {r : String} (h : (m.add id now kind p details).run fs = ((.ok r, m'), fs')) :
    r = id ∧ ∃ t previous, Added m fs id now kind p details t previous m' fs' := by
  rw [add] at h
  cases hc : m.current with
  | none => simp [hc] at h
  | some t =>
    simp only [hc] at h
    split at h
    · simp at h
    · rw [run_bind, (looks_previousBytes _ _).run fs] at h
      cases hp : ((previousBytes (m.root.normalize p) details.previousContent).run fs).1 with
      | error e => simp [hp] at h
      | ok previous =>
        simp only [hp, run_bind] at h
        cases hb : (m.backUp (m.operationOf id now kind p details previous) previous).run fs with
        | mk r fs₁ =>
          simp only [hb] at h
          cases r with
          | error e => simp at h
          | ok u =>
            simp only [run_pure, Prod.mk.injEq, Except.ok.injEq] at h
            obtain ⟨⟨hid, rfl⟩, rfl⟩ := h
            exact ⟨hid.symm, t, previous, hc, hp, hb, rfl⟩

theorem requiresBackup_operationOf {previous : Option Bytes} :
    (m.operationOf id now kind p details previous).requiresBackup =
      (kind.needsBackup && previous.any (· ≠ [])) := by
  cases previous with
  | none => simp [Operation.requiresBackup, operationOf]
  | some b => simp [Operation.requiresBackup, operationOf, Utf8.lossy_eq_empty_iff]

/-- The backup that an operation needs is written, and nothing else. -/
theorem Added.backed {previous : Option Bytes} (h : Added m fs id now kind p details t previous m' fs')
    (hk : Keeps g m.store fs) (hid : Plain id) :
    ((m.operationOf id now kind p details previous).requiresBackup = false ∧ fs' = fs) ∨
      ∃ b, previous = some b ∧ (m.operationOf id now kind p details previous).requiresBackup = true ∧
        Edit fs (backupName id :: g.backups) (some (.file 0o600 b)) fs' ∧
        Aims fs m.store.backupsDirectory g.backups (backupName id) := by
  have hb := h.backedUp
  cases previous with
  | none =>
    simp only [backUp, run_pure, Prod.mk.injEq, true_and] at hb
    exact .inl ⟨by simp [requiresBackup_operationOf], hb.symm⟩
  | some b =>
    simp only [backUp] at hb
    split at hb
    · next hreq =>
      have hmeets : Meets (m.backups.write id b) fs _ _ := write_meets hk hid
      have hid' : (m.operationOf id now kind p details (some b)).id = id := rfl
      rw [hid'] at hb
      have hresult := hmeets.result
      rw [hb] at hresult
      rcases hresult with ⟨-, hedit, -, haims⟩ | ⟨⟨e, he⟩, -⟩
      · exact .inr ⟨b, rfl, hreq, hedit, haims⟩
      · cases he
    · next hreq =>
      simp only [run_pure, Prod.mk.injEq, true_and] at hb
      exact .inl ⟨by simpa using hreq, hb.symm⟩

/-! ### Letting go -/

/-- The ids of what a manager keeps make names of files. -/
structure PlainIds (m : Manager) : Prop where
  transaction : ∀ id t, m.transaction? id = some t → Plain id
  operation : ∀ id t, m.transaction? id = some t → ∀ op ∈ t.operations, Plain op.id

/-- Some transactions have gone with their documents and backups; all others are as they were. -/
structure Pruned (g : Grounds) (m : Manager) (fs : FileSystem) (m' : Manager) (fs' : FileSystem) :
    Prop where
  tended : Tended g fs fs'
  manager : m' = { m with history := m'.history }
  kept : ∀ id t, m'.transaction? id = some t → m.transaction? id = some t
  documents : ∀ w, fs'.at (w :: g.transactions) = fs.at (w :: g.transactions) ∨
    ∃ id, w = documentName id
  backups : ∀ w, fs'.at (w :: g.backups) = fs.at (w :: g.backups) ∨
    ∃ id t op, m.transaction? id = some t ∧ m'.transaction? id = none ∧ op ∈ t.operations ∧
      w = backupName op.id

theorem Pruned.refl (hk : Keeps g m.store fs) : Pruned g m fs m fs where
  tended := Tended.refl hk
  manager := rfl
  kept _ _ h := h
  documents _ := .inl rfl
  backups _ := .inl rfl

theorem Pruned.trans {m'' : Manager} {fs'' : FileSystem} (h : Pruned g m fs m' fs')
    (h' : Pruned g m' fs' m'' fs'') : Pruned g m fs m'' fs'' where
  tended := h.tended.trans h'.tended
  manager := by rw [h'.manager, h.manager]
  kept id t ht := h.kept id t (h'.kept id t ht)
  documents w := by
    rcases h'.documents w with hw | hw
    · rw [hw]; exact h.documents w
    · exact .inr hw
  backups w := by
    rcases h'.backups w with hw | ⟨id, t, op, ht, hnone, hop, hw⟩
    · rw [hw]
      rcases h.backups w with hw | ⟨id, t, op, ht, hnone, hop, hw⟩
      · exact .inl hw
      · refine .inr ⟨id, t, op, ht, ?_, hop, hw⟩
        cases hx : m''.transaction? id with
        | none => rfl
        | some u =>
          have := h'.kept id u hx
          rw [hnone] at this
          cases this
    · exact .inr ⟨id, t, op, h.kept id t ht, hnone, hop, hw⟩

theorem transaction?_remove (m : Manager) (id j : String) :
    ({ m with history := m.history.remove id } : Manager).transaction? j =
      if j = id then none else m.transaction? j := Index.get?_remove _ _ _

theorem purge_cases (hk : Keeps g m.store fs) (hp : PlainIds m) (id : String) :
    ((m.purge id).run fs).1.2 = m ∧ ((m.purge id).run fs).2 = fs ∨
      ∃ t fs₁, m.transaction? id = some t ∧ Shed g.transactions [documentName id] fs fs₁ ∧
        fs₁.at (documentName id :: g.transactions) = none ∧
        (m.purge id).run fs = ((.ok (), { m with history := m.history.remove id }),
          ((m.backups.removeFor t).run fs₁).2) := by
  rw [purge]
  cases ht : m.transaction? id with
  | none => exact .inl ⟨rfl, rfl⟩
  | some t =>
    have hresult := (deleteTransaction_meets hk (hp.transaction id t ht)).result
    simp only [run_bind]
    rcases hresult with ⟨hr, hedit⟩ | ⟨hr, hfs, hnone⟩ | ⟨⟨e, hr⟩, hfs⟩
    · rw [hr]
      exact .inr ⟨t, _, rfl, Shed.of_edit hedit (by simp), hedit.at_self,
        by simp only [run_bind, run_pure]⟩
    · rw [hr, hfs]
      exact .inr ⟨t, fs, rfl, Shed.refl hk.sound _ _, hnone, by simp only [run_bind, run_pure]⟩
    · rw [hr, hfs]
      exact .inl ⟨rfl, rfl⟩

theorem purge_pruned (hk : Keeps g m.store fs) (hp : PlainIds m) (id : String) :
    Pruned g m fs ((m.purge id).run fs).1.2 ((m.purge id).run fs).2 := by
  rcases purge_cases hk hp id with ⟨hm, hfs⟩ | ⟨t, fs₁, ht, hshed, -, hrun⟩
  · rw [hm, hfs]
    exact Pruned.refl hk
  rw [hrun]
  have hk₁ := (hshed.tended hk (by simp [Grounds.folders])).keeps hk
  have hshed' := (removeEach_meets hk₁ (hp.operation id t ht)).result
  have htb := hk.transactions_ne_backups
  refine
    { tended := (hshed.tended hk (by simp [Grounds.folders])).trans
        (hshed'.tended hk₁ (by simp [Grounds.folders]))
      manager := rfl
      kept := fun j u hu => ?_
      documents := fun w => ?_
      backups := fun w => ?_ }
  · rw [transaction?_remove] at hu
    split at hu
    · cases hu
    · exact hu
  · rcases hshed'.at_eq (w :: g.transactions) with h | ⟨-, v, -, hv⟩
    · rcases hshed.at_eq (w :: g.transactions) with h' | ⟨-, v, hv, hv'⟩
      · exact .inl (h.trans h')
      · refine .inr ⟨id, ?_⟩
        rw [List.mem_singleton.1 hv] at hv'
        exact (List.cons.inj hv').1
    · exact absurd (List.cons.inj hv).2 htb
  · rcases hshed'.at_eq (w :: g.backups) with h | ⟨-, v, hv, hv'⟩
    · rcases hshed.at_eq (w :: g.backups) with h' | ⟨-, v, -, hv⟩
      · exact .inl (h.trans h')
      · exact absurd (List.cons.inj hv).2.symm htb
    · obtain ⟨op, hop, rfl⟩ := List.mem_map.1 hv
      refine .inr ⟨id, t, op, ht, ?_, hop, (List.cons.inj hv').1⟩
      rw [transaction?_remove, if_pos rfl]

theorem Pruned.plainIds (h : Pruned g m fs m' fs') (hp : PlainIds m) : PlainIds m' where
  transaction id t ht := hp.transaction id t (h.kept id t ht)
  operation id t ht := hp.operation id t (h.kept id t ht)

theorem purgeEach_pruned (hk : Keeps g m.store fs) (hp : PlainIds m) (ids : List String) :
    Pruned g m fs ((m.purgeEach ids).run fs).1.2 ((m.purgeEach ids).run fs).2 := by
  induction ids generalizing m fs with
  | nil => exact Pruned.refl hk
  | cons id ids ih =>
    have hfirst := purge_pruned hk hp id
    have hstore : ((m.purge id).run fs).1.2.store = m.store := by rw [hfirst.manager]
    have hk' : Keeps g ((m.purge id).run fs).1.2.store ((m.purge id).run fs).2 :=
      hstore ▸ hfirst.tended.keeps hk
    have hrest := ih hk' (hfirst.plainIds hp)
    simp only [purgeEach, run_bind, run_pure]
    exact hfirst.trans hrest

theorem enforceLimit_pruned (hk : Keeps g m.store fs) (hp : PlainIds m) :
    Pruned g m fs (m.enforceLimit.run fs).1 (m.enforceLimit.run fs).2 := by
  simp only [enforceLimit, run_bind, run_pure]
  exact purgeEach_pruned hk hp _

/-! ### Aborting -/

theorem abort_ok (h : m.abort.run fs = ((.ok t, m'), fs')) :
    m.current = some t ∧ m' = { m with current := none } ∧ ∃ gone fs₁ n,
      (m.store.deleteTransaction t.id).run fs = (.ok gone, fs₁) ∧
      (m.backups.removeFor t).run fs₁ = (n, fs') := by
  rw [abort] at h
  cases hc : m.current with
  | none => simp [hc] at h
  | some u =>
    simp only [hc, run_bind] at h
    generalize hdelete : (m.store.deleteTransaction u.id).run fs = out at h
    obtain ⟨r, fs₁⟩ := out
    cases r with
    | error e => simp at h
    | ok gone =>
      simp only [run_bind, run_pure, Prod.mk.injEq, Except.ok.injEq] at h
      obtain ⟨⟨rfl, rfl⟩, rfl⟩ := h
      exact ⟨rfl, rfl, gone, fs₁, _, hdelete, rfl⟩

/-! ### Completing -/

structure Completed (g : Grounds) (m : Manager) (fs : FileSystem) (t : Transaction) (text : String)
    (fs₁ : FileSystem) (m' : Manager) (fs' : FileSystem) : Prop where
  current : m.current = some t
  written : { t with status := .completed }.toText? = some text
  saved : Edit fs (documentName t.id :: g.transactions) (some (.file 0o600 (Utf8.encode text))) fs₁
  room : Room fs m.store.transactionsDirectory g.transactions
  aims : Aims fs m.store.transactionsDirectory g.transactions (documentName t.id)
  pruned : Pruned g (m.keep { t with status := .completed }) fs₁ m' fs'

theorem transaction?_keep (m : Manager) (t : Transaction) (id : String) :
    (m.keep t).transaction? id = if id = t.id then some t else m.transaction? id :=
  Index.get?_put _ _ _ _

theorem PlainIds.keep (hp : PlainIds m) (ht : Plain t.id) (hops : ∀ op ∈ t.operations, Plain op.id) :
    PlainIds (m.keep t) where
  transaction id u hu := by
    rw [transaction?_keep] at hu
    split at hu
    · next h => rw [h]; exact ht
    · exact hp.transaction id u hu
  operation id u hu := by
    rw [transaction?_keep] at hu
    split at hu
    · cases hu; exact hops
    · exact hp.operation id u hu

theorem complete_ok {r : String} (h : m.complete.run fs = ((.ok r, m'), fs')) (hk : Keeps g m.store fs)
    (hp : PlainIds m) (hc : m.current = some t) (ht : Plain t.id)
    (hops : ∀ op ∈ t.operations, Plain op.id) :
    r = t.id ∧ ∃ text fs₁ m₁, Completed g m fs t text fs₁ m₁ fs' ∧
      m' = m₁.publish (.transactionCompleted t.id t.operations.length) := by
  simp only [complete, hc, run_bind] at h
  cases htext : { t with status := .completed }.toText? with
  | none => simp [Store.saveTransaction, Store.save, htext] at h
  | some text =>
    have hsave := saveTransaction_meets (t := { t with status := .completed }) hk ht htext
    rcases hsave.result with ⟨hr, hedit, hroom, haims⟩ | ⟨⟨e, hr⟩, -⟩
    · rw [hr] at h
      simp only [run_bind, run_pure, Prod.mk.injEq, Except.ok.injEq] at h
      obtain ⟨⟨rfl, rfl⟩, rfl⟩ := h
      have htended := hk.tended_edit (by simp [Grounds.folders]) (by simp) hedit
      exact ⟨rfl, text, _, _,
        { current := hc, written := htext, saved := hedit, room := hroom, aims := haims
          pruned := enforceLimit_pruned (htended.keeps hk) (hp.keep ht hops) }, rfl⟩
    · rw [hr] at h
      simp at h

end Retrace.Manager
