import Retrace.Proofs.DryRun
import Retrace.Proofs.Reckoning
import Retrace.Proofs.FileSystem.Thinned

/-!
Switches of a rollback. Force and the check of digests are asked for at the gate, where content is put
back from a backup and where an entry is moved back; a run without force and with the check that
succeeds gets the same answer at each of them as any other, so the two go in step
(`Rollback.Handles.in_step`). Keeping the backups leaves out what comes last (`Swept`).
-/
namespace Retrace

open FileSystem Script
open Rollback (Options Result Pending Handled Handles Outcome)

/-! ### Looking at backups -/

section

variable {b : Backups} {fs : FileSystem} {op : Operation} {verify : Bool}

theorem LacksBackup.checked (h : LacksBackup b verify fs op) : LacksBackup b true fs op :=
  ⟨h.1, h.2.1, h.2.2.imp_right fun ⟨_, hsum⟩ => ⟨rfl, hsum⟩⟩

theorem Backups.inspect_notRequired :
    ((b.inspect verify op).run fs).1 = .notRequired ↔ op.requiresBackup = false := by
  rw [Backups.inspect.eq_def]
  cases op.requiresBackup with
  | false => simp
  | true =>
    simp only [Bool.not_true, Bool.false_eq_true, if_false, reduceCtorEq, iff_false]
    split
    · rw [run_bind]
      split
      · rw [run_pure]
        split <;> simp
      · simp
      · simp
    · rw [run_bind]
      split <;> simp

theorem Backups.inspect_of_not_lacks (h : ¬LacksBackup b verify fs op) :
    (b.inspect verify op).run fs = (if op.requiresBackup then .intact else .notRequired, fs) := by
  obtain ⟨c, hrun, hbad⟩ := b.inspect_eq verify op fs
  have hreq : ((b.inspect verify op).run fs).1 = .notRequired ↔ op.requiresBackup = false :=
    inspect_notRequired
  rw [hrun] at hreq
  rw [hrun]
  have hgood := mt hbad.1 h
  cases c <;> simp_all

theorem Preview.assess_unlacked (h : ¬LacksBackup b true fs op) (verify : Bool) :
    (assess b verify op).run fs = (assess b true op).run fs := by
  have hinspect : (b.inspect verify op).run fs = (b.inspect true op).run fs := by
    rw [Backups.inspect_of_not_lacks h, Backups.inspect_of_not_lacks fun hl => h hl.checked]
  rw [assess, assess]
  cases op.kind with
  | update | delete => simp only [run_bind, hinspect]
  | _ => rfl

theorem Preview.ofTransaction_unlacked {t : Transaction}
    (h : ∀ op ∈ t.operations, ¬LacksBackup b true fs op) (verify : Bool) :
    (ofTransaction b verify t).run fs = (ofTransaction b true t).run fs := by
  have heach : ∀ ops, (∀ op ∈ ops, ¬LacksBackup b true fs op) →
      (assessEach b verify ops).run fs = (assessEach b true ops).run fs := by
    intro ops hops
    induction ops with
    | nil => rfl
    | cons op ops ih =>
      have hop := hops op List.mem_cons_self
      obtain ⟨a, ha, -⟩ := assess_eq b true op fs
      simp only [assessEach, run_bind, assess_unlacked hop verify, ha,
        ih fun op hop => hops op (List.mem_cons_of_mem _ hop)]
  rw [ofTransaction, ofTransaction, run_bind, run_bind,
    heach t.reversed fun op hop => h op (List.mem_reverse.1 hop)]

end

/-! ### Runs in step -/

namespace Rollback

variable {b : Backups} {op : Operation} {fs fs' : FileSystem} {a : Attempt} {hs : List Handled}

theorem isDamaged_of_checked {content : Bytes} (h : isDamaged true op content = false) (verify : Bool) :
    isDamaged verify op content = false := by
  rw [isDamaged, Bool.true_and] at h
  rw [isDamaged, h, Bool.and_false]

theorem restoreBackup_in_step (hrun : (restoreBackup b true false op).run fs = (a, fs'))
    (hclean : a.error? = none) (verify force : Bool) :
    (restoreBackup b verify force op).run fs = (a, fs') := by
  rw [restoreBackup, run_bind, b.read_eq] at hrun ⊢
  cases hread : fs.read (b.pathFor op.id) with
  | error e =>
    rw [hread] at hrun
    cases hnf : e.isNotFound <;> simpa only [hnf, Bool.false_eq_true, if_false, if_true] using hrun
  | ok content =>
    rw [hread] at hrun
    dsimp only at hrun ⊢
    cases hdamaged : isDamaged true op content with
    | true =>
      rw [hdamaged] at hrun
      obtain ⟨rfl, -⟩ := Prod.mk.inj hrun
      cases hclean
    | false =>
      rw [isDamaged_of_checked hdamaged]
      rwa [hdamaged] at hrun

theorem moveBack_in_step (hrun : (moveBack false op).run fs = (a, fs')) (hclean : a.error? = none)
    (force : Bool) : (moveBack force op).run fs = (a, fs') := by
  rw [moveBack] at hrun ⊢
  cases hformer : op.previousPath with
  | none =>
    rw [hformer] at hrun
    exact hrun
  | some former =>
    rw [hformer] at hrun
    simp only [run_bind, Files.present_run] at hrun ⊢
    split at hrun
    · next hmoved =>
      rw [if_pos hmoved]
      exact hrun
    · next hmoved =>
      rw [if_neg hmoved]
      cases hback : (fs.linkStatus former).isOk with
      | true =>
        simp only [hback, Bool.not_false, Bool.and_self, if_true] at hrun
        obtain ⟨rfl, -⟩ := Prod.mk.inj hrun
        cases hclean
      | false => simpa [hback] using hrun

theorem revert_in_step (hrun : (revert b true false op).run fs = (a, fs')) (hclean : a.error? = none)
    (verify force : Bool) : (revert b verify force op).run fs = (a, fs') := by
  cases hreq : op.requiresBackup with
  | true =>
    rw [revert_of_requiresBackup b _ _ hreq] at hrun ⊢
    exact restoreBackup_in_step hrun hclean verify force
  | false =>
    rw [revert] at hrun ⊢
    cases hkind : op.kind with
    | update | delete => simpa [hkind, hreq] using hrun
    | move =>
      rw [hkind] at hrun
      exact moveBack_in_step hrun hclean force
    | _ =>
      rw [hkind] at hrun
      exact hrun

/-- Operations that are handled without force and with the check, none of which fails, are handled so
anyway. -/
theorem Handles.in_step (h : Handles b true false fs hs fs') (hclean : ∀ x ∈ hs, x.attempt.error? = none)
    (verify force : Bool) : Handles b verify force fs hs fs' := by
  induction h with
  | nil fs => exact .nil fs
  | cons head rest ih =>
    exact .cons (revert_in_step head (hclean _ List.mem_cons_self) verify force)
      (ih fun x hx => hclean x (List.mem_cons_of_mem _ hx))

theorem revertAll_errorless {verify : Bool} {options : Options} {t : Transaction}
    (hdry : options.dryRun = false) (hnone : ((revertAll b verify options t).run fs).1.errors = []) :
    ∃ hs, Handles b verify options.force fs hs ((revertAll b verify options t).run fs).2 ∧
      ((revertAll b verify options t).run fs).1.Tallies hs ∧ hs.map (·.operation) = t.reversed ∧
      ∀ x ∈ hs, x.attempt.error? = none := by
  obtain ⟨hs, hhandles, htally, hextent⟩ := revertAll_handled hdry b verify t fs
  have hclean : ∀ x ∈ hs, x.attempt.error? = none := fun x hx => by
    have := List.filterMap_eq_nil_iff.1 (htally.errors.symm.trans hnone) x hx
    simpa [Handled.complaint?] using this
  refine ⟨hs, hhandles, htally, ?_, hclean⟩
  cases hextent with
  | whole all => exact all
  | @stopped init last rest e unforced split order clean failed =>
    have := hclean last (by simp [split])
    rw [failed] at this
    cases this

theorem Handles.consumed_eq {verify force : Bool} {o : Outcome} (h : Handles b verify force fs hs fs')
    (ht : o.Tallies hs) (hclean : ∀ x ∈ hs, x.attempt.error? = none) :
    o.consumedBackups = ((hs.map (·.operation)).filter (·.requiresBackup)).map (·.id) := by
  have hrestored : ∀ x ∈ hs, x.restored = x.operation.requiresBackup := by
    intro x hx
    have hrun := h.run hx
    have hused := (revert_consumed b verify force x.operation x.before).2
    rw [hrun] at hused
    have hno : ∀ e, x.attempt.verdict ≠ .error e := fun e he => by
      have := hclean x hx
      rw [Attempt.error?, he] at this
      cases this
    rw [Handled.restored, ← consumed_revert hrun]
    cases hreq : x.operation.requiresBackup with
    | true => exact hused hreq hno
    | false => rw [consumed_revert hrun, hreq, Bool.false_and]
  rw [ht.consumed, List.filter_congr hrestored, List.filter_map, List.map_map]
  rfl

theorem revertAll_in_step {options : Options} {t : Transaction} (hdry : options.dryRun = false)
    (hforce : options.force = false)
    (hnone : ((revertAll b true options t).run fs).1.errors = []) (verify force : Bool) :
    (revertAll b verify { options with force } t).run fs = (revertAll b true options t).run fs := by
  obtain ⟨hs, hhandles, -, hops, hclean⟩ := revertAll_errorless hdry hnone
  have hplain := hhandles.revertEach_clean hdry hclean {} []
  rw [hforce] at hhandles
  have hstep : Handles b verify ({ options with force } : Options).force fs hs _ :=
    hhandles.in_step hclean verify force
  have hswitched := hstep.revertEach_clean hdry hclean {} []
  rw [hops, List.append_nil] at hplain hswitched
  exact hswitched.trans hplain.symm

end Rollback
/-! ### Backups that are let go -/

/-- The backups of some operations were removed one after the other: one that can be removed, or is not
there, is not there afterwards and nothing else has changed; of one that cannot be removed a warning is
given. -/
inductive Swept (b : Backups) : FileSystem → List String → List String → FileSystem → Prop
  | nil (fs : FileSystem) : Swept b fs [] [] fs
  | gone {fs fs₁ fs' : FileSystem} {id : String} {ids warnings : List String}
    (free : fs.stuck (b.pathFor id) = false)
    (gone : ∀ k, fs₁.at k = if fs.spot? (b.pathFor id) = some k then none else fs.at k)
    (rest : Swept b fs₁ ids warnings fs') : Swept b fs (id :: ids) warnings fs'
  | left {fs fs' : FileSystem} {id : String} {ids warnings : List String} {e : OsError}
    (stuck : fs.stuck (b.pathFor id) = true) (error : fs.removeFile (b.pathFor id) = .error e)
    (rest : Swept b fs ids warnings fs') :
    Swept b fs (id :: ids) (("Failed to remove backup " ++ id ++ ": " ++ (Error.io e).message) :: warnings)
      fs'

namespace Manager

variable {m : Manager} {fs fs' : FileSystem} {options : Options} {t : Transaction} {now : Instant}
  {p : Pending}

theorem removeBackups_swept (b : Backups) (ids : List String) (fs : FileSystem) :
    Swept b fs ids ((removeBackups b ids).run fs).1 ((removeBackups b ids).run fs).2 := by
  induction ids generalizing fs with
  | nil => exact .nil fs
  | cons id ids ih =>
    rw [removeBackups, run_bind, Backups.remove, Files.removeIfPresent_eq]
    cases hremove : fs.removeFile (b.pathFor id) with
    | ok fs₁ =>
      obtain ⟨a, w, e, ha, hw, -, -, rfl⟩ := removeFile_inv hremove
      have hspot := spot?_of_approach ha hw
      simp only [run_bind, run_pure]
      refine .gone (by rw [stuck, hremove]) (fun k => ?_) (ih _)
      rw [at_erase fs _ k (List.cons_ne_nil _ _), hspot]
      simp [eq_comm]
    | error e =>
      cases hnf : e.isNotFound with
      | true =>
        simp only [hnf, if_true, run_bind, run_pure]
        refine .gone (by rw [stuck, hremove]; simp [hnf]) (fun k => ?_) (ih fs)
        split
        · next hk => exact none_of_removeFile hremove hnf hk
        · rfl
      | false =>
        simp only [hnf, Bool.false_eq_true, if_false, run_bind, run_pure]
        exact .left (by rw [stuck, hremove]; simp [hnf]) hremove (ih fs)

/-! ### Rolling back in step -/

/-- The manager where backups are checked, or are not. -/
def verifying (m : Manager) (verify : Bool) : Manager := { m with settings.verifyChecksums := verify }

theorem proceeds_of_errorless (hstatus : t.status = .completed)
    (hnone : ((m.execute options t).run fs).1.result.errors = []) : m.Proceeds fs options t := by
  refine ⟨hstatus, ?_⟩
  by_contra hno
  have hblocked : (!((m.previewOf t).run fs).1.canProceed && !options.force) = true := by
    simpa using hno
  simp only [execute, hstatus, run_bind, hblocked, if_true, run_pure] at hnone
  exact List.cons_ne_nil _ _ hnone

/-- What is done without force and with the check, and reports no error, is done so anyway. -/
theorem execute_in_step (hstatus : t.status = .completed) (hverify : m.settings.verifyChecksums = true)
    (hforce : options.force = false) (hdry : options.dryRun = false)
    (hnone : ((m.execute options t).run fs).1.result.errors = []) (verify force : Bool) :
    ((m.verifying verify).execute { options with force } t).run fs = (m.execute options t).run fs := by
  have hgo := proceeds_of_errorless hstatus hnone
  have hcan : ((m.previewOf t).run fs).1.canProceed = true :=
    hgo.2.resolve_right (by simp [hforce])
  obtain ⟨p, hp, hreports⟩ := m.previewOf_eq t fs
  have hunlacked : ∀ op ∈ t.operations, ¬LacksBackup m.backups true fs op := fun op hop hlacks => by
    rw [hp] at hcan
    rw [hverify] at hreports
    rw [hreports.blocked.2 ⟨op, hop, hlacks⟩] at hcan
    cases hcan
  have hpreview : ((m.verifying verify).previewOf t).run fs = (m.previewOf t).run fs := by
    rw [previewOf, previewOf, hverify]
    exact Preview.ofTransaction_unlacked hunlacked verify
  have hgo' : (m.verifying verify).Proceeds fs { options with force } t :=
    ⟨hstatus, .inl (by rw [hpreview, hcan])⟩
  rw [execute_of_proceeds hgo] at hnone ⊢
  rw [execute_of_proceeds hgo', hpreview]
  rw [hverify] at hnone ⊢
  have hrun := Rollback.revertAll_in_step hdry hforce hnone verify force
  have hsame : (Rollback.revertAll (m.verifying verify).backups
      (m.verifying verify).settings.verifyChecksums { options with force } t).run fs =
        (Rollback.revertAll m.backups true options t).run fs := hrun
  rw [hsame]

theorem markRolledBack_verifying (m : Manager) (now : Instant) (id : String) (fs : FileSystem)
    (verify : Bool) : ((m.verifying verify).markRolledBack now id).run fs =
      let out := (m.markRolledBack now id).run fs
      ((out.1.1, out.1.2.verifying verify), out.2) := by
  have hkept : (m.verifying verify).transaction? id = m.transaction? id := rfl
  have hstore : (m.verifying verify).store = m.store := rfl
  rw [markRolledBack, markRolledBack, hkept]
  cases m.transaction? id with
  | none => rfl
  | some t =>
    simp only [run_bind, hstore]
    generalize (m.store.saveTransaction _).run fs = out
    obtain ⟨r, fs₁⟩ := out
    cases r <;> rfl

theorem finalize_verifying (m : Manager) (now : Instant) (options : Options) (p : Pending)
    (fs : FileSystem) (verify force : Bool) :
    ((m.verifying verify).finalize now { options with force } p).run fs =
      let out := (m.finalize now options p).run fs
      ((out.1.1, out.1.2.verifying verify), out.2) := by
  rw [finalize, finalize]
  by_cases hquiet : (p.result.success || !p.result.errors.isEmpty || options.dryRun) = true
  · rw [if_pos hquiet, if_pos hquiet]
    rfl
  · rw [if_neg hquiet, if_neg hquiet, run_bind, run_bind, markRolledBack_verifying]
    generalize (m.markRolledBack now p.result.transactionId).run fs = out
    obtain ⟨⟨marked, m₁⟩, fs₁⟩ := out
    cases marked with
    | error e => rfl
    | ok u =>
      dsimp only
      split
      · rfl
      · rw [run_bind, run_bind]
        rfl

theorem finalize_errorless (h : ((m.finalize now options p).run fs).1.1.success = true) :
    p.result.errors = [] := by
  rw [finalize] at h
  split at h
  · exact List.isEmpty_iff.1 h
  · next hgo =>
    simp only [Bool.or_eq_true, not_or, Bool.not_eq_true, Bool.not_eq_false'] at hgo
    exact List.isEmpty_iff.1 hgo.1.2

theorem rollback_in_step {id : String} (ht : m.transaction? id = some t) (hstatus : t.status = .completed)
    (hverify : m.settings.verifyChecksums = true) (hforce : options.force = false)
    (hdry : options.dryRun = false)
    (hsuccess : ((m.rollback now options id).run fs).1.1.success = true) (verify force : Bool) :
    ((m.verifying verify).rollback now { options with force } id).run fs =
      let out := (m.rollback now options id).run fs
      ((out.1.1, out.1.2.verifying verify), out.2) := by
  have ht' : (m.verifying verify).transaction? id = some t := ht
  rw [rollback_some ht, run_bind] at hsuccess
  rw [rollback_some ht, rollback_some ht', run_bind, run_bind,
    execute_in_step hstatus hverify hforce hdry (finalize_errorless hsuccess) verify force]
  exact finalize_verifying (m.announcing t) now options _ _ verify force

/-! ### Keeping the backups -/

theorem execute_keeping (m : Manager) (options : Options) (t : Transaction) (keep : Bool) :
    m.execute { options with preserveBackups := keep } t = m.execute options t := by
  have hrevert : ∀ o ops, Rollback.revertEach m.backups m.settings.verifyChecksums
      { options with preserveBackups := keep } o ops =
        Rollback.revertEach m.backups m.settings.verifyChecksums options o ops := by
    intro o ops
    induction ops generalizing o with
    | nil => rfl
    | cons op ops ih =>
      rw [Rollback.revertEach, Rollback.revertEach]
      simp only [ih]
  simp only [execute, Rollback.revertAll, hrevert]

theorem markRolledBack_backups (m : Manager) (now : Instant) (id : String) (fs : FileSystem) :
    ((m.markRolledBack now id).run fs).1.2.backups = m.backups := by
  rw [markRolledBack]
  split
  · rfl
  · rw [run_bind]
    split <;> rfl

/-- Where a rollback is recorded and the backups are not kept, what comes last is that those which were
used are removed. -/
theorem finalize_swept (hopen : p.result.success = false) (hdry : options.dryRun = false)
    (hsuccess : ((m.finalize now options p).run fs).1.1.success = true) :
    let kept := (m.finalize now { options with preserveBackups := true } p).run fs
    let swept := (m.finalize now { options with preserveBackups := false } p).run fs
    kept.1.1.success = true ∧ ∃ warnings,
      swept.1.1 = { kept.1.1 with warnings := kept.1.1.warnings ++ warnings } ∧
        swept.1.2 = kept.1.2 ∧ Swept m.backups kept.2 p.consumedBackups warnings swept.2 := by
  have herrors := finalize_errorless hsuccess
  have hgo : ¬(p.result.success || !p.result.errors.isEmpty || options.dryRun) = true := by
    simp [hopen, hdry, herrors]
  have hbackups := markRolledBack_backups m now p.result.transactionId fs
  rw [finalize, if_neg hgo, run_bind] at hsuccess
  rw [finalize, finalize, if_neg hgo, if_neg hgo, run_bind, run_bind]
  generalize (m.markRolledBack now p.result.transactionId).run fs = out at hsuccess hbackups ⊢
  obtain ⟨⟨marked, m₁⟩, fs₁⟩ := out
  cases marked with
  | error e => simp [settle_fst] at hsuccess
  | ok u =>
    dsimp only at hbackups ⊢
    rw [if_pos rfl, if_neg Bool.false_ne_true, hbackups, run_bind]
    exact ⟨by rw [run_pure, settle_fst, herrors]; rfl, _, rfl, rfl, removeBackups_swept _ _ _⟩

end Manager

/-- A rollback of a completed transaction that succeeds without force, while backups are checked, goes
the same with force or without the check: the result, what is kept and the tree are the same. Where the
backups that were used are not kept, the tree differs from the one where they are in that they have been
removed, those of the operations that need one, in the order in which these were reverted; there may be
warnings of backups that could not be removed, and the rest is the same. -/
theorem rollback_ignores_switches {m : Manager} {fs : FileSystem} {options : Options}
    {t : Transaction} {id : String} (now : Instant) (ht : m.transaction? id = some t)
    (hstatus : t.status = .completed) (hverify : m.settings.verifyChecksums = true)
    (hforce : options.force = false) (hdry : options.dryRun = false)
    (hsuccess : ((m.rollback now options id).run fs).1.1.success = true) :
    (∀ verify force, ((m.verifying verify).rollback now { options with force } id).run fs =
      let out := (m.rollback now options id).run fs
      ((out.1.1, out.1.2.verifying verify), out.2)) ∧
    let kept := (m.rollback now { options with preserveBackups := true } id).run fs
    let swept := (m.rollback now { options with preserveBackups := false } id).run fs
    kept.1.1.success = true ∧ ∃ warnings,
      swept.1.1 = { kept.1.1 with warnings := kept.1.1.warnings ++ warnings } ∧
        swept.1.2 = kept.1.2 ∧
        Swept m.backups kept.2 ((t.operations.reverse.filter (·.requiresBackup)).map (·.id)) warnings
          swept.2 := by
  refine ⟨Manager.rollback_in_step ht hstatus hverify hforce hdry hsuccess, ?_⟩
  simp only [Manager.rollback_some ht, run_bind, Manager.execute_keeping] at hsuccess ⊢
  have hnone := Manager.finalize_errorless hsuccess
  have hgo := Manager.proceeds_of_errorless hstatus hnone
  rw [Manager.execute_of_proceeds hgo] at hsuccess hnone ⊢
  obtain ⟨hs, hhandles, htally, hops, hclean⟩ := Rollback.revertAll_errorless hdry hnone
  have hconsumed := hhandles.consumed_eq htally hclean
  rw [hops, Transaction.reversed] at hconsumed
  rw [← hconsumed]
  exact Manager.finalize_swept rfl hdry hsuccess

theorem rollback_ignores_switches_overwritten_and_moved :
    let m := Sample.completed.1.2
    let fs := Sample.completed.2
    let options : Options := {}
    (∀ verify force, (((m.verifying verify).rollback ⟨1, 0⟩ { options with force } "t").run
        fs).1.1.success = true) ∧
      ∃ warnings, Swept m.backups
        ((m.rollback ⟨1, 0⟩ { options with preserveBackups := true } "t").run fs).2 ["o"] warnings
        ((m.rollback ⟨1, 0⟩ { options with preserveBackups := false } "t").run fs).2 := by
  have hsome : (Sample.completed.1.2.transaction? "t").isSome = true := by decide +kernel
  have hstatus : ((Sample.completed.1.2.transaction? "t").map fun t =>
      (t.status, (t.operations.reverse.filter (·.requiresBackup)).map (·.id))) =
        some (.completed, ["o"]) := by decide +kernel
  have hverify : Sample.completed.1.2.settings.verifyChecksums = true := by decide +kernel
  have hsuccess : ((Sample.completed.1.2.rollback ⟨1, 0⟩ {} "t").run
      Sample.completed.2).1.1.success = true := by decide +kernel
  obtain ⟨t, ht⟩ := Option.isSome_iff_exists.1 hsome
  rw [ht, Option.map_some, Option.some.injEq, Prod.mk.injEq] at hstatus
  generalize Sample.completed = completed at ht hverify hsuccess ⊢
  obtain ⟨hsame, -, warnings, -, -, hswept⟩ :=
    rollback_ignores_switches ⟨1, 0⟩ ht hstatus.1 hverify rfl rfl hsuccess
  rw [hstatus.2] at hswept
  exact ⟨fun verify force => by rw [hsame verify force]; exact hsuccess, warnings, hswept⟩

end Retrace
