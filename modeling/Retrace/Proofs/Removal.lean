import Retrace.Proofs.Recording
import Retrace.Proofs.Rollback

/-!
Removals that do not fail. Where none does in the directories of a store, a file that could not be
written leaves nothing behind, and what is removed is gone.
-/
namespace Retrace

open FileSystem Retrace.Path Script

variable {g : Grounds} {s : Store} {fs fs' fs'' : FileSystem} {d k : Location} {f : Path} {w : Bytes}
  {content : Bytes} {id : String} {P : FileSystem → Prop}

/-- A call that is no failing removal of a file of a store. Removing what is not there does not count
as failing. -/
def Call.isSure (s : Store) (c : Call) (fs : FileSystem) : Bool :=
  match c with
  | .removeFile p =>
    !(s.directories.any fun f => p.parent? = some f) ||
      match fs.removeFile p with
      | .ok _ => true
      | .error e => e.isNotFound
  | _ => true

abbrev Sure (s : Store) (P : FileSystem → Prop) {α : Type} (x : Script α) (fs : FileSystem) : Prop :=
  Goes (fun c fs => c.isSure s fs = true) P x fs

theorem isNotFound_of_isSure (hf : f ∈ s.directories) (ht : f.Tidy) (hw : IsName w) {e : OsError}
    (h : Call.isSure s (.removeFile (f.join ⟨w⟩)) fs = true)
    (he : fs.removeFile (f.join ⟨w⟩) = .error e) : e.isNotFound = true := by
  simp only [Call.isSure, parent?_join_name ht hw, he, Option.some.injEq] at h
  have hany : (s.directories.any fun f' => decide (f = f')) = true :=
    List.any_eq_true.2 ⟨f, hf, by simp⟩
  simpa [hany] using h

namespace Files

variable {α β : Type} {x : Trial α} {y : α → Trial β} {Q : Except OsError α → FileSystem → Prop}
  {R : Except OsError β → FileSystem → Prop}

theorem sure_andThen (hx : Sure s P x.run fs → Q (x.run.run fs).1 (x.run.run fs).2)
    (hok : ∀ a fs', Q (.ok a) fs' → Sure s P (y a).run fs' →
      R ((y a).run.run fs').1 ((y a).run.run fs').2)
    (herr : ∀ e fs', Q (.error e) fs' → R (.error e) fs') (h : Sure s P (x >>= y).run fs) :
    R ((x >>= y).run.run fs).1 ((x >>= y).run.run fs).2 := by
  rw [ExceptT.run_bind] at h ⊢
  obtain ⟨h₁, h₂⟩ := h.bind
  have hQ := hx h₁
  rw [run_bind]
  generalize x.run.run fs = out at h₂ hQ
  obtain ⟨r, fs'⟩ := out
  cases r with
  | ok a => exact hok a fs' hQ h₂
  | error e => exact herr e fs' hQ

/-- A temporary file that is taken away is gone. -/
theorem discard_sure {n : Nat} {c : Bytes} (hf : f ∈ s.directories) (h : Firm fs f d)
    (hnew : fs.at (temporaryName n :: d) = none)
    (hedit : Edit fs (temporaryName n :: d) (some (.file 0o600 c)) fs')
    (hgo : Sure s P (Script.ask (.removeFile (f.join ⟨temporaryName n⟩))) fs') (k : Location) :
    ((Script.ask (.removeFile (f.join ⟨temporaryName n⟩))).run fs').2.at k = fs.at k := by
  have hlead := h fs' hedit.inside
  have hsure : ∀ e, fs'.removeFile (f.join ⟨temporaryName n⟩) = .error e → e.isNotFound = true :=
    fun e he => isNotFound_of_isSure hf hlead.tidy (isName_temporaryName n) hgo.ask he
  rw [run_ask, Call.perform]
  rcases hlead.aims_or_dead (isName_temporaryName n) with ha | hdead
  · have hremove := ha.removeFile
    rw [hedit.at_self] at hremove
    by_cases hy : fs'.yields d = true
    · have hgone : Edit fs (temporaryName n :: d) none (fs'.erase (temporaryName n :: d)) :=
        hedit.trans (Edit.erase hedit.sound (hedit.sound.none_in fun m => by simp [hedit.at_self]))
      simp only [hy, Entry.isDirectory, Bool.not_true, Bool.false_eq_true, if_false] at hremove
      rw [hremove, change_ok, hgone.at_eq]
      split
      · next hk => rw [hk, hnew]
      · rfl
    · simp only [hy] at hremove
      exact absurd (hsure _ (by simpa using hremove)) (by decide)
  · obtain ⟨e, he, hnf⟩ := hdead.removeFile
    simp [hsure e he] at hnf

/-- A file that could not be written has left nothing. -/
theorem writeAtomic_sure (hk : Keeps g s fs) (hd : d ∈ g.folders) (h : Firm fs f d)
    (hf : f ∈ s.directories) (hw : IsName w) (hgo : Sure s P (writeAtomic (f.join ⟨w⟩) content).run fs)
    {e : OsError} {fs' : FileSystem}
    (he : (writeAtomic (f.join ⟨w⟩) content).run.run fs = (.error e, fs')) (k : Location) :
    fs'.at k = fs.at k := by
  have hlead := h.leads
  suffices hall : ∀ e, ((writeAtomic (f.join ⟨w⟩) content).run.run fs).1 = .error e →
      ∀ k, ((writeAtomic (f.join ⟨w⟩) content).run.run fs).2.at k = fs.at k by
    rw [he] at hall
    exact hall e rfl k
  refine sure_andThen (R := fun r fs' => ∀ e, r = .error e → ∀ k, fs'.at k = fs.at k)
    (Q := fun r fs' => r = .ok (f.join ⟨w⟩) ∧ fs' = fs)
    (fun _ => ?_) ?_ (by rintro e fs' ⟨he, -⟩; cases he) hgo
  · have hrun := resolveLink_join hlead hw (hk.not_link hd w)
    have hlooks : Meets (resolveLink (f.join ⟨w⟩)) fs (fun _ => True) _ :=
      (looks_resolveLink (f.join ⟨w⟩)).meets trivial
    have := (meets_lift hlooks).result
    obtain ⟨_, ha, hfs, rfl⟩ := this
    rw [hrun] at ha
    exact ⟨ha, hfs⟩
  rintro target fs₁ ⟨ht, hfs⟩ hgo₁
  rw [Except.ok.inj ht] at hgo₁ ⊢
  subst hfs
  refine sure_andThen (Q := fun _ fs' => fs' = fs₁)
    (R := fun r fs' => ∀ e, r = .error e → ∀ k, fs'.at k = fs₁.at k)
    (fun _ => (ensureParent_meets hlead hw).result.1) ?_ (by rintro e fs' rfl e' - k; rfl) hgo₁
  rintro _ fs₂ hfs hgo₂
  subst hfs
  rw [directoryOf_join hlead.absolute hlead.tidy hw] at hgo₂ ⊢
  refine sure_andThen (Q := fun r fs' => r = .ok f ∧ fs' = fs₂)
    (R := fun r fs' => ∀ e, r = .error e → ∀ k, fs'.at k = fs₂.at k) (fun _ => ⟨rfl, rfl⟩) ?_
    (by rintro e fs' ⟨he, -⟩; cases he) hgo₂
  rintro a fs₃ ⟨ha, hfs⟩ hgo₃
  rw [Except.ok.inj ha] at hgo₃ ⊢
  subst hfs
  refine sure_andThen (Q := MadeTemporary fs₃ f d)
    (R := fun r fs' => ∀ e, r = .error e → ∀ k, fs'.at k = fs₃.at k)
    (fun _ => (makeTemporary_meets hk.sound hlead).result) ?_ ?_ hgo₃
  · intro a fs₄ hmade hgo₄
    rcases hmade with ⟨n, hn, hnext, hfree, hy, hedit, hroom⟩ | ⟨⟨e, he⟩, -⟩
    · rw [Except.ok.inj hn] at hgo₄ ⊢
      have hinstalled : Installed fs₃ f d w content n _ _ :=
        (install_meets hk.sound hlead hw hfree hy hedit).result
      simp only [attempt, ExceptT.run_mk] at hgo₄ ⊢
      obtain ⟨-, hgo₅⟩ := hgo₄.bind
      rw [run_bind]
      generalize (install (f.join ⟨temporaryName n⟩) (f.join ⟨w⟩) content).run.run fs₄ = out
        at hinstalled hgo₅
      obtain ⟨r, fs₅⟩ := out
      rcases hinstalled with ⟨rfl, -⟩ | ⟨⟨e, rfl⟩, ⟨c, hleft⟩, -⟩
      · intro e he; cases he
      · dsimp only at hgo₅ ⊢
        obtain ⟨hgo₆, -⟩ := hgo₅.bind
        have hgone := discard_sure hf h hfree hleft hgo₆
        rintro e' - k
        rw [run_bind, run_pure]
        dsimp only at hgone ⊢
        exact hgone k
    · cases he
  · rintro e _ (⟨n, hn, -⟩ | ⟨-, rfl, -⟩) e' - k
    · cases hn
    · rfl

theorem removeIfPresent_sure (hs : fs.Sound) (h : Leads fs f d) (hf : f ∈ s.directories) (hw : IsName w)
    (hgo : Sure s P (removeIfPresent (f.join ⟨w⟩)).run fs) :
    ((removeIfPresent (f.join ⟨w⟩)).run.run fs).2.at (w :: d) = none := by
  rcases (removeIfPresent_meets hs h hw).result with ⟨-, hedit⟩ | ⟨-, hfs, hnone⟩ | ⟨⟨e, he⟩, hfs⟩
  · exact hedit.at_self
  · rw [hfs, hnone]
  · -- an error other than that there is no such file would be a removal that fails
    exfalso
    simp only [removeIfPresent, attempt, ExceptT.run_mk] at hgo he
    have hsure := hgo.bind.1.ask
    simp only [run_bind, run_ask, Call.perform] at he
    cases hr : fs.removeFile (f.join ⟨w⟩) with
    | ok fs' => simp [hr] at he
    | error e' => simp [hr, isNotFound_of_isSure hf h.tidy hw hsure hr] at he

end Files

/-! ### Backups -/

theorem write_sure (hk : Keeps g s fs) (hid : Plain id)
    (hgo : Sure s P (Backups.write ⟨s.backupsDirectory⟩ id content) fs) {e : Error}
    (he : (Backups.write ⟨s.backupsDirectory⟩ id content).run fs = (.error e, fs')) (k : Location) :
    fs'.at k = fs.at k := by
  obtain ⟨hgo₁, -⟩ := hgo.bind
  rw [Backups.write, run_bind] at he
  cases hrun : (Files.writeAtomic (Backups.pathFor ⟨s.backupsDirectory⟩ id) content).run.run fs with
  | mk r fs₁ =>
    rw [hrun] at he
    cases r with
    | ok _ => simp at he
    | error e' =>
      simp only [run_pure, Prod.mk.injEq] at he
      rw [← he.2]
      exact Files.writeAtomic_sure hk (by simp [Grounds.folders]) hk.firm_backups
        (by simp [Store.directories]) (isName_backupName hid) hgo₁ hrun k

theorem remove_sure (hk : Keeps g s fs) (hid : Plain id)
    (hgo : Sure s P (Backups.remove ⟨s.backupsDirectory⟩ id) fs) :
    ((Backups.remove ⟨s.backupsDirectory⟩ id).run fs).2.at (backupName id :: g.backups) = none :=
  Files.removeIfPresent_sure hk.sound hk.backups (by simp [Store.directories])
    (isName_backupName hid) hgo

theorem Shed.at_of_ne {d' : Location} {names : List Bytes} (h : Shed d names fs fs') (hne : d ≠ d')
    (w : Bytes) : fs'.at (w :: d') = fs.at (w :: d') := by
  refine (h.at_eq _).resolve_right ?_
  rintro ⟨-, v, -, hv⟩
  exact hne (List.cons.inj hv).2.symm

theorem Shed.none {names : List Bytes} (h : Shed d names fs fs') (hk : fs.at k = none) :
    fs'.at k = none :=
  (h.at_eq k).elim (fun heq => heq.trans hk) fun hn => hn.1

theorem removeEach_sure {ops : List Operation} (hk : Keeps g s fs) (hops : ∀ op ∈ ops, Plain op.id)
    (hgo : Sure s P (Backups.removeEach ⟨s.backupsDirectory⟩ ops) fs) :
    ∀ op ∈ ops, op.requiresBackup = true →
      ((Backups.removeEach ⟨s.backupsDirectory⟩ ops).run fs).2.at (backupName op.id :: g.backups) =
        none := by
  induction ops generalizing fs with
  | nil => simp
  | cons o ops ih =>
    have ho : Plain o.id := hops o List.mem_cons_self
    have hops' : ∀ op ∈ ops, Plain op.id := fun op h => hops op (List.mem_cons_of_mem _ h)
    intro op hop hreq
    rw [Backups.removeEach] at hgo ⊢
    by_cases ho' : o.requiresBackup = true
    · -- the first backup is gone, and then the others go
      rw [if_pos ho'] at hgo ⊢
      obtain ⟨hgo₁, hgo₂⟩ := hgo.bind
      have hshed := (remove_meets hk ho).result
      have hgone := remove_sure hk ho hgo₁
      rw [run_bind]
      generalize (Backups.remove ⟨s.backupsDirectory⟩ o.id).run fs = out at hgo₂ hshed hgone
      obtain ⟨r, fs₁⟩ := out
      have hk₁ := (hshed.tended hk (by simp [Grounds.folders])).keeps hk
      have hrest : fs₁.at (backupName op.id :: g.backups) = none ∨ op ∈ ops := by
        rcases List.mem_cons.1 hop with rfl | hop
        · exact .inl hgone
        · exact .inr hop
      rw [run_bind]
      have hend : ((Backups.removeEach ⟨s.backupsDirectory⟩ ops).run fs₁).2.at
          (backupName op.id :: g.backups) = none :=
        hrest.elim (removeEach_meets hk₁ hops').result.none
          fun hop => ih hk₁ hops' hgo₂.bind.1 op hop hreq
      rcases r with e | ⟨_ | _⟩ <;> exact hend
    · rw [if_neg ho', pure_bind] at hgo ⊢
      rw [run_bind]
      refine ih hk hops' hgo.bind.1 op ?_ hreq
      exact (List.mem_cons.1 hop).resolve_left fun heq => ho' (heq ▸ hreq)

theorem removeBackups_sure {ids : List String} (hk : Keeps g s fs) (hids : ∀ i ∈ ids, Plain i)
    (hgo : Sure s P (Manager.removeBackups ⟨s.backupsDirectory⟩ ids) fs) :
    ∀ i ∈ ids, ((Manager.removeBackups ⟨s.backupsDirectory⟩ ids).run fs).2.at
      (backupName i :: g.backups) = none := by
  induction ids generalizing fs with
  | nil => simp
  | cons id ids ih =>
    have hids' : ∀ i ∈ ids, Plain i := fun i h => hids i (List.mem_cons_of_mem _ h)
    intro i hi
    rw [Manager.removeBackups] at hgo ⊢
    obtain ⟨hgo₁, hgo₂⟩ := hgo.bind
    have hshed := (remove_meets hk (hids id List.mem_cons_self)).result
    have hgone := remove_sure hk (hids id List.mem_cons_self) hgo₁
    rw [run_bind]
    generalize (Backups.remove ⟨s.backupsDirectory⟩ id).run fs = out at hgo₂ hshed hgone
    obtain ⟨r, fs₁⟩ := out
    have hk₁ := (hshed.tended hk (by simp [Grounds.folders])).keeps hk
    have hend : ((Manager.removeBackups ⟨s.backupsDirectory⟩ ids).run fs₁).2.at
        (backupName i :: g.backups) = none := by
      rcases List.mem_cons.1 hi with rfl | hi
      · exact (removeBackups_meets hk₁ hids').result.none hgone
      · exact ih hk₁ hids' hgo₂.bind.1 i hi
    rw [run_bind]
    cases r <;> exact hend

/-! ### Letting go -/

namespace Manager

variable {m m' m'' : Manager}

structure Cleared (g : Grounds) (m : Manager) (fs : FileSystem) (m' : Manager) (fs' : FileSystem) :
    Prop where
  pruned : Pruned g m fs m' fs'
  fewer : ∀ w, fs'.at (w :: g.backups) = fs.at (w :: g.backups) ∨ fs'.at (w :: g.backups) = none
  gone : ∀ id t, m.transaction? id = some t → m'.transaction? id = none → ∀ op ∈ t.operations,
    op.requiresBackup = true → fs'.at (backupName op.id :: g.backups) = none

theorem Cleared.refl (hk : Keeps g m.store fs) : Cleared g m fs m fs where
  pruned := Pruned.refl hk
  fewer _ := .inl rfl
  gone id t ht hnone := by rw [ht] at hnone; cases hnone

theorem Cleared.trans (h : Cleared g m fs m' fs') (h' : Cleared g m' fs' m'' fs'') :
    Cleared g m fs m'' fs'' where
  pruned := h.pruned.trans h'.pruned
  fewer w := by
    rcases h'.fewer w with hw | hw
    · rw [hw]; exact h.fewer w
    · exact .inr hw
  gone id t ht hnone op hop hreq := by
    cases ht' : m'.transaction? id with
    | none =>
      rcases h'.fewer (backupName op.id) with hw | hw
      · rw [hw]; exact h.gone id t ht ht' op hop hreq
      · exact hw
    | some u =>
      have hu := h.pruned.kept id u ht'
      rw [ht, Option.some.injEq] at hu
      subst hu
      exact h'.gone id t ht' hnone op hop hreq

theorem purge_cleared (hk : Keeps g m.store fs) (hp : PlainIds m) (id : String)
    (hgo : Sure m.store P (m.purge id) fs) :
    Cleared g m fs ((m.purge id).run fs).1.2 ((m.purge id).run fs).2 := by
  have hpruned := purge_pruned hk hp id
  rw [purge] at hgo hpruned ⊢
  cases ht : m.transaction? id with
  | none => exact Cleared.refl hk
  | some t =>
    simp only [ht] at hgo hpruned
    obtain ⟨-, hgo₁⟩ := hgo.bind
    have hdelete := (deleteTransaction_meets hk (hp.transaction id t ht)).result
    simp only [run_bind] at hpruned ⊢
    generalize (m.store.deleteTransaction id).run fs = out at hgo₁ hdelete hpruned
    obtain ⟨r, fs₁⟩ := out
    cases r with
    | error e =>
      rcases hdelete with ⟨hr, -⟩ | ⟨hr, -⟩ | ⟨-, rfl⟩
      · cases hr
      · cases hr
      · exact Cleared.refl hk
    | ok b =>
      simp only [run_bind, run_pure] at hpruned ⊢
      have hshed : Shed g.transactions [documentName id] fs fs₁ := by
        rcases hdelete with ⟨-, hedit⟩ | ⟨-, rfl, -⟩ | ⟨⟨e, hr⟩, -⟩
        · exact Shed.of_edit hedit (by simp)
        · exact Shed.refl hk.sound _ _
        · cases hr
      have hk₁ := (hshed.tended hk (by simp [Grounds.folders])).keeps hk
      have hops := hp.operation id t ht
      have hshed' := (removeEach_meets hk₁ hops).result
      have hgone := removeEach_sure hk₁ hops hgo₁.bind.1
      refine ⟨hpruned, fun w => ?_, fun j u hu hnone op hop hreq => ?_⟩
      · rcases hshed'.at_eq (w :: g.backups) with h | ⟨h, -⟩
        · refine .inl (h.trans ((hshed.at_eq (w :: g.backups)).resolve_right ?_))
          rintro ⟨-, v, -, heq⟩
          exact hk.transactions_ne_backups (List.cons.inj heq).2.symm
        · exact .inr h
      · have hj : j = id := by
          by_contra hne
          change ({ m with history := m.history.remove id } : Manager).transaction? j = none at hnone
          rw [transaction?_remove, if_neg hne, hu] at hnone
          cases hnone
        rw [hj, ht, Option.some.injEq] at hu
        subst hu
        exact hgone op hop hreq

theorem purgeEach_cleared (hk : Keeps g m.store fs) (hp : PlainIds m) (ids : List String)
    (hgo : Sure m.store P (m.purgeEach ids) fs) :
    Cleared g m fs ((m.purgeEach ids).run fs).1.2 ((m.purgeEach ids).run fs).2 := by
  induction ids generalizing m fs with
  | nil => exact Cleared.refl hk
  | cons id ids ih =>
    rw [purgeEach] at hgo
    obtain ⟨hgo₁, hgo₂⟩ := hgo.bind
    have hfirst := purge_cleared hk hp id hgo₁
    have hstore : ((m.purge id).run fs).1.2.store = m.store := by rw [hfirst.pruned.manager]
    have hk' : Keeps g ((m.purge id).run fs).1.2.store ((m.purge id).run fs).2 :=
      hstore ▸ hfirst.pruned.tended.keeps hk
    simp only [purgeEach, run_bind, run_pure]
    exact hfirst.trans (ih hk' (hfirst.pruned.plainIds hp) (hstore ▸ hgo₂.bind.1))

theorem enforceLimit_cleared (hk : Keeps g m.store fs) (hp : PlainIds m)
    (hgo : Sure m.store P m.enforceLimit fs) :
    Cleared g m fs (m.enforceLimit.run fs).1 (m.enforceLimit.run fs).2 := by
  simp only [enforceLimit, run_bind, run_pure]
  exact purgeEach_cleared hk hp _ hgo.bind.1

end Manager
end Retrace
