import Retrace.Proofs.BackupLedger
import Retrace.Proofs.Bounds

/-!
Bookkeeping: letting go of transactions, deleting checkpoints and recording rollbacks. Documents and
backups are named by ids, and ids come from documents. Where none of them has a slash, bookkeeping
changes no more than files in the directories of the store, at any stage (`bookkeeping_tended`).
-/
namespace Retrace

open FileSystem Script
open Rollback (Options Pending)

namespace Manager

variable {g : Grounds} {m : Manager} {fs : FileSystem} {now : Instant} {options : Options}
  {t : Transaction} {p : Pending} {id : String}

/-! ### Letting go -/

theorem purge_meets (hk : Keeps g m.store fs) (hp : PlainIds m) (id : String) :
    Meets (m.purge id) fs (Tended g fs) fun out fs' => Pruned g m fs out.2 fs' := by
  refine ⟨?_, purge_pruned hk hp id⟩
  rw [purge]
  cases ht : m.transaction? id with
  | none =>
    intro k hmem
    rw [List.mem_singleton.1 hmem]
    exact Tended.refl hk
  | some t =>
    have hd : g.transactions ∈ g.folders := by simp [Grounds.folders]
    have hb : g.backups ∈ g.folders := by simp [Grounds.folders]
    have hstage : ∀ k, k = fs ∨ Edit fs (documentName id :: g.transactions) none k → Tended g fs k := by
      rintro k (rfl | he)
      · exact Tended.refl hk
      · exact hk.tended_edit hd (by simp) he
    have hdelete := deleteTransaction_meets hk (hp.transaction id t ht)
    refine ((hdelete.mono hstage fun _ _ _ h => h).bind (R := fun _ _ => True) fun r k htended _ => ?_).stages
    cases r with
    | error e => exact Meets.pure htended trivial
    | ok _ =>
      have hk' := htended.keeps hk
      have hremove := removeEach_meets hk' (hp.operation id t ht)
      exact (hremove.mono (fun k' hshed => htended.trans (hshed.tended hk' hb)) fun _ _ _ h => h).bind
        fun _ _ h _ => Meets.pure h trivial

theorem purgeEach_meets (hk : Keeps g m.store fs) (hp : PlainIds m) (ids : List String) :
    Meets (m.purgeEach ids) fs (Tended g fs) fun _ _ => True := by
  induction ids generalizing m fs with
  | nil => exact Meets.pure (Tended.refl hk) trivial
  | cons id ids ih =>
    rw [purgeEach]
    refine (purge_meets hk hp id).bind fun out fs' htended hpruned => ?_
    have hk' : Keeps g out.2.store fs' := by
      rw [hpruned.manager]
      exact htended.keeps hk
    have hrest := ih hk' (hpruned.plainIds hp)
    exact (hrest.mono (fun k hk => htended.trans hk) fun _ _ _ h => h).bind
      fun _ _ h _ => Meets.pure h trivial

theorem clear_meets {days : Option Nat} {x : Script (Nat × Manager)} (hk : Keeps g m.store fs)
    (hp : PlainIds m) (hx : m.clear? now days = some x) : Meets x fs (Tended g fs) fun _ _ => True := by
  cases days with
  | none =>
    obtain rfl := Option.some.inj hx
    exact purgeEach_meets hk hp _
  | some days =>
    obtain ⟨cutoff, -, rfl⟩ := Option.map_eq_some_iff.1 hx
    exact purgeEach_meets hk hp _

theorem enforceLimit_meets (hk : Keeps g m.store fs) (hp : PlainIds m) :
    Meets m.enforceLimit fs (Tended g fs) fun _ _ => True :=
  (purgeEach_meets hk hp m.excess).bind fun _ _ h _ => Meets.pure h trivial

theorem deleteCheckpoint_meets (hk : Keeps g m.store fs) (hid : (m.checkpoint? id).isSome → Plain id) :
    Meets (m.deleteCheckpoint id) fs (Tended g fs) fun _ _ => True := by
  rw [deleteCheckpoint]
  split
  · next hhas =>
    have hd : g.checkpoints ∈ g.folders := by simp [Grounds.folders]
    have hstage : ∀ k, k = fs ∨ Edit fs (documentName id :: g.checkpoints) none k → Tended g fs k := by
      rintro k (rfl | he)
      · exact Tended.refl hk
      · exact hk.tended_edit hd (by simp) he
    have hdelete : Meets (m.store.deleteCheckpoint id) fs
        (fun k => k = fs ∨ Edit fs (documentName id :: g.checkpoints) none k)
        (Files.Removed fs g.checkpoints (documentName id)) :=
      Files.removeIfPresent_meets hk.sound hk.checkpoints (isName_documentName (hid hhas))
    refine (hdelete.mono hstage fun _ _ _ h => h).bind fun r k htended _ => ?_
    cases r with
    | error e => exact Meets.pure htended trivial
    | ok _ => exact Meets.pure htended trivial
  · exact Meets.pure (Tended.refl hk) trivial

/-! ### Recording rollbacks -/

theorem markRolledBack_meets (hk : Keeps g m.store fs) (hid : ∀ t, m.transaction? id = some t → Plain t.id) :
    Meets (m.markRolledBack now id) fs (Tended g fs) fun out _ => out.2.store = m.store := by
  rw [markRolledBack]
  split
  · exact Meets.pure (Tended.refl hk) rfl
  next t ht =>
  obtain ⟨content, hwriting⟩ := saveTransaction_writing (t := t.reverted now) hk (hid t ht)
  have hsave : Meets (m.store.saveTransaction (t.reverted now)) fs (Tended g fs) fun _ _ => True :=
    ⟨fun k hmem => hk.tended_writing (by simp [Grounds.folders]) (hwriting k hmem), trivial⟩
  refine hsave.bind fun r k htended _ => ?_
  cases r with
  | error e => exact Meets.pure htended rfl
  | ok _ => exact Meets.pure htended rfl

/-- What a rollback records is the document of its transaction, and what it takes are the backups that
it has used. -/
theorem finalize_meets (hk : Keeps g m.store fs) (hid : ∀ t, m.transaction? p.result.transactionId = some t → Plain t.id)
    (hused : ∀ i ∈ p.consumedBackups, Plain i) :
    Meets (m.finalize now options p) fs (Tended g fs) fun _ _ => True := by
  rw [finalize]
  split
  · exact Meets.pure (Tended.refl hk) trivial
  refine (markRolledBack_meets hk hid).bind fun out k htended hstore => ?_
  obtain ⟨marked, m'⟩ := out
  cases marked with
  | error e => exact Meets.pure htended trivial
  | ok _ =>
    dsimp only at hstore ⊢
    split
    · exact Meets.pure htended trivial
    · have hk' : Keeps g m'.store k := by
        rw [hstore]
        exact htended.keeps hk
      have hremove := removeBackups_meets hk' hused
      exact (hremove.mono (fun k' hshed => htended.trans (hshed.tended hk' (by simp [Grounds.folders])))
        fun _ _ _ h => h).bind fun _ _ h _ => Meets.pure h trivial

/-- Where no id that a manager has loaded has a slash, bookkeeping changes nothing but files in the
directories of the store, at every stage: letting go of transactions by age or beyond the number that
is kept, deleting a checkpoint, and recording a rollback that was made on any tree. -/
theorem bookkeeping_tended (hk : Keeps g m.store fs) (hp : PlainIds m) (hkeyed : Keyed m)
    (hc : ∀ id, (m.checkpoint? id).isSome → Plain id) :
    (∀ now days x, m.clear? now days = some x → ∀ k ∈ x.stages fs, Tended g fs k) ∧
    (∀ k ∈ m.enforceLimit.stages fs, Tended g fs k) ∧
    (∀ id, ∀ k ∈ (m.deleteCheckpoint id).stages fs, Tended g fs k) ∧
    ∀ id t, m.transaction? id = some t → ∀ now options before,
      ∀ k ∈ (m.finalize now options ((m.execute options t).run before).1).stages fs, Tended g fs k := by
  refine ⟨fun now days x hx => (clear_meets hk hp hx).stages, (enforceLimit_meets hk hp).stages,
    fun id => (deleteCheckpoint_meets hk (hc id)).stages, fun id t ht now options before => ?_⟩
  have howes := execute_owes m options t before
  refine (finalize_meets hk (fun u hu => ?_) fun i hi => ?_).stages
  · rw [hkeyed _ u hu]
    exact hp.transaction _ u hu
  · obtain ⟨op, hop, -, rfl⟩ := howes.used i hi
    exact hp.operation id t ht op hop

end Manager

namespace Sample

theorem later_plainIds : Manager.PlainIds later where
  transaction id t h := (later_kept h).2
  operation id t h op hop := by
    rw [(later_kept h).1] at hop
    rw [List.mem_singleton.1 hop]
    decide

def clearing : Script (Nat × Manager) := (later.clear? ⟨0, 0⟩ none).get (by decide +kernel)

end Sample

theorem bookkeeping_tended_cleared :
    (Sample.clearing.run Sample.filed).1.1 = 2 ∧
      (∀ k ∈ Sample.clearing.stages Sample.filed, Tended Sample.filedGrounds Sample.filed k) := by
  have hkeyed : Manager.Keyed Sample.later := fun id t h => by
    rw [(Sample.later_kept h).1]
    rfl
  obtain ⟨hclear, -⟩ := Manager.bookkeeping_tended Sample.filed_keeps Sample.later_plainIds hkeyed nofun
  exact ⟨by decide +kernel, hclear ⟨0, 0⟩ none Sample.clearing (Option.some_get _).symm⟩

end Retrace
