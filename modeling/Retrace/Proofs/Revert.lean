import Retrace.Rollback.Engine
import Retrace.Proofs.Documents

/-!
Reverting one operation on a tree in which what it has made is still there: each kind of operation
puts back what stood at its place and touches nothing else.
-/
namespace Retrace.Files

open FileSystem Retrace.Path Script

variable {fs : FileSystem} {f f' : Path} {c d : Location} {v w : Bytes} {e : Entry}

theorem ensureParent_run (h : Aims fs f d w) :
    (ensureParent (f.join ⟨w⟩)).run.run fs = (.ok (), fs) := by
  obtain ⟨hfs, hok⟩ := (ensureParent_meets h.toLeads h.name).result
  exact Prod.ext (hok (Nat.lt_trans (lt_length_join_name f h.name) h.fits)) hfs

theorem move_run (h : Aims fs f c v) (h' : Aims fs f' d w) (he : fs.at (v :: c) = some e)
    (hne : v :: c ≠ w :: d) (hbar : fs.renameBar e c v d w = none) :
    (move (f.join ⟨v⟩) (f'.join ⟨w⟩)).run.run fs = (.ok (), fs.relocate (v :: c) (w :: d)) := by
  have hren := h.rename h'
  simp only [he, hne, if_false, hbar] at hren
  simp only [move, ExceptT.run_bind, run_bind, ensureParent_run h', attempt, ExceptT.run_mk,
    run_ask, Call.perform, hren, change_ok, run_pure]

end Retrace.Files

namespace Retrace.Rollback

open FileSystem Retrace.Path Script

variable {fs : FileSystem} {g : Grounds} {s : Store} {f f' : Path} {c d : Location} {v w : Bytes}
  {e : Entry} {op : Operation} {m n : Nat} {content : Bytes} {verify force : Bool} {t : Path}

theorem removeCreated_run (ha : Aims fs f d w) (hx : fs.at (w :: d) = some e)
    (he : e.isDirectory = false) (hy : fs.yields d = true) :
    (removeCreated (f.join ⟨w⟩)).run fs = (.done, fs.erase (w :: d)) := by
  simp only [removeCreated, run_bind, Files.removeIfPresent_run ha hx he hy, run_pure]
  rfl

theorem removeLink_run (ha : Aims fs f d w) (hx : fs.at (w :: d) = some (.link t))
    (hy : fs.yields d = true) : (removeLink (f.join ⟨w⟩)).run fs = (.done, fs.erase (w :: d)) := by
  have hstatus : fs.linkStatus (f.join ⟨w⟩) = .ok .link := by rw [ha.linkStatus, hx]; rfl
  have hremove : fs.removeFile (f.join ⟨w⟩) = .ok (fs.erase (w :: d)) := by
    simp [ha.removeFile, hx, hy, Entry.isDirectory]
  simp only [removeLink, run_bind, run_ask, Call.perform, hstatus, hremove, change_ok, run_pure]
  rfl

theorem removeDirectory_run (ha : Aims fs f d w) (hx : fs.at (w :: d) = some (.directory m))
    (hr : (Entry.directory m).isReadable = true) (hc : ∀ u, fs.at (u :: w :: d) = none)
    (hy : fs.yields d = true) :
    (removeDirectory (f.join ⟨w⟩)).run fs = (.done, fs.erase (w :: d)) := by
  have hlist : fs.list (f.join ⟨w⟩) = .ok [] := by rw [ha.list hx hr, children_eq_nil.2 hc]
  have hremove : fs.removeDirectory (f.join ⟨w⟩) = .ok (fs.erase (w :: d)) := by
    simp [ha.removeDirectory, hx, hy, Entry.isDirectory, children_eq_nil.2 hc]
  simp only [removeDirectory, run_bind, Files.Aims.present_run ha, hx, Option.isSome_some,
    Bool.not_true, Bool.false_eq_true, if_false, run_ask, Call.perform, hlist, hremove, change_ok,
    run_pure]
  rfl

theorem restoreMode_run (ha : Aims fs f d w) (hp : op.path = f.join ⟨w⟩)
    (hx : fs.at (w :: d) = some e) (he : e.kind ≠ .link) (hm : op.previousMode = some n) :
    (restoreMode op).run fs = (.done, fs.insert (w :: d) (e.withMode (n % 0o10000))) := by
  have hset : fs.setMode (f.join ⟨w⟩) n = .ok (fs.insert (w :: d) (e.withMode (n % 0o10000))) := by
    rw [ha.setMode fun t ht => ?_, hx]
    obtain rfl : e = .link t := by simpa [hx] using ht
    exact he rfl
  simp only [restoreMode, hm, hp, run_bind, Files.Aims.present_run ha, hx, Option.isSome_some,
    if_true, run_ask, Call.perform, hset, change_ok, run_pure]
  rfl

theorem moveBack_run (ha : Aims fs f d w) (hp : op.path = f.join ⟨w⟩) (ha' : Aims fs f' c v)
    (hq : op.previousPath = some (f'.join ⟨v⟩)) (hx : fs.at (w :: d) = some e)
    (hfree : fs.at (v :: c) = none) (hbar : fs.renameBar e d w c v = none) :
    (moveBack force op).run fs = (.done, fs.relocate (w :: d) (v :: c)) := by
  have hne : w :: d ≠ v :: c := fun heq => by rw [heq, hfree] at hx; cases hx
  simp only [moveBack, hq, hp, run_bind, Files.Aims.present_run ha, hx, Option.isSome_some,
    Files.Aims.present_run ha', hfree, Option.isSome_none, Bool.not_true, Bool.false_eq_true,
    if_false, Bool.false_and, Files.move_run ha ha' hx hne hbar, run_pure]
  rfl

/-- Content that was replaced is put back, from the backup unless it was empty. -/
theorem restore_run {b : Bytes} (hs : fs.Sound) (h : Firm fs f d) (ha : Aims fs f d w)
    (hr : Room fs f d) (hx : fs.at (w :: d) = none ∨ ∃ m c, fs.at (w :: d) = some (.file m c))
    (hp : op.path = f.join ⟨w⟩) (hkind : op.kind = .update ∨ op.kind = .delete)
    (hc : op.previousContent = some (Utf8.lossy b)) (hsum : op.checksum = some (Sha256.hexDigest b))
    (hback : b ≠ [] → Backed fs g.backups op.id b ∧
      Aims fs s.backupsDirectory g.backups (backupName op.id)) :
    ∃ a fs', (revert ⟨s.backupsDirectory⟩ verify force op).run fs = (a, fs') ∧
      a.verdict = .ok .done ∧ Edit fs (w :: d) (some (.file 0o600 b)) fs' := by
  obtain ⟨fs', hwrite, hedit⟩ := Files.writeAtomic_run hs h.leads ha hr hx b
  have hneeds : op.kind.needsBackup = true := by rcases hkind with hk | hk <;> simp [hk] <;> rfl
  have hrevert : revert ⟨s.backupsDirectory⟩ verify force op =
      if op.requiresBackup then restoreBackup ⟨s.backupsDirectory⟩ verify force op
      else restoreKnown op := by
    rcases hkind with hk | hk <;> simp [revert, hk]
  have hreq : op.requiresBackup = decide (b ≠ []) := by
    simp [Operation.requiresBackup, hneeds, hc, Utf8.lossy_eq_empty_iff]
  by_cases hb : b = []
  · have hcontent : Utf8.encode (Utf8.lossy b) = b := by rw [hb]; rfl
    refine ⟨.done, fs', ?_, rfl, hedit⟩
    simp only [hrevert, hreq, hb, ne_eq, not_true_eq_false, decide_false, Bool.false_eq_true,
      if_false, restoreKnown, hc, hp, run_bind]
    rw [hb] at hcontent hwrite
    rw [hcontent, hwrite]
    rfl
  · obtain ⟨hbacked, haims⟩ := hback hb
    have hdamaged : isDamaged verify op b = false := by simp [isDamaged, hsum]
    refine ⟨{ Attempt.done with warnings := [], consumed := true }, fs', ?_, rfl, hedit⟩
    simp only [hrevert, hreq, hb, ne_eq, not_false_eq_true, decide_true, if_true, restoreBackup,
      run_bind, Backups.read_run haims hbacked, hdamaged, Bool.false_and, Bool.false_eq_true,
      if_false, hp, hwrite, run_pure]

end Retrace.Rollback
