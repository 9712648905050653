import Retrace.Proofs.Files
import Retrace.Proofs.FileSystem.Thinned
import Retrace.Proofs.LifeCycle

/-!
Deleting. A file that can be removed is gone afterwards and nothing else has changed; one that cannot
is left with all else (`Files.removeIfPresent_result`). Of a checkpoint the entry in memory goes first,
so it goes in either case (`deleteCheckpoint_result`).
-/
namespace Retrace

open FileSystem Script

variable {m : Manager} {fs : FileSystem} {id : String} {p : Path}

theorem Files.removeIfPresent_result (hs : fs.Sound) (p : Path) :
    fs.stuck p = true ∧ (∃ e, (removeIfPresent p).run.run fs = (.error e, fs)) ∨
      fs.stuck p = false ∧ ∃ b fs', (removeIfPresent p).run.run fs = (.ok b, fs') ∧ Without fs p fs' ∧
        ((∀ l t, fs.spot? p = some l → fs.at l ≠ some (.link t)) → Thinned fs fs') := by
  rw [removeIfPresent_eq, FileSystem.stuck]
  cases hremove : fs.removeFile p with
  | ok fs' => exact .inr ⟨rfl, true, fs', rfl, removeFile_without hs hremove⟩
  | error e =>
    cases hnf : e.isNotFound with
    | true =>
      have hnone := fun l => none_of_removeFile (l := l) hremove hnf
      exact .inr ⟨by simp [hnf], false, fs, by simp [hnf], ⟨hs, hnone, fun _ _ => rfl⟩,
        fun _ => Thinned.refl hs⟩
    | false => exact .inl ⟨by simp [hnf], e, by simp [hnf]⟩

/-- What is left after a checkpoint was deleted: its entry is gone from memory, whether its document
could be removed or not. -/
structure Manager.Deleted (m : Manager) (id : String) (fs : FileSystem)
    (out : (Except Error Unit × Manager) × FileSystem) : Prop where
  manager : out.1.2 = { m with checkpoints := m.checkpoints.remove id }
  entry : ∀ j, out.1.2.checkpoint? j = if j = id then none else m.checkpoint? j
  failed : fs.stuck (m.store.checkpointPath id) = true → (∃ e, out.1.1 = .error (.io e)) ∧ out.2 = fs
  removed : fs.stuck (m.store.checkpointPath id) = false →
    out.1.1 = .ok () ∧ Without fs (m.store.checkpointPath id) out.2

/-- Deleting a checkpoint that is not known changes nothing. One that is known goes with its document
and nothing else where that can be removed or is not there; where it cannot, there is an error, nothing
changes on disk, and the checkpoint is known no more. -/
theorem deleteCheckpoint_result (hs : fs.Sound) (m : Manager) (id : String) :
    (m.checkpoint? id = none →
      (m.deleteCheckpoint id).run fs = ((.error (.checkpointNotFound id), m), fs)) ∧
    ((m.checkpoint? id).isSome → m.Deleted id fs ((m.deleteCheckpoint id).run fs)) := by
  refine ⟨fun hnone => ?_, fun hsome => ?_⟩
  · rw [Manager.deleteCheckpoint, if_neg]
    · rfl
    · rw [Index.has]
      change ¬(m.checkpoint? id).isSome = true
      simp [hnone]
  · have hremove := Files.removeIfPresent_result hs (m.store.checkpointPath id)
    have hentry : ∀ j, ({ m with checkpoints := m.checkpoints.remove id } : Manager).checkpoint? j =
        if j = id then none else m.checkpoint? j := fun j => Index.get?_remove _ _ _
    have hhas : m.checkpoints.has id = true := hsome
    rw [Manager.deleteCheckpoint, if_pos hhas]
    dsimp only
    rw [run_bind, Store.deleteCheckpoint]
    rcases hremove with ⟨hstuck, e, hrun⟩ | ⟨hstuck, b, fs', hrun, hwithout, -⟩
    · rw [hrun]
      exact ⟨rfl, hentry, fun _ => ⟨⟨e, rfl⟩, rfl⟩, fun hc => by simp [hstuck] at hc⟩
    · rw [hrun]
      exact ⟨rfl, hentry, fun hc => by simp [hstuck] at hc, fun _ => ⟨rfl, hwithout⟩⟩

namespace Sample

def pinned : Manager := { manager with checkpoints := [("k", .create "k" ⟨0, 0⟩ "" "" [] [])] }

def barred : FileSystem :=
  (tree.insert (documentName "k" :: grounds.checkpoints) (.file 0o600 [107])).insert
    grounds.checkpoints (.directory 0o555)

end Sample

theorem deleteCheckpoint_result_of_barred :
    (Sample.barred.read (Sample.pinned.store.checkpointPath "k")).isOk = true ∧
      (∃ e, ((Sample.pinned.deleteCheckpoint "k").run Sample.barred).1.1 = .error (.io e)) ∧
      ((Sample.pinned.deleteCheckpoint "k").run Sample.barred).2 = Sample.barred ∧
      ((Sample.pinned.deleteCheckpoint "k").run Sample.barred).1.2.checkpoint? "k" = none := by
  have hs : Sample.barred.Sound := by decide +kernel
  have hstuck : Sample.barred.stuck (Sample.pinned.store.checkpointPath "k") = true := by decide +kernel
  have hdeleted := (deleteCheckpoint_result hs Sample.pinned "k").2 rfl
  obtain ⟨herror, hsame⟩ := hdeleted.failed hstuck
  exact ⟨by decide +kernel, herror, hsame, (hdeleted.entry "k").trans (if_pos rfl)⟩

end Retrace
