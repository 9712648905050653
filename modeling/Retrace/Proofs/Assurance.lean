import Retrace.Proofs.Outlying
import Retrace.Proofs.Touch

/-!
What a preview is worth. A transaction whose preview can proceed finds each backup that it needs when
it comes to it, whatever the operations that are reverted before have done to other files
(`previewed_backups_hold`). Without checksums that takes backups which can be read
(`previewed_backup_unreadable`).
-/
namespace Retrace

open FileSystem Script
open Rollback (Options reached Disturbs complaint isDamaged revert)

variable {fs k : FileSystem} {b : Backups} {verify : Bool} {op : Operation} {m m' : Manager}
  {t : Transaction} {p : Preview} {options : Options} {now : Instant} {id : String}

/-! ### Recorded operations -/

/-- An operation as it is recorded: its paths are absolute, and known content comes with a checksum. -/
structure Operation.IsRecorded (op : Operation) : Prop extends op.IsRooted where
  summed : op.previousContent.isSome = true → op.checksum.isSome = true

theorem Manager.operationOf_isRecorded (hroot : m.root.isAbsolute = true) (kind : Operation.Kind)
    (p : Path) (details : Operation.Details) (previous : Option Bytes) :
    (m.operationOf id now kind p details previous).IsRecorded where
  path := Path.isAbsolute_normalize hroot
  former q hq := by
    obtain ⟨former, -, rfl⟩ := Option.map_eq_some_iff.1 hq
    exact Path.isAbsolute_normalize hroot
  summed h := by cases previous <;> simp_all [operationOf]

theorem Manager.add_isRecorded {kind : Operation.Kind} {p : Path} {details : Operation.Details}
    {r : String} {fs' : FileSystem} (hroot : m.root.isAbsolute = true)
    (h : (m.add id now kind p details).run fs = ((.ok r, m'), fs')) :
    ∃ t op, m.current = some t ∧ op.IsRecorded ∧
      m'.current = some { t with operations := t.operations ++ [op] } := by
  obtain ⟨-, t, previous, hadded⟩ := Manager.add_ok h
  exact ⟨t, m.operationOf id now kind p details previous, hadded.current,
    operationOf_isRecorded hroot kind p details previous, by rw [hadded.appended]; rfl⟩

/-! ### Backups that can be used -/

def Restorable (b : Backups) (verify : Bool) (fs : FileSystem) (op : Operation) : Prop :=
  ∃ c, fs.read (b.pathFor op.id) = .ok c ∧ isDamaged verify op c = false

/-- A backup that is not lacking can be used, if it is a file that can be read or is checked. -/
theorem restorable_of_not_lacks (hrec : op.IsRecorded) (hreq : op.requiresBackup = true)
    (hno : ¬LacksBackup b verify fs op)
    (hfile : verify = false → ∀ l e, fs.entryAt false (b.pathFor op.id) = .ok (l, e) →
      ∃ mode c, e = .file mode c ∧ e.isReadable = true) : Restorable b verify fs op := by
  obtain ⟨hkind, hcontent⟩ := requiresBackup_iff.1 hreq
  cases hv : verify with
  | false =>
    have hthere : (fs.linkStatus (b.pathFor op.id)).isOk = true := by
      by_contra h
      exact hno ⟨hkind, hcontent, .inl (by simpa using h)⟩
    cases hstatus : fs.linkStatus (b.pathFor op.id) with
    | error e => rw [hstatus] at hthere; cases hthere
    | ok kind =>
      have hentry := eq_ok_of_named hstatus
      cases hx : fs.entryAt false (b.pathFor op.id) with
      | error e => rw [hx] at hentry; cases hentry
      | ok x =>
        obtain ⟨l, e⟩ := x
        obtain ⟨mode, c, rfl, hr⟩ := hfile hv l e hx
        exact ⟨c, read_of_entryAt (noNul_of_named hstatus) hx hr, rfl⟩
  | true =>
    obtain ⟨text, htext, hne⟩ := hcontent
    have hsum := hrec.summed (by rw [show op.previousContent = some text from htext]; rfl)
    obtain ⟨sum, hsum⟩ := Option.isSome_iff_exists.1 hsum
    have hread : (fs.read (b.pathFor op.id)).toOption.map Sha256.hexDigest = op.checksum := by
      by_contra h
      exact hno ⟨hkind, ⟨text, htext, hne⟩, .inr ⟨hv, by simp [hsum], h⟩⟩
    rw [hsum] at hread
    obtain ⟨c, hc, hdigest⟩ := Option.map_eq_some_iff.1 hread
    cases hx : fs.read (b.pathFor op.id) with
    | error e => rw [hx] at hc; cases hc
    | ok c' =>
      obtain rfl : c' = c := by rw [hx] at hc; exact Option.some.inj hc
      exact ⟨c', hx, by simp [isDamaged, hsum, hdigest]⟩

/-- A backup can be used in every tree that has all on the way to it. -/
theorem Restorable.congr (h : Restorable b verify fs op) (hs : fs.Sound)
    (hb : b.directory.isAbsolute = true)
    (hk : ∀ l ∈ fs.route (b.pathFor op.id), (fs.at l).isSome → k.at l = fs.at l) :
    Restorable b verify k op := by
  obtain ⟨c, hc, hgood⟩ := h
  exact ⟨c, read_congr hs (Path.isAbsolute_join hb) hc hk, hgood⟩

theorem Restorable.failure {e : Error} (h : Restorable b verify fs op)
    (hreq : op.requiresBackup = true) {force : Bool}
    (he : ((revert b verify force op).run fs).1.verdict = .error e) :
    ∃ c cause, e = .io cause ∧ fs.read (b.pathFor op.id) = .ok c ∧
      ((Files.writeAtomic op.path c).run.run fs).1 = .error cause := by
  obtain ⟨c, hc, hgood⟩ := h
  have hread : (b.read op.id).run fs = (.ok (some c), fs) := by rw [b.read_eq, hc]
  rw [Rollback.revert_of_requiresBackup b verify force hreq, Rollback.restoreBackup, run_bind, hread] at he
  simp only [hgood, Bool.false_and, Bool.false_eq_true, if_false, run_bind] at he
  cases hw : ((Files.writeAtomic op.path c).run.run fs).1 with
  | ok u => rw [hw] at he; cases he
  | error cause =>
    rw [hw] at he
    exact ⟨c, cause, (Except.error.inj he).symm, hc, hw⟩

/-! ### Rolling back -/

/-- The new status of a transaction cannot be recorded, for the reason given. -/
def Manager.Unrecorded (m : Manager) (now : Instant) (id : String) (fs : FileSystem) (s : String) : Prop :=
  ∃ e, ((m.markRolledBack now id).run fs).1.1 = .error e ∧ s = e.message

theorem Manager.markRolledBack_congr (hhistory : m'.history = m.history) (hstore : m'.store = m.store) :
    ((m'.markRolledBack now id).run fs).1.1 = ((m.markRolledBack now id).run fs).1.1 := by
  have htransaction : m'.transaction? id = m.transaction? id := by
    rw [transaction?, transaction?, hhistory]
  rw [markRolledBack, markRolledBack, htransaction]
  cases m.transaction? id with
  | none => rfl
  | some t =>
    simp only [run_bind, hstore]
    generalize (m.store.saveTransaction _).run fs = out
    obtain ⟨r, fs₁⟩ := out
    cases r <;> rfl

theorem Manager.mem_errors_finalize {x : Rollback.Pending} {s : String}
    (hs : s ∈ ((m.finalize now options x).run fs).1.1.errors) :
    s ∈ x.result.errors ∨ m.Unrecorded now x.result.transactionId fs s := by
  rw [Unrecorded]
  rw [finalize] at hs
  split at hs
  · exact .inl hs
  · rw [run_bind] at hs
    generalize (m.markRolledBack now x.result.transactionId).run fs = out at hs ⊢
    obtain ⟨⟨marked, m₁⟩, fs₁⟩ := out
    cases marked with
    | error e =>
      rcases List.mem_append.1 hs with h | h
      · exact .inl h
      · exact .inr ⟨e, rfl, List.mem_singleton.1 h⟩
    | ok u =>
      dsimp only at hs
      split at hs
      · exact .inl hs
      · rw [run_bind] at hs
        exact .inl hs

theorem Manager.execute_proceeds (options : Options) (hstatus : t.status = .completed)
    (hp : (m.previewOf t).run fs = (p, fs)) (hcan : p.canProceed = true) :
    ((m.execute options t).run fs).1.result.errors =
      ((Rollback.revertAll m.backups m.settings.verifyChecksums options t).run fs).1.errors ∧
    ((m.execute options t).run fs).1.result.transactionId = t.id := by
  simp only [execute, hstatus, run_bind, hp, hcan, Bool.not_true, Bool.false_and, Bool.false_eq_true,
    if_false]
  exact ⟨rfl, rfl⟩

/-- A completed transaction that was recorded is previewed and rolled back, and no operation reaches a
place on the way to a backup that is needed. If the preview can proceed, each operation that
is reached finds its backup, with the content that was recorded if that is checked; and each error
that is reported is a file operation that failed, an operation that cannot be reverted as it was recorded,
or the new status that could not be recorded. Without checksums the backups must be files that can be
read. -/
theorem previewed_backups_hold (ht : m.transaction? id = some t) (hstatus : t.status = .completed)
    (hrec : ∀ op ∈ t.operations, op.IsRecorded) (hb : m.backups.directory.isAbsolute = true)
    (hs : fs.Sound)
    (hfiles : m.settings.verifyChecksums = false → ∀ op ∈ t.operations, op.requiresBackup = true →
      ∀ l e, fs.entryAt false (m.backups.pathFor op.id) = .ok (l, e) →
        ∃ mode c, e = .file mode c ∧ e.isReadable = true)
    (houtside : ∀ op ∈ t.operations, op.requiresBackup = true →
      ∀ l ∈ fs.route (m.backups.pathFor op.id),
        ¬Disturbs m.backups m.settings.verifyChecksums options t.reversed fs l)
    (hpreview : ((m.preview id).run fs).1 = .ok p) (hcan : p.canProceed = true) :
    (∀ x ∈ reached m.backups m.settings.verifyChecksums options t.reversed fs,
      x.1.requiresBackup = true → ∃ c, (m.backups.read x.1.id).run x.2 = (.ok (some c), x.2) ∧
        isDamaged m.settings.verifyChecksums x.1 c = false) ∧
    ∀ s ∈ ((m.rollback now options id).run fs).1.1.errors,
      (∃ x ∈ reached m.backups m.settings.verifyChecksums options t.reversed fs, ∃ e,
        ((revert m.backups m.settings.verifyChecksums options.force x.1).run x.2).1.verdict = .error e ∧
          s = complaint x.1 e ∧
          (x.1.requiresBackup = true → ∃ c cause, e = .io cause ∧
            x.2.read (m.backups.pathFor x.1.id) = .ok c ∧
            ((Files.writeAtomic x.1.path c).run.run x.2).1 = .error cause) ∧
          (x.1.requiresBackup = false → Rollback.IsPlain e)) ∨
      ∃ fs', m.Unrecorded now t.id fs' s := by
  have hreversed : ∀ op, op ∈ t.reversed ↔ op ∈ t.operations := fun op => List.mem_reverse
  obtain ⟨q, hq, hreports⟩ := m.previewOf_eq t fs
  obtain rfl : q = p := by
    simp only [Manager.preview, ht, run_bind, hq, run_pure] at hpreview
    exact Except.ok.inj hpreview
  have hnone : ∀ op ∈ t.operations, ¬LacksBackup m.backups m.settings.verifyChecksums fs op := by
    intro op hop hlacks
    rw [hreports.blocked.2 ⟨op, hop, hlacks⟩] at hcan
    cases hcan
  have hspared : ∀ x ∈ reached m.backups m.settings.verifyChecksums options t.reversed fs,
      Spares fs (Disturbs m.backups m.settings.verifyChecksums options t.reversed fs) x.2 :=
    (Rollback.revertEach_spares (o := {}) hs fun op hop =>
      (hrec op ((hreversed op).1 hop)).toIsRooted).2
  -- nothing that was reverted before has changed what is on the way to a backup
  have hrestorable : ∀ x ∈ reached m.backups m.settings.verifyChecksums options t.reversed fs,
      x.1.requiresBackup = true → Restorable m.backups m.settings.verifyChecksums x.2 x.1 := by
    intro x hx hreq
    have hop := (hreversed _).1 (Rollback.mem_of_reached hx)
    refine (restorable_of_not_lacks (hrec _ hop) hreq (hnone _ hop) fun hv =>
      hfiles hv _ hop hreq).congr hs hb fun l hl hsome => ?_
    obtain ⟨e, he⟩ := Option.isSome_iff_exists.1 hsome
    rw [he, (hspared x hx).at_eq l e he (houtside _ hop hreq l hl)]
  refine ⟨fun x hx hreq => ?_, fun s hs => ?_⟩
  · obtain ⟨c, hc, hgood⟩ := hrestorable x hx hreq
    exact ⟨c, by rw [m.backups.read_eq, hc], hgood⟩
  · let m₁ := m.attempted.publish (.rollbackStarted t.id)
    have hq₁ : (m₁.previewOf t).run fs = (q, fs) := hq
    obtain ⟨herrors, hid⟩ := Manager.execute_proceeds options hstatus hq₁ hcan
    have ht₁ : m.attempted.transaction? id = some t := ht
    simp only [Manager.rollback, ht₁, run_bind] at hs
    rcases Manager.mem_errors_finalize hs with hs | hs
    · rw [herrors] at hs
      obtain ⟨x, hx, e, he, rfl⟩ := (Rollback.mem_errors_revertEach hs).resolve_left (by simp)
      exact .inl ⟨x, hx, e, he, rfl, fun hreq => (hrestorable x hx hreq).failure hreq he,
        fun hreq => (Rollback.plain_revert _ _ _ _ hreq).failure e he⟩
    · rw [hid] at hs
      obtain ⟨e, he, rfl⟩ := hs
      refine .inr ⟨((m₁.execute options t).run fs).2, e, ?_, rfl⟩
      rw [← he]
      exact Manager.markRolledBack_congr rfl rfl

namespace Sample

def trusting : Manager := Manager.fresh (.ofString "/p") { verifyChecksums := false } ⟨256, []⟩ ⟨0, 0⟩

def trusted : Operation :=
  trusting.operationOf "o" ⟨0, 0⟩ .update (.ofString "f") {} (some (Utf8.encode "old"))

def trustedTransaction : Transaction :=
  ⟨"t", "", "", "", [trusted], ⟨0, 0⟩, .completed, none, []⟩

def trustingLater : Manager := { trusting with history := [("t", trustedTransaction)] }

/-- The project after that, with a backup of the given permission bits. -/
def backedUp (mode : Nat) : FileSystem :=
  { FileSystem.empty with
    entries :=
      let project := [Utf8.encode "p"]
      let state := Utf8.encode ".xaheen" :: project
      let backups := Utf8.encode "backups" :: state
      [(project, .directory 0o755), (Utf8.encode "f" :: project, .file 0o644 (Utf8.encode "new")),
        (state, .directory 0o755), (Utf8.encode "transactions" :: state, .directory 0o755),
        (backups, .directory 0o755),
        (Utf8.encode "o.bak" :: backups, .file mode (Utf8.encode "old"))] }

end Sample

theorem previewed_backups_hold_one_overwritten :
    (reached Sample.trustingLater.backups false {} Sample.trustedTransaction.reversed
        (Sample.backedUp 0o600)).map (fun x => (x.1.id, x.1.requiresBackup)) = [("o", true)] ∧
      ∀ x ∈ reached Sample.trustingLater.backups false {} Sample.trustedTransaction.reversed
          (Sample.backedUp 0o600), x.1.requiresBackup = true →
        ∃ c, (Sample.trustingLater.backups.read x.1.id).run x.2 = (.ok (some c), x.2) ∧
          isDamaged false x.1 c = false := by
  have hrec : ∀ op ∈ Sample.trustedTransaction.operations, op.IsRecorded := by
    intro op hop
    rw [List.mem_singleton.1 hop]
    exact Manager.operationOf_isRecorded rfl _ _ _ _
  have hfiles : ∀ op ∈ Sample.trustedTransaction.operations, op.requiresBackup = true →
      ∀ l e, (Sample.backedUp 0o600).entryAt false (Sample.trustingLater.backups.pathFor op.id) =
        .ok (l, e) → ∃ mode c, e = .file mode c ∧ e.isReadable = true := by
    intro op hop _ l e h
    have hentry : ((Sample.backedUp 0o600).entryAt false
        (Sample.trustingLater.backups.pathFor "o")).toOption.map (·.2) =
          some (.file 0o600 (Utf8.encode "old")) := by decide +kernel
    rw [List.mem_singleton.1 hop, show Sample.trusted.id = "o" from rfl] at h
    rw [h] at hentry
    obtain rfl : e = .file 0o600 (Utf8.encode "old") := Option.some.inj hentry
    exact ⟨_, _, rfl, by decide⟩
  obtain ⟨p, hp, hreports⟩ := Sample.trustingLater.previewOf_eq Sample.trustedTransaction
    (Sample.backedUp 0o600)
  have hpreview : (Sample.trustingLater.preview "t").run (Sample.backedUp 0o600) =
      (.ok p, Sample.backedUp 0o600) := by
    rw [Manager.preview, show Sample.trustingLater.transaction? "t" = some Sample.trustedTransaction from rfl]
    simp only [run_bind, hp, run_pure]
  have hcan : p.canProceed = true := by
    by_contra h
    exact absurd (hreports.blocked.1 (by simpa using h)) (by decide +kernel)
  have hholds : _ ∧ ∀ s ∈ ((Sample.trustingLater.rollback ⟨1, 0⟩ {} "t").run
      (Sample.backedUp 0o600)).1.1.errors, _ :=
    previewed_backups_hold (t := Sample.trustedTransaction) rfl rfl hrec rfl (by decide +kernel)
      (fun _ => hfiles) (by decide +kernel) (by rw [hpreview]) hcan
  exact ⟨by decide +kernel, hholds.1⟩

/-- Without checksums a backup that is a file but cannot be read lets a preview proceed, and the
rollback fails to read it. -/
theorem previewed_backup_unreadable :
    Sample.trustedTransaction.operations = [Sample.trusted] ∧ Sample.trusted.IsRecorded ∧
      (Sample.backedUp 0).Sound ∧
      (∀ l ∈ (Sample.backedUp 0).route (Sample.trustingLater.backups.pathFor "o"),
        ¬Disturbs Sample.trustingLater.backups false {} Sample.trustedTransaction.reversed
          (Sample.backedUp 0) l) ∧
      ((Sample.backedUp 0).entryAt false (Sample.trustingLater.backups.pathFor "o")).toOption.map
        (·.2.kind) = some .file ∧
      ((Sample.trustingLater.preview "t").run (Sample.backedUp 0)).1.toOption.map (·.canProceed) =
        some true ∧
      ((Sample.trustingLater.rollback ⟨1, 0⟩ {} "t").run (Sample.backedUp 0)).1.1.errors =
        ["UPDATE /p/f: IO error: Permission denied (os error 13)"] :=
  ⟨rfl, Manager.operationOf_isRecorded rfl _ _ _ _, by decide +kernel, by decide +kernel,
    by decide +kernel, by decide +kernel, by decide +kernel⟩

end Retrace
