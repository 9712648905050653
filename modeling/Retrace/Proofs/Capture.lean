import Retrace.Proofs.Atomic
import Retrace.Proofs.Json.Value
import Retrace.Proofs.Recording
import Retrace.Proofs.Restoration

/-!
What an operation keeps of the moment before its change. A file is read through all links, its bytes
are recorded as their digest and as text, lossily where they are none, and a backup with exactly those
bytes comes to a free place where one is needed (`add_captures`). Nothing else changes on disk; an
operation that could not be recorded has changed nothing at all (`add_backing`).
-/
namespace Retrace

open FileSystem Files Retrace.Path Script

namespace FileSystem

variable {fs : FileSystem} {p : Path}

def contentAt (fs : FileSystem) (p : Path) : Option Bytes :=
  match fs.entryAt true p with
  | .ok (_, .file _ c) => some c
  | _ => none

theorem linkStatus_of_status {kind : FileKind} (h : fs.status p = .ok kind) :
    (fs.linkStatus p).isOk = true := by
  have hnul := noNul_of_named h
  have hentry := eq_ok_of_named h
  cases hx : fs.entryAt true p with
  | error e => rw [hx] at hentry; cases hentry
  | ok x =>
    obtain ⟨y, hy⟩ := entryAt_unfollowed hx
    rw [linkStatus, named_of_noNul hnul, hy]
    rfl

end FileSystem

/-- A copy that was taken is the content of the file that its path leads to. -/
theorem Files.snapshot_ok {fs : FileSystem} {p : Path} {previous : Option Bytes}
    (h : ((snapshot p).run.run fs).1 = .ok previous) : previous = fs.contentAt p := by
  simp only [snapshot, attempt, ExceptT.run_mk, run_bind, run_ask, Call.perform] at h
  cases hnul : p.hasNul with
  | true =>
    have hstatus : fs.status p = .error .nulByte := by simp [status, FileSystem.named, hnul]
    rw [hstatus] at h
    cases h
  | false =>
    rw [contentAt]
    cases hx : fs.entryAt true p with
    | error e =>
      rw [status, named_of_noNul hnul, hx] at h
      simp only [Except.map, Except.mapError] at h
      split at h
      · exact (Except.ok.inj h).symm
      · cases h
    | ok x =>
      obtain ⟨l, e⟩ := x
      rw [status, named_of_noNul hnul, hx] at h
      cases e with
      | file m c =>
        have hread : fs.read p =
            if (Entry.file m c).isReadable then .ok c else .error (.errno .denied) := by
          rw [FileSystem.read, named_of_noNul hnul, hx]
          cases hr : (Entry.file m c).isReadable <;>
            simp [Bind.bind, Except.bind, Except.mapError, hr]
        simp only [Except.map, Except.mapError, Entry.kind, run_bind, run_ask, Call.perform, hread] at h
        cases hr : (Entry.file m c).isReadable with
        | true => simpa [hr] using h.symm
        | false => simp [hr] at h
      | directory m => exact (Except.ok.inj h).symm
      | link t => exact (Except.ok.inj h).symm

namespace Manager

variable {m m' : Manager} {fs fs' : FileSystem} {id r : String} {now : Instant}
  {kind : Operation.Kind} {p : Path} {details : Operation.Details} {op : Operation} {t : Transaction}

/-- The bytes before a change: those that the caller gives, else those of the file that the path leads
to. -/
def bytesBefore (m : Manager) (fs : FileSystem) (p : Path) (details : Operation.Details) :
    Option Bytes :=
  match details.previousContent with
  | some content => some (Utf8.encode content)
  | none => fs.contentAt (m.root.normalize p)

theorem previousBytes_ok {previous : Option Bytes}
    (h : ((previousBytes (m.root.normalize p) details.previousContent).run fs).1 = .ok previous) :
    previous = m.bytesBefore fs p details := by
  rw [bytesBefore]
  cases hc : details.previousContent with
  | some content =>
    rw [hc] at h
    exact (Except.ok.inj h).symm
  | none =>
    rw [hc] at h
    exact snapshot_ok h

/-! ### The backup -/

/-- What comes of the backup of an operation: it is not needed, or it has come to its free place, or
nothing has changed. -/
inductive Backing (m : Manager) (fs : FileSystem) (op : Operation) (previous : Option Bytes) :
    Except Error Unit → FileSystem → Prop
  | unneeded (needless : op.requiresBackup = false) : Backing m fs op previous (.ok ()) fs
  | written {b : Bytes} {d : Location} {fs' : FileSystem} (needed : op.requiresBackup = true)
    (known : previous = some b) (room : Room fs m.store.backupsDirectory d)
    (aims : Aims fs m.store.backupsDirectory d (backupName op.id))
    (free : fs.at (backupName op.id :: d) = none)
    (edit : Edit fs (backupName op.id :: d) (some (.file 0o600 b)) fs') :
    Backing m fs op previous (.ok ()) fs'
  | failed {e : Error} {fs' : FileSystem} (sound : fs'.Sound) (same : ∀ k, fs'.at k = fs.at k) :
    Backing m fs op previous (.error e) fs'

structure Open (m : Manager) (fs : FileSystem) (id : String) : Prop where
  sound : fs.Sound
  absolute : m.store.root.isAbsolute = true
  plain : Plain id
  there : fs.status m.store.backupsDirectory = .ok .directory
  vacant : fs.Vacant (m.backups.pathFor id)

theorem backUp_backing {previous : Option Bytes} (h : m.Open fs op.id)
    (hknown : previous = none → op.requiresBackup = false) :
    Backing m fs op previous ((m.backUp op previous).run fs).1 ((m.backUp op previous).run fs).2 := by
  cases hneeded : op.requiresBackup with
  | false =>
    have hrun : (m.backUp op previous).run fs = (.ok (), fs) := by
      cases previous <;> simp [backUp, hneeded]
    rw [hrun]
    exact .unneeded hneeded
  | true =>
    cases previous with
    | none => rw [hknown rfl] at hneeded; cases hneeded
    | some b =>
      have hplaced := writeAtomic_vacant (f := m.store.backupsDirectory) (w := backupName op.id)
        h.sound (Path.isAbsolute_join_name h.absolute isName_folders.2.1)
        (Path.tidy_join_name h.absolute isName_folders.2.1) (isName_backupName h.plain)
        (linkStatus_of_status h.there) h.vacant b
      have hpath : m.backups.pathFor op.id = m.store.backupsDirectory.join ⟨backupName op.id⟩ := rfl
      simp only [backUp, hneeded, if_true, Backups.write, run_bind, hpath]
      generalize (writeAtomic (m.store.backupsDirectory.join ⟨backupName op.id⟩) b).run.run fs = out
        at hplaced ⊢
      obtain ⟨r, fs'⟩ := out
      cases hplaced with
      | placed hroom haims hfree hedit => exact .written hneeded rfl hroom haims hfree hedit
      | failed hsound hsame => exact .failed hsound hsame

/-- What comes of an operation that is to be added: it is recorded with its backup, or nothing has
changed. -/
theorem add_backing (h : m.Open fs id) (now : Instant) (kind : Operation.Kind) (p : Path)
    (details : Operation.Details) :
    (∃ e fs', (m.add id now kind p details).run fs = ((.error e, m), fs') ∧ fs'.Sound ∧
        ∀ k, fs'.at k = fs.at k) ∨
      ∃ t fs', m.current = some t ∧ (m.add id now kind p details).run fs =
        ((.ok id, m.append t (m.operationOf id now kind p details (m.bytesBefore fs p details))), fs') ∧
        Backing m fs (m.operationOf id now kind p details (m.bytesBefore fs p details))
          (m.bytesBefore fs p details) (.ok ()) fs' := by
  rw [add]
  cases hc : m.current with
  | none => exact .inl ⟨_, fs, rfl, h.sound, fun _ => rfl⟩
  | some t =>
    dsimp only
    split
    · exact .inl ⟨_, fs, rfl, h.sound, fun _ => rfl⟩
    · rw [run_bind, (looks_previousBytes _ _).run fs]
      cases hp : ((previousBytes (m.root.normalize p) details.previousContent).run fs).1 with
      | error e => exact .inl ⟨_, fs, rfl, h.sound, fun _ => rfl⟩
      | ok previous =>
        obtain rfl := previousBytes_ok hp
        dsimp only
        rw [run_bind]
        have hbacking : Backing m fs
            (m.operationOf id now kind p details (m.bytesBefore fs p details))
            (m.bytesBefore fs p details) _ _ := backUp_backing h fun hnone => by
          simp [requiresBackup_operationOf, hnone]
        generalize (m.backUp (m.operationOf id now kind p details (m.bytesBefore fs p details))
          (m.bytesBefore fs p details)).run fs = out at hbacking ⊢
        obtain ⟨r, fs'⟩ := out
        cases r with
        | ok u => exact .inr ⟨t, fs', rfl, rfl, hbacking⟩
        | error e =>
          cases hbacking with
          | failed hsound hsame => exact .inl ⟨e, fs', rfl, hsound, hsame⟩

/-! ### The record -/

/-- What an operation says about a file before its change. -/
structure Captures (m : Manager) (id : String) (now : Instant) (kind : Operation.Kind) (p : Path)
    (details : Operation.Details) (before : Option Bytes) (op : Operation) : Prop where
  id : op.id = id
  kind : op.kind = kind
  path : op.path = m.root.normalize p
  previousPath : op.previousPath = details.previousPath.map m.root.normalize
  given : op.currentContent = details.currentContent ∧ op.previousMode = details.previousMode ∧
    op.timestamp = now
  checksum : op.checksum = before.map Sha256.hexDigest
  known : op.previousContent.isSome = before.isSome
  /-- The recorded text stands for exactly the bytes where they are text, and only there. -/
  exact : ∀ b s, before = some b → op.previousContent = some s →
    (Utf8.encode s = b ↔ (Utf8.decode? b).isSome)
  plain : (∀ b, before = some b → (Utf8.decode? b).isSome) → op.metadata = details.metadata
  lossy : ∀ b, before = some b → Utf8.decode? b = none → op.previousContent = some (Utf8.lossy b) ∧
    op.metadata.lookup "previous_content_lossy" = some (.bool true) ∧
    ∀ name ≠ "previous_content_lossy", op.metadata.lookup name = details.metadata.lookup name
  backup : op.requiresBackup = true ↔
    (op.kind = .update ∨ op.kind = .delete) ∧ ∃ b, before = some b ∧ b ≠ []

theorem operationOf_captures (m : Manager) (id : String) (now : Instant) (kind : Operation.Kind)
    (p : Path) (details : Operation.Details) (before : Option Bytes) :
    m.Captures id now kind p details before (m.operationOf id now kind p details before) where
  id := rfl
  kind := rfl
  path := rfl
  previousPath := rfl
  given := ⟨rfl, rfl, rfl⟩
  checksum := rfl
  known := by simp [operationOf]
  exact := by
    rintro b s rfl hs
    obtain rfl : Utf8.lossy b = s := Option.some.inj hs
    exact Utf8.encode_lossy_eq_iff b
  plain := by
    intro h
    cases before with
    | none => rfl
    | some b =>
      obtain ⟨s, hs⟩ := Option.isSome_iff_exists.1 (h b rfl)
      simp [operationOf, hs]
  lossy := by
    rintro b rfl hb
    have hmarked : (m.operationOf id now kind p details (some b)).metadata =
        details.metadata.set "previous_content_lossy" (.bool true) := by simp [operationOf, hb]
    rw [hmarked, Metadata.set]
    exact ⟨rfl, by rw [Json.lookup_insertField, if_pos rfl], fun name hne => by
      rw [Json.lookup_insertField, if_neg hne]⟩
  backup := by
    rw [requiresBackup_operationOf, Bool.and_eq_true, Operation.Kind.needsBackup, Bool.or_eq_true,
      decide_eq_true_eq, decide_eq_true_eq]
    cases before <;> simp [operationOf]

/-- An operation comes to the end of the transaction under way, is published and counted, and nothing
else in the manager changes. -/
structure Appends (m : Manager) (t : Transaction) (op : Operation) (m' : Manager) : Prop where
  current : m'.current = some { t with operations := t.operations ++ [op] }
  history : m'.history = m.history
  checkpoints : m'.checkpoints = m.checkpoints
  events : m'.events = m.events.publish (.operationExecuted t.id op.id op.kind op.path)
  counters : m'.counters = { m.counters with operationsRecorded := m.counters.operationsRecorded + 1 }
  place : m'.root = m.root ∧ m'.settings = m.settings ∧ m'.store = m.store

/-- An operation that was added is at the end of the transaction under way and says exactly what its
file was before. It has its backup, a new file with the same bytes, where content is replaced that is
known and not empty; nothing else has changed on disk. -/
theorem add_captures (hs : fs.Sound) (hroot : m.store.root.isAbsolute = true) (hid : Plain id)
    (hthere : fs.status (m.store.root.child "backups") = .ok .directory)
    (hvacant : fs.Vacant ((m.store.root.child "backups").child (id ++ ".bak")))
    (h : (m.add id now kind p details).run fs = ((.ok r, m'), fs')) :
    ∃ t op, r = id ∧ m.current = some t ∧ m.Appends t op m' ∧
      m.Captures id now kind p details (m.bytesBefore fs p details) op ∧
      (op.requiresBackup = false ∧ fs' = fs ∨
        op.requiresBackup = true ∧ ∃ b l, m.bytesBefore fs p details = some b ∧
          fs.spot? ((m.store.root.child "backups").child (id ++ ".bak")) = some l ∧
          fs.at l = none ∧ Edit fs l (some (.file 0o600 b)) fs') := by
  rcases add_backing ⟨hs, hroot, hid, hthere, hvacant⟩ now kind p details with
    ⟨e, fs₁, hrun, -⟩ | ⟨t, fs₁, hcurrent, hrun, hbacking⟩
  · rw [h] at hrun
    cases hrun
  · rw [h] at hrun
    simp only [Prod.mk.injEq, Except.ok.injEq] at hrun
    obtain ⟨⟨rfl, rfl⟩, rfl⟩ := hrun
    refine ⟨t, _, rfl, hcurrent, ⟨rfl, rfl, rfl, rfl, rfl, rfl, rfl, rfl⟩,
      operationOf_captures m r now kind p details _, ?_⟩
    cases hbacking with
    | unneeded hneedless => exact .inl ⟨hneedless, rfl⟩
    | written hneeded hknown hroom haims hfree hedit =>
      exact .inr ⟨hneeded, _, _, hknown, haims.spot?, hfree, hedit⟩

end Manager

namespace Sample

def untexted : FileSystem := tree.insert [Utf8.encode "f", Utf8.encode "p"] (.file 0o644 [255])

def capturing : (Except Error String × Manager) × FileSystem :=
  (started.add "o" ⟨0, 0⟩ .update (.ofString "f") {}).run untexted

end Sample

namespace Manager

theorem add_captures_no_text :
    Sample.started.bytesBefore Sample.untexted (.ofString "f") {} = some [255] ∧
      ∃ t op, Sample.started.current = some t ∧ Sample.started.Appends t op Sample.capturing.1.2 ∧
        Sample.started.Captures "o" ⟨0, 0⟩ .update (.ofString "f") {} (some [255]) op ∧
        ∃ l, Sample.untexted.spot? ((Sample.started.store.root.child "backups").child "o.bak") = some l ∧
          Edit Sample.untexted l (some (.file 0o600 [255])) Sample.capturing.2 := by
  have hbytes : Sample.started.bytesBefore Sample.untexted (.ofString "f") {} = some [255] := by
    decide +kernel
  have hok : Sample.capturing.1.1 = .ok "o" := by decide +kernel
  have hrun : (Sample.started.add "o" ⟨0, 0⟩ .update (.ofString "f") {}).run Sample.untexted =
      ((.ok "o", Sample.capturing.1.2), Sample.capturing.2) := by
    rw [← hok, ← Sample.capturing]
  obtain ⟨t, op, -, hcurrent, happends, hcaptures, hbackup⟩ := add_captures (by decide +kernel)
    (by decide +kernel) (by decide +kernel) (by decide +kernel) (by decide +kernel) hrun
  rw [hbytes] at hcaptures hbackup
  refine ⟨hbytes, t, op, hcurrent, happends, hcaptures, ?_⟩
  have hneeded : op.requiresBackup = true :=
    hcaptures.backup.2 ⟨.inl hcaptures.kind, _, rfl, by decide⟩
  rcases hbackup with ⟨hneedless, -⟩ | ⟨-, b, l, hb, hspot, -, hedit⟩
  · rw [hneeded] at hneedless
    cases hneedless
  · obtain rfl : [255] = b := Option.some.inj hb
    exact ⟨l, hspot, hedit⟩

end Manager
end Retrace
