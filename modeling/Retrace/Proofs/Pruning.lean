import Retrace.Proofs.Deletion
import Retrace.Proofs.Time.Order

/-!
Letting go of transactions, whatever their directories lead to. What goes is decided by the tree
before the first one goes, and so does not depend on their order: the transactions whose documents
can be removed, with all of their backups that can be (`purgeEach_trimmed`). All other places are as
they were, and what is kept reads as before (`Trimmed.reduced`).
-/
namespace Retrace

open FileSystem Script
open Retrace.Path (NamesFile IsName)

/-! ### Entries that are removed -/

namespace Index

variable {α : Type} {x : Index α} {k : String}

theorem mem_keys_remove {j : String} (h : j ∈ (x.remove k).map (·.1)) : j ≠ k ∧ j ∈ x.map (·.1) := by
  induction x with
  | nil => simp [remove] at h
  | cons a r ih =>
    obtain ⟨i, v⟩ := a
    rw [remove] at h
    split at h
    · exact ⟨(ih h).1, List.mem_cons_of_mem _ (ih h).2⟩
    · next hne =>
      rcases List.mem_cons.1 h with rfl | h
      · exact ⟨hne, List.mem_cons_self⟩
      · exact ⟨(ih h).1, List.mem_cons_of_mem _ (ih h).2⟩

theorem nodup_remove (h : (x.map (·.1)).Nodup) (k : String) : ((x.remove k).map (·.1)).Nodup := by
  induction x with
  | nil => exact h
  | cons a r ih =>
    obtain ⟨i, v⟩ := a
    obtain ⟨hi, hr⟩ := List.nodup_cons.1 h
    rw [remove]
    split
    · exact ih hr
    · exact List.nodup_cons.2 ⟨fun hmem => hi (mem_keys_remove hmem).2, ih hr⟩

theorem remove_of_not_mem (h : k ∉ x.map (·.1)) : x.remove k = x := by
  induction x with
  | nil => rfl
  | cons a r ih =>
    obtain ⟨i, v⟩ := a
    rw [List.map_cons, List.mem_cons, not_or] at h
    rw [remove, if_neg (Ne.symm h.1), ih h.2]

theorem length_remove (h : (x.map (·.1)).Nodup) (hk : k ∈ x.map (·.1)) :
    (x.remove k).length + 1 = x.length := by
  induction x with
  | nil => simp at hk
  | cons a r ih =>
    obtain ⟨i, v⟩ := a
    obtain ⟨hi, hr⟩ := List.nodup_cons.1 h
    rw [remove]
    split
    · next heq => rw [remove_of_not_mem (heq ▸ hi), List.length_cons]
    · next hne =>
      rw [List.length_cons, List.length_cons,
        ih hr ((List.mem_cons.1 hk).resolve_left fun hc => hne hc.symm)]

theorem mem_keys_iff : k ∈ x.map (·.1) ↔ (x.get? k).isSome := by
  induction x with
  | nil => simp [get?]
  | cons a r ih =>
    obtain ⟨i, v⟩ := a
    simp only [get?] at ih
    by_cases hk : k = i <;> simp [get?, List.lookup_cons, hk, beq_eq_false_iff_ne.mpr, ih]

end Index

variable {m m' m'' : Manager} {fs fs' fs'' : FileSystem} {t u : Transaction} {id : String} {now : Instant}
  {Gone Gone' : String → Prop} {days : Option Nat} {p : Path}

/-! ### Files removed one after the other -/

def FileSystem.removing (fs : FileSystem) (ps : List Path) : FileSystem :=
  ps.foldl (fun k p => match k.removeFile p with
    | .ok k' => k'
    | .error _ => k) fs

theorem FileSystem.removing_append (fs : FileSystem) (ps qs : List Path) :
    fs.removing (ps ++ qs) = (fs.removing ps).removing qs := List.foldl_append

theorem Files.removeIfPresent_removing (p : Path) (fs : FileSystem) :
    ((removeIfPresent p).run.run fs).2 = fs.removing [p] := by
  rw [removeIfPresent_eq, FileSystem.removing, List.foldl_cons, List.foldl_nil]
  cases fs.removeFile p <;> rfl

theorem Backups.removeEach_removing (b : Backups) (ops : List Operation) (fs : FileSystem) :
    ((b.removeEach ops).run fs).2 =
      fs.removing ((ops.filter (·.requiresBackup)).map fun op => b.pathFor op.id) := by
  induction ops generalizing fs with
  | nil => rfl
  | cons op ops ih =>
    rw [removeEach]
    by_cases hreq : op.requiresBackup = true
    · have hfirst := Files.removeIfPresent_removing (b.pathFor op.id) fs
      rw [if_pos hreq, List.filter_cons_of_pos hreq, List.map_cons, ← List.singleton_append,
        FileSystem.removing_append, ← hfirst, run_bind, remove]
      generalize (Files.removeIfPresent (b.pathFor op.id)).run.run fs = out
      obtain ⟨x, fs₁⟩ := out
      rw [run_bind, ← ih]
      rcases x with e | ⟨_ | _⟩ <;> rfl
    · rw [if_neg hreq, List.filter_cons_of_neg hreq, pure_bind, run_bind, ← ih]
      rfl

namespace Manager

def IsFileOf (m : Manager) (id : String) (p : Path) : Prop :=
  ∃ t, m.transaction? id = some t ∧ (p = m.store.transactionPath id ∨
    ∃ op ∈ t.operations, op.requiresBackup = true ∧ p = m.backups.pathFor op.id)

theorem Fewer.isFileOf (h : Fewer m m') (hp : m'.IsFileOf id p) : m.IsFileOf id p := by
  obtain ⟨t, ht, hfile⟩ := hp
  have hstore : m'.store = m.store := by rw [h.others]
  rw [backups, hstore] at hfile
  exact ⟨t, h.kept id t ht, hfile⟩

theorem purge_removing (m : Manager) (id : String) (fs : FileSystem) :
    ∃ ps, ((m.purge id).run fs).2 = fs.removing ps ∧ ∀ p ∈ ps, m.IsFileOf id p := by
  rw [purge]
  cases ht : m.transaction? id with
  | none => exact ⟨[], rfl, fun p hp => absurd hp List.not_mem_nil⟩
  | some t =>
    have hfirst := Files.removeIfPresent_removing (m.store.transactionPath id) fs
    rw [run_bind, Store.deleteTransaction]
    generalize (Files.removeIfPresent (m.store.transactionPath id)).run.run fs = out at hfirst
    obtain ⟨x, fs₁⟩ := out
    cases x with
    | error e =>
      refine ⟨[m.store.transactionPath id], hfirst, fun p hp => ?_⟩
      exact ⟨t, ht, .inl (List.mem_singleton.1 hp)⟩
    | ok gone =>
      have hbackups := m.backups.removeEach_removing t.operations fs₁
      refine ⟨[m.store.transactionPath id] ++
        (t.operations.filter (·.requiresBackup)).map fun op => m.backups.pathFor op.id, ?_, fun p hp => ?_⟩
      · rw [FileSystem.removing_append, ← hfirst, ← hbackups]
        simp only [run_bind, run_pure, Backups.removeFor]
      · refine ⟨t, ht, ?_⟩
        rcases List.mem_append.1 hp with hp | hp
        · exact .inl (List.mem_singleton.1 hp)
        · obtain ⟨op, hop, rfl⟩ := List.mem_map.1 hp
          exact .inr ⟨op, (List.mem_filter.1 hop).1, (List.mem_filter.1 hop).2, rfl⟩

theorem purgeEach_removing (m : Manager) (ids : List String) (fs : FileSystem) :
    ∃ ps, ((m.purgeEach ids).run fs).2 = fs.removing ps ∧ ∀ p ∈ ps, ∃ id ∈ ids, m.IsFileOf id p := by
  induction ids generalizing m fs with
  | nil => exact ⟨[], rfl, fun p hp => absurd hp List.not_mem_nil⟩
  | cons id ids ih =>
    obtain ⟨ps, hps, hfiles⟩ := m.purge_removing id fs
    have hfewer : Fewer m ((m.purge id).run fs).1.2 := purge_fewer m id
    simp only [purgeEach, run_bind, run_pure]
    obtain ⟨qs, hqs, hrest⟩ := ih ((m.purge id).run fs).1.2 ((m.purge id).run fs).2
    refine ⟨ps ++ qs, by rw [FileSystem.removing_append, ← hps, hqs], fun p hp => ?_⟩
    rcases List.mem_append.1 hp with hp | hp
    · exact ⟨id, List.mem_cons_self, hfiles p hp⟩
    · obtain ⟨j, hj, hfile⟩ := hrest p hp
      exact ⟨j, List.mem_cons_of_mem _ hj, hfewer.isFileOf hfile⟩

/-! ### By age -/

theorem olderFirst_iff : olderFirst t u = true ↔
    t.timestamp.lt u.timestamp = true ∨ t.timestamp = u.timestamp ∧ t.id ≤ u.id := by
  simp [olderFirst]

theorem olderFirst_trans (t u v : Transaction) (h : olderFirst t u = true) (h' : olderFirst u v = true) :
    olderFirst t v = true := by
  rw [olderFirst_iff] at *
  rcases h with h | ⟨h, hid⟩ <;> rcases h' with h' | ⟨h', hid'⟩
  · exact .inl (Instant.lt_trans h h')
  · exact .inl (h' ▸ h)
  · exact .inl (h ▸ h')
  · exact .inr ⟨h.trans h', String.le_trans hid hid'⟩

theorem olderFirst_total (t u : Transaction) : (olderFirst t u || olderFirst u t) = true := by
  rw [Bool.or_eq_true, olderFirst_iff, olderFirst_iff]
  rcases Instant.lt_trichotomy t.timestamp u.timestamp with h | h | h
  · exact .inl (.inl h)
  · exact (String.le_total t.id u.id).imp (fun hid => .inr ⟨h, hid⟩) fun hid => .inr ⟨h.symm, hid⟩
  · exact .inr (.inl h)

theorem exists_excess (m : Manager) : ∃ older newer : List Transaction, m.excess = older.map (·.id) ∧
    (older ++ newer).Perm m.history.values ∧ (older ++ newer).Pairwise (fun t u => olderFirst t u = true) ∧
    newer.length = min m.settings.maxTransactions m.history.length := by
  have hlength : (m.history.values.mergeSort olderFirst).length = m.history.length := by
    rw [List.length_mergeSort, Index.values, List.length_map]
  refine ⟨_, (m.history.values.mergeSort olderFirst).drop
    ((m.history.values.mergeSort olderFirst).length - m.settings.maxTransactions), rfl, ?_, ?_, ?_⟩
  · rw [List.take_append_drop]
    exact List.mergeSort_perm _ _
  · rw [List.take_append_drop]
    exact List.pairwise_mergeSort olderFirst_trans olderFirst_total _
  · rw [List.length_drop, hlength]
    omega

end Manager

/-! ### The files of a store -/

theorem Files.removeIfPresent_dropped (hs : fs.Sound)
    (hlink : ∀ l t, fs.spot? p = some l → fs.at l ≠ some (.link t)) :
    Dropped fs (· = p) ((removeIfPresent p).run.run fs).2 := by
  rcases removeIfPresent_result hs p with ⟨hstuck, e, hrun⟩ | ⟨hfree, b, fs', hrun, hwithout, hthinned⟩
  · rw [hrun]
    exact .refl hs fun q hq => by rw [hq, hstuck]
  · rw [hrun]
    exact ⟨hthinned hlink, fun q hq _ l hl => hwithout.gone l (hq ▸ hl),
      fun l hl => hwithout.others l (hl p rfl hfree)⟩

/-- All backups that can be removed go. -/
theorem Backups.removeEach_dropped {b : Backups} {ops : List Operation} (hs : fs.Sound)
    (hname : ∀ op ∈ ops, (b.pathFor op.id).NamesFile)
    (hlink : ∀ op ∈ ops, op.requiresBackup = true → ∀ l t, fs.spot? (b.pathFor op.id) = some l →
      fs.at l ≠ some (.link t)) :
    Dropped fs (fun p => ∃ op ∈ ops, op.requiresBackup = true ∧ p = b.pathFor op.id)
      ((b.removeEach ops).run fs).2 := by
  induction ops generalizing fs with
  | nil => exact .refl hs fun p hp => absurd hp.choose_spec.1 List.not_mem_nil
  | cons o ops ih =>
    have hname' : ∀ op ∈ ops, (b.pathFor op.id).NamesFile := fun op h => hname op (List.mem_cons_of_mem _ h)
    have hlink' : ∀ op ∈ ops, op.requiresBackup = true → ∀ l t, fs.spot? (b.pathFor op.id) = some l →
        fs.at l ≠ some (.link t) := fun op h => hlink op (List.mem_cons_of_mem _ h)
    rw [removeEach]
    by_cases hreq : o.requiresBackup = true
    · have hfirst := Files.removeIfPresent_dropped hs (hlink o List.mem_cons_self hreq)
      rw [if_pos hreq, run_bind, remove]
      generalize (Files.removeIfPresent (b.pathFor o.id)).run.run fs = out at hfirst
      obtain ⟨r, fs₁⟩ := out
      have hrest := @ih fs₁ hfirst.thinned.sound hname' fun op hop hneeds l t hl hc => by
        rw [hfirst.thinned.refiled.spot? hs (hname' op hop).isAbsolute] at hl
        exact hlink' op hop hneeds l t hl (hfirst.thinned.refiled.link_iff.1 hc)
      have hboth : Dropped fs (fun p => ∃ op ∈ o :: ops, op.requiresBackup = true ∧ p = b.pathFor op.id)
          ((b.removeEach ops).run fs₁).2 := by
        refine (hfirst.trans hs hrest ?_).congr fun p => by simp [hreq]
        rintro p ⟨op, hop, -, rfl⟩
        exact hname' op hop
      rw [run_bind]
      rcases r with e | ⟨_ | _⟩ <;> exact hboth
    · rw [if_neg hreq, pure_bind, run_bind]
      exact (ih hs hname' hlink').congr fun p => by simp [hreq]

namespace Manager

def filesOf (m : Manager) (t : Transaction) : List Path :=
  m.store.transactionPath t.id ::
    (t.operations.filter (·.requiresBackup)).map fun op => m.backups.pathFor op.id

theorem mem_filesOf : p ∈ m.filesOf t ↔ p = m.store.transactionPath t.id ∨
    ∃ op ∈ t.operations, op.requiresBackup = true ∧ p = m.backups.pathFor op.id := by
  simp only [filesOf, List.mem_cons, List.mem_map, List.mem_filter, and_assoc, eq_comm]

def Knows (m : Manager) (t : Transaction) : Prop :=
  m.current = some t ∨ ∃ id, m.transaction? id = some t

/-- Every transaction and every operation has an id of its own, and ids make names of files. -/
structure Distinct (m : Manager) : Prop where
  keys : (m.history.map (·.1)).Nodup
  keyed : Keyed m
  current : ∀ t, m.current = some t → m.transaction? t.id = none
  plain : ∀ t, m.Knows t → Plain t.id ∧ ∀ op ∈ t.operations, Plain op.id
  apart : ∀ t u, m.Knows t → m.Knows u → t.id ≠ u.id →
    ∀ op ∈ t.operations, ∀ op' ∈ u.operations, op.id ≠ op'.id
  checkpoints : ∀ id c, m.checkpoint? id = some c → Plain id

/-- No link stands at the place of a document or of a backup, and no checkpoint has the document of a
transaction. -/
structure Unshared (m : Manager) (fs : FileSystem) : Prop where
  files : ∀ t, m.Knows t → ∀ p ∈ m.filesOf t, ∀ l q, fs.spot? p = some l → fs.at l ≠ some (.link q)
  checkpoints : ∀ id c, m.checkpoint? id = some c → ∀ l q, fs.spot? (m.store.checkpointPath id) = some l →
    fs.at l ≠ some (.link q)
  apart : ∀ i t j c, m.transaction? i = some t → m.checkpoint? j = some c → ∀ l,
    fs.spot? (m.store.transactionPath i) = some l → fs.spot? (m.store.checkpointPath j) ≠ some l

section Names

variable (hroot : m.store.root.isAbsolute = true)
include hroot

theorem namesFile_transactionPath (hid : Plain id) : (m.store.transactionPath id).NamesFile :=
  ⟨_, _, Path.isAbsolute_join_name hroot isName_folders.1, Path.tidy_join_name hroot isName_folders.1,
    isName_documentName hid, rfl⟩

theorem namesFile_pathFor (hid : Plain id) : (m.backups.pathFor id).NamesFile :=
  ⟨_, _, Path.isAbsolute_join_name hroot isName_folders.2.1,
    Path.tidy_join_name hroot isName_folders.2.1, isName_backupName hid, rfl⟩

theorem namesFile_checkpointPath (hid : Plain id) : (m.store.checkpointPath id).NamesFile :=
  ⟨_, _, Path.isAbsolute_join_name hroot isName_folders.2.2,
    Path.tidy_join_name hroot isName_folders.2.2, isName_documentName hid, rfl⟩

theorem Distinct.namesFile (hm : m.Distinct) (ht : m.Knows t) (hp : p ∈ m.filesOf t) : p.NamesFile := by
  obtain ⟨hid, hops⟩ := hm.plain t ht
  rcases mem_filesOf.1 hp with rfl | ⟨op, hop, -, rfl⟩
  · exact namesFile_transactionPath hroot hid
  · exact namesFile_pathFor hroot (hops op hop)

theorem documentName_of_spot? {l : Location} (hid : Plain id)
    (hl : fs.spot? (m.store.transactionPath id) = some l) : ∃ d, l = documentName id :: d := by
  obtain ⟨d, -, hd⟩ := cons_of_spot? (Path.isAbsolute_join_name hroot isName_folders.1)
    (isName_documentName hid) hl
  exact ⟨d, hd⟩

theorem backupName_of_spot? {l : Location} (hid : Plain id)
    (hl : fs.spot? (m.backups.pathFor id) = some l) : ∃ d, l = backupName id :: d := by
  obtain ⟨d, -, hd⟩ := cons_of_spot? (Path.isAbsolute_join_name hroot isName_folders.2.1)
    (isName_backupName hid) hl
  exact ⟨d, hd⟩

theorem checkpointName_of_spot? {l : Location} (hid : Plain id)
    (hl : fs.spot? (m.store.checkpointPath id) = some l) : ∃ d, l = documentName id :: d := by
  obtain ⟨d, -, hd⟩ := cons_of_spot? (Path.isAbsolute_join_name hroot isName_folders.2.2)
    (isName_documentName hid) hl
  exact ⟨d, hd⟩

theorem Distinct.name_of_spot? {l : Location} (hm : m.Distinct) (ht : m.Knows t) (hp : p ∈ m.filesOf t)
    (hl : fs.spot? p = some l) : ∃ d, l = documentName t.id :: d ∨
      ∃ op ∈ t.operations, l = backupName op.id :: d := by
  obtain ⟨hid, hops⟩ := hm.plain t ht
  rcases mem_filesOf.1 hp with rfl | ⟨op, hop, -, rfl⟩
  · obtain ⟨d, hd⟩ := documentName_of_spot? hroot hid hl
    exact ⟨d, .inl hd⟩
  · obtain ⟨d, hd⟩ := backupName_of_spot? hroot (hops op hop) hl
    exact ⟨d, .inr ⟨op, hop, hd⟩⟩

theorem Distinct.spot?_ne {q : Path} {l : Location} (hm : m.Distinct) (ht : m.Knows t) (hu : m.Knows u)
    (hne : t.id ≠ u.id) (hp : p ∈ m.filesOf t) (hq : q ∈ m.filesOf u) (hl : fs.spot? p = some l) :
    fs.spot? q ≠ some l := by
  intro hl'
  obtain ⟨d, hd⟩ := hm.name_of_spot? hroot ht hp hl
  obtain ⟨d', hd'⟩ := hm.name_of_spot? hroot hu hq hl'
  rcases hd with rfl | ⟨op, hop, rfl⟩ <;> rcases hd' with hd' | ⟨op', hop', hd'⟩ <;>
    have hname := (List.cons.inj hd').1
  · exact hne (documentName_inj hname)
  · exact documentName_ne_backupName _ _ hname
  · exact documentName_ne_backupName _ _ hname.symm
  · exact hm.apart t u ht hu hne op hop op' hop' (backupName_inj hname)

theorem Unshared.spot?_ne {c : Checkpoint} {l : Location} (hu : m.Unshared fs) (hm : m.Distinct) {j : String}
    (ht : m.transaction? id = some t) (hc : m.checkpoint? j = some c) (hp : p ∈ m.filesOf t)
    (hl : fs.spot? p = some l) : fs.spot? (m.store.checkpointPath j) ≠ some l := by
  intro hl'
  rcases mem_filesOf.1 hp with rfl | ⟨op, hop, -, rfl⟩
  · exact hu.apart id t j c ht hc l (hm.keyed id t ht ▸ hl) hl'
  · obtain ⟨d, rfl⟩ := backupName_of_spot? hroot ((hm.plain t (.inr ⟨id, ht⟩)).2 op hop) hl
    obtain ⟨d', hd'⟩ := checkpointName_of_spot? hroot (hm.checkpoints j c hc) hl'
    exact documentName_ne_backupName _ _ (List.cons.inj hd').1.symm

theorem Unshared.refiled (hu : m.Unshared fs) (hs : fs.Sound) (hm : m.Distinct) (h : Refiled fs fs') :
    m.Unshared fs' where
  files t ht p hp l q hl hc := by
    rw [h.spot? hs (hm.namesFile hroot ht hp).isAbsolute] at hl
    exact hu.files t ht p hp l q hl (h.link_iff.1 hc)
  checkpoints id c hc l q hl hq := by
    rw [h.spot? hs (namesFile_checkpointPath hroot (hm.checkpoints id c hc)).isAbsolute] at hl
    exact hu.checkpoints id c hc l q hl (h.link_iff.1 hq)
  apart i t j c ht hc l hl hl' := by
    have hid : Plain i := hm.keyed i t ht ▸ (hm.plain t (.inr ⟨i, ht⟩)).1
    rw [h.spot? hs (namesFile_transactionPath hroot hid).isAbsolute] at hl
    rw [h.spot? hs (namesFile_checkpointPath hroot (hm.checkpoints j c hc)).isAbsolute] at hl'
    exact hu.apart i t j c ht hc l hl hl'

end Names

/-- Documents and backups have places of their own in a store whose directories are there and hold files
only, and keep them when directories come. -/
theorem unshared_of_keeps {g : Grounds} (hk : Keeps g m.store fs) (hm : m.Distinct)
    (h : Widened fs fs') : m.Unshared fs' := by
  have hspot : ∀ {f : Path} {d : Location} {w : Bytes}, Leads fs f d → IsName w →
      ∀ {l}, fs'.spot? (f.join ⟨w⟩) = some l → l = w :: d := fun hlead hw _ hl => by
    obtain ⟨mode, s, hwalk⟩ := hlead.walk
    exact spot?_join hlead.absolute hw (h.toSpares.walk hk.sound hwalk) hl
  have hlinks : ∀ d ∈ g.folders, ∀ w q, fs'.at (w :: d) ≠ some (.link q) := fun d hd w q hat =>
    hk.not_link hd w q (h.at_eq_some rfl hat)
  refine ⟨fun t ht p hp l q hl => ?_, fun id c hc l q hl => ?_, fun i t j c ht hc l hl hl' => ?_⟩
  · obtain ⟨hid, hops⟩ := hm.plain t ht
    rcases mem_filesOf.1 hp with rfl | ⟨op, hop, -, rfl⟩
    · obtain rfl := hspot hk.transactions (isName_documentName hid) hl
      exact hlinks _ (by simp [Grounds.folders]) _ q
    · obtain rfl := hspot hk.backups (isName_backupName (hops op hop)) hl
      exact hlinks _ (by simp [Grounds.folders]) _ q
  · obtain rfl := hspot hk.checkpoints (isName_documentName (hm.checkpoints id c hc)) hl
    exact hlinks _ (by simp [Grounds.folders]) _ q
  · have hid : Plain i := hm.keyed i t ht ▸ (hm.plain t (.inr ⟨i, ht⟩)).1
    obtain rfl := hspot hk.transactions (isName_documentName hid) hl
    have heq := hspot hk.checkpoints (isName_documentName (hm.checkpoints j c hc)) hl'
    exact hk.transactions_ne_checkpoints (List.cons.inj heq).2

/-! ### Transactions that go -/

structure Trimmed (m : Manager) (Gone : String → Prop) (fs : FileSystem) (m' : Manager)
    (fs' : FileSystem) : Prop where
  manager : m' = { m with history := m'.history }
  keys : (m'.history.map (·.1)).Nodup
  history : ∀ id t, m'.transaction? id = some t ↔ m.transaction? id = some t ∧ ¬Gone id
  files : Dropped fs (fun p => ∃ id t, m.transaction? id = some t ∧ Gone id ∧ p ∈ m.filesOf t) fs'

namespace Trimmed

theorem congr (h : Trimmed m Gone fs m' fs')
    (hGone : ∀ id t, m.transaction? id = some t → (Gone id ↔ Gone' id)) : Trimmed m Gone' fs m' fs' where
  manager := h.manager
  keys := h.keys
  history id t := by
    rw [h.history]
    exact and_congr_right fun ht => not_congr (hGone id t ht)
  files := h.files.congr fun p => exists_congr fun id => exists_congr fun t =>
    and_congr_right fun ht => and_congr_left' (hGone id t ht)

theorem none (hs : fs.Sound) (hkeys : (m.history.map (·.1)).Nodup)
    (hGone : ∀ id t, m.transaction? id = some t → ¬Gone id) : Trimmed m Gone fs m fs where
  manager := rfl
  keys := hkeys
  history id t := ⟨fun ht => ⟨ht, hGone id t ht⟩, fun ht => ht.1⟩
  files := .refl hs fun _ ⟨id, t, ht, hg, _⟩ => absurd hg (hGone id t ht)

theorem store_eq (h : Trimmed m Gone fs m' fs') : m'.store = m.store := by rw [h.manager]

theorem filesOf_eq (h : Trimmed m Gone fs m' fs') (t : Transaction) : m'.filesOf t = m.filesOf t := by
  rw [h.manager]
  rfl

theorem knows (h : Trimmed m Gone fs m' fs') (ht : m'.Knows t) : m.Knows t := by
  rcases ht with ht | ⟨id, ht⟩
  · rw [h.manager] at ht
    exact .inl ht
  · exact .inr ⟨id, ((h.history id t).1 ht).1⟩

theorem distinct (h : Trimmed m Gone fs m' fs') (hm : m.Distinct) : m'.Distinct where
  keys := h.keys
  keyed id t ht := hm.keyed id t ((h.history id t).1 ht).1
  current t ht := by
    have hnone := hm.current t (by rw [h.manager] at ht; exact ht)
    by_contra hsome
    obtain ⟨u, hu⟩ := Option.ne_none_iff_exists'.1 hsome
    rw [((h.history _ u).1 hu).1] at hnone
    cases hnone
  plain t ht := hm.plain t (h.knows ht)
  apart t u ht hu := hm.apart t u (h.knows ht) (h.knows hu)
  checkpoints id c hc := hm.checkpoints id c (by rw [h.manager] at hc; exact hc)

theorem unshared (h : Trimmed m Gone fs m' fs') (hs : fs.Sound) (hroot : m.store.root.isAbsolute = true)
    (hm : m.Distinct) (hu : m.Unshared fs) : m'.Unshared fs' := by
  have hu' := hu.refiled hroot hs hm h.files.thinned.refiled
  refine ⟨fun t ht p hp => ?_, fun id c hc => ?_, fun i t j c ht hc => ?_⟩
  · rw [h.filesOf_eq] at hp
    exact hu'.files t (h.knows ht) p hp
  · rw [h.manager] at hc
    rw [h.store_eq]
    exact hu'.checkpoints id c hc
  · rw [h.manager] at hc
    rw [h.store_eq]
    exact hu'.apart i t j c ((h.history i t).1 ht).1 hc

theorem trans (h : Trimmed m Gone fs m' fs') (hs : fs.Sound) (hroot : m.store.root.isAbsolute = true)
    (hm : m.Distinct) (h' : Trimmed m' Gone' fs' m'' fs'') :
    Trimmed m (fun id => Gone id ∨ Gone' id) fs m'' fs'' where
  manager := by rw [h'.manager, h.manager]
  keys := h'.keys
  history id t := by rw [h'.history, h.history, not_or, and_assoc]
  files := by
    refine (h.files.trans hs h'.files ?_).congr fun p => ⟨?_, ?_⟩
    · rintro p ⟨id, t, ht, -, hp⟩
      rw [h.filesOf_eq] at hp
      exact hm.namesFile hroot (.inr ⟨id, ((h.history id t).1 ht).1⟩) hp
    · rintro (⟨id, t, ht, hg, hp⟩ | ⟨id, t, ht, hg, hp⟩)
      · exact ⟨id, t, ht, .inl hg, hp⟩
      · exact ⟨id, t, ((h.history id t).1 ht).1, .inr hg, h.filesOf_eq t ▸ hp⟩
    · rintro ⟨id, t, ht, hg, hp⟩
      by_cases hfirst : Gone id
      · exact .inl ⟨id, t, ht, hfirst, hp⟩
      · exact .inr ⟨id, t, (h.history id t).2 ⟨ht, hfirst⟩, hg.resolve_left hfirst,
          (h.filesOf_eq t).symm ▸ hp⟩

/-- What can be removed of the documents does not depend on which ones have gone. -/
theorem stuck_eq (h : Trimmed m Gone fs m' fs') (hs : fs.Sound) (hroot : m.store.root.isAbsolute = true)
    (hm : m.Distinct) (hfree : ∀ id, Gone id → fs.stuck (m.store.transactionPath id) = false)
    (hid : Plain id) :
    fs'.stuck (m.store.transactionPath id) = fs.stuck (m.store.transactionPath id) := by
  have hf : m.store.transactionsDirectory.isAbsolute = true :=
    Path.isAbsolute_join_name hroot isName_folders.1
  have ht : m.store.transactionsDirectory.Tidy := Path.tidy_join_name hroot isName_folders.1
  by_cases hsome : ∃ j t, m.transaction? j = some t ∧ Gone j
  · obtain ⟨j, t, hj, hgone⟩ := hsome
    have hplain : Plain j := hm.keyed j t hj ▸ (hm.plain t (.inr ⟨j, hj⟩)).1
    refine h.files.thinned.stuck_eq hs hf ht (isName_documentName hid) ?_
    by_contra hunsettled
    have hstuck := stuck_of_not_settled hs hf ht (isName_documentName hplain) hunsettled
    exact absurd hstuck (Bool.eq_false_iff.1 (hfree j hgone))
  · -- nothing has gone, so the trees are the same
    have hsame : ∀ l, fs'.at l = fs.at l := fun l => h.files.others l fun p ⟨j, t, hj, hgone, _⟩ =>
      absurd ⟨j, t, hj, hgone⟩ hsome
    have hback : Thinned fs' fs := ⟨hs, fun l => .inl (hsame l).symm⟩
    have hp := (namesFile_transactionPath hroot hid).isAbsolute
    exact Bool.eq_iff_iff.2 ⟨h.files.thinned.stuck hs hp, hback.stuck h.files.thinned.sound hp⟩

end Trimmed

/-- A transaction whose document can be removed goes. -/
theorem purge_trimmed (hm : m.Distinct) (hs : fs.Sound) (hroot : m.store.root.isAbsolute = true)
    (hu : m.Unshared fs) (id : String) :
    Trimmed m (fun j => j = id ∧ fs.stuck (m.store.transactionPath id) = false) fs
      ((m.purge id).run fs).1.2 ((m.purge id).run fs).2 := by
  rw [purge]
  cases ht : m.transaction? id with
  | none =>
    refine .none hs hm.keys fun j t hj hgone => ?_
    rw [hgone.1, ht] at hj
    cases hj
  | some t =>
    have hknows : m.Knows t := .inr ⟨id, ht⟩
    have hid : t.id = id := hm.keyed id t ht
    have hfile : m.store.transactionPath id ∈ m.filesOf t := mem_filesOf.2 (.inl (by rw [hid]))
    have hfirst := Files.removeIfPresent_dropped hs (hu.files t hknows _ hfile)
    have hresult := Files.removeIfPresent_result hs (m.store.transactionPath id)
    simp only [run_bind, Store.deleteTransaction]
    rcases hresult with ⟨hstuck, e, hrun⟩ | ⟨hfree, b, fs₁, hrun, -⟩
    · rw [hrun]
      exact .none hs hm.keys fun j _ _ hgone => by simp [hstuck] at hgone
    · rw [hrun] at hfirst ⊢
      simp only [run_bind, run_pure]
      have hname : ∀ op ∈ t.operations, (m.backups.pathFor op.id).NamesFile := fun op hop =>
        namesFile_pathFor hroot ((hm.plain t hknows).2 op hop)
      have hbackups : Dropped fs₁
          (fun p => ∃ op ∈ t.operations, op.requiresBackup = true ∧ p = m.backups.pathFor op.id)
          ((m.backups.removeEach t.operations).run fs₁).2 :=
        Backups.removeEach_dropped hfirst.thinned.sound hname fun op hop hreq l q hl hc => by
          rw [hfirst.thinned.refiled.spot? hs (hname op hop).isAbsolute] at hl
          exact hu.files t hknows _ (mem_filesOf.2 (.inr ⟨op, hop, hreq, rfl⟩)) l q hl
            (hfirst.thinned.refiled.link_iff.1 hc)
      have hfiles := hfirst.trans hs hbackups (by
        rintro p ⟨op, hop, -, rfl⟩
        exact hname op hop)
      refine
        { manager := rfl
          keys := Index.nodup_remove hm.keys id
          history := fun j u => ?_
          files := hfiles.congr fun p => ?_ }
      · rw [transaction?_remove]
        by_cases hj : j = id <;> simp [hj, hfree]
      · rw [show (∃ j u, m.transaction? j = some u ∧ (j = id ∧ _) ∧ p ∈ m.filesOf u) ↔ p ∈ m.filesOf t
          from ⟨?_, fun hp => ⟨id, t, ht, ⟨rfl, hfree⟩, hp⟩⟩, mem_filesOf, hid]
        rintro ⟨j, u, hj, ⟨rfl, -⟩, hp⟩
        rw [ht] at hj
        exact Option.some.inj hj ▸ hp

/-- Purging transactions lets go those whose documents can be removed. -/
theorem purgeEach_trimmed (hm : m.Distinct) (hs : fs.Sound) (hroot : m.store.root.isAbsolute = true)
    (hu : m.Unshared fs) (ids : List String) :
    Trimmed m (fun j => j ∈ ids ∧ fs.stuck (m.store.transactionPath j) = false) fs
      ((m.purgeEach ids).run fs).1.2 ((m.purgeEach ids).run fs).2 := by
  induction ids generalizing m fs with
  | nil => exact .none hs hm.keys fun j t _ hgone => absurd hgone.1 List.not_mem_nil
  | cons id ids ih =>
    have hfirst := purge_trimmed hm hs hroot hu id
    have hrest := ih (hfirst.distinct hm) hfirst.files.thinned.sound (by rw [hfirst.store_eq]; exact hroot)
      (hfirst.unshared hs hroot hm hu)
    simp only [purgeEach, run_bind, run_pure]
    refine (hfirst.trans hs hroot hm hrest).congr fun j t hj => ?_
    have hplain : Plain j := hm.keyed j t hj ▸ (hm.plain t (.inr ⟨j, hj⟩)).1
    rw [hfirst.store_eq, hfirst.stuck_eq hs hroot hm (fun i hi => hi.1 ▸ hi.2) hplain, List.mem_cons,
      or_and_right]
    exact or_congr_left (and_congr_right fun h => by rw [h])

/-- What is left when transactions have gone. Their documents and backups are gone as far as they could
be removed, no other place has changed, and the files of what is kept or under way and the documents of
checkpoints read as before. -/
structure Reduced (m : Manager) (Gone : String → Prop) (fs : FileSystem) (m' : Manager)
    (fs' : FileSystem) : Prop where
  manager : m' = { m with history := m'.history }
  history : ∀ id t, m'.transaction? id = some t ↔ m.transaction? id = some t ∧ ¬Gone id
  gone : ∀ id t, m.transaction? id = some t → Gone id → ∀ p ∈ m.filesOf t,
    fs.stuck p = true ∨ Lacks fs' p
  kept : ∀ t, m'.Knows t → ∀ p ∈ m.filesOf t, ∀ c, fs'.read p = .ok c ↔ fs.read p = .ok c
  checkpoints : ∀ id c, m.checkpoint? id = some c → ∀ content,
    fs'.read (m.store.checkpointPath id) = .ok content ↔ fs.read (m.store.checkpointPath id) = .ok content
  others : ∀ l, (∀ id t, m.transaction? id = some t → Gone id → ∀ p ∈ m.filesOf t, fs.stuck p = false →
    fs.spot? p ≠ some l) → fs'.at l = fs.at l

theorem Trimmed.reduced (h : Trimmed m Gone fs m' fs') (hm : m.Distinct) (hs : fs.Sound)
    (hroot : m.store.root.isAbsolute = true) (hu : m.Unshared fs) : m.Reduced Gone fs m' fs' where
  manager := h.manager
  history := h.history
  gone id t ht hgone p hp := by
    cases hfree : fs.stuck p with
    | true => exact .inl rfl
    | false =>
      exact .inr (h.files.lacks hs ⟨id, t, ht, hgone, hp⟩ (hm.namesFile hroot (.inr ⟨id, ht⟩) hp) hfree)
  kept t ht p hp c := by
    have hknows := h.knows ht
    refine h.files.read_iff hs (hm.namesFile hroot hknows hp) (hu.files t hknows p hp) ?_
    rintro q ⟨j, u, hj, hgone, hq⟩ l hl
    refine hm.spot?_ne hroot (.inr ⟨j, hj⟩) hknows (fun hid => ?_) hq hp hl
    -- what is kept has not gone, and what is under way has an id of its own
    rcases ht with ht | ⟨i, ht⟩
    · have hnone := hm.current t (by rw [h.manager] at ht; exact ht)
      rw [← hid, hm.keyed j u hj, hj] at hnone
      cases hnone
    · obtain ⟨ht, hnot⟩ := (h.history i t).1 ht
      rw [hm.keyed j u hj, hm.keyed i t ht] at hid
      exact hnot (hid ▸ hgone)
  checkpoints id c hc content := by
    refine h.files.read_iff hs (namesFile_checkpointPath hroot (hm.checkpoints id c hc))
      (hu.checkpoints id c hc) ?_
    rintro q ⟨j, u, hj, -, hq⟩ l hl
    exact hu.spot?_ne hroot hm hj hc hq hl
  others l hl := h.files.others l fun p ⟨id, t, ht, hgone, hp⟩ => hl id t ht hgone p hp

/-! ### How many go -/

theorem purge_outcome (ht : m.transaction? id = some t) (fs : FileSystem) :
    (∃ e, ((m.purge id).run fs).1 = (.error e, m)) ∨
      ((m.purge id).run fs).1 = (.ok (), { m with history := m.history.remove id }) := by
  rw [purge, ht]
  simp only [run_bind]
  split
  · exact .inl ⟨_, rfl⟩
  · exact .inr (by rw [run_bind]; rfl)

/-- As many are counted as have gone. -/
theorem purgeEach_length {ids : List String} (hkeys : (m.history.map (·.1)).Nodup) (hids : ids.Nodup)
    (hknown : ∀ id ∈ ids, (m.transaction? id).isSome) (fs : FileSystem) :
    ((m.purgeEach ids).run fs).1.1 + ((m.purgeEach ids).run fs).1.2.history.length =
      m.history.length := by
  induction ids generalizing m fs with
  | nil => exact Nat.zero_add _
  | cons id ids ih =>
    obtain ⟨hid, hids⟩ := List.nodup_cons.1 hids
    obtain ⟨t, ht⟩ := Option.isSome_iff_exists.1 (hknown id List.mem_cons_self)
    have hknown' : ∀ j ∈ ids, (m.transaction? j).isSome := fun j hj => hknown j (List.mem_cons_of_mem _ hj)
    have hfirst := purge_outcome ht fs
    simp only [purgeEach, run_bind, run_pure]
    generalize (m.purge id).run fs = out at hfirst
    obtain ⟨out, fs₁⟩ := out
    rcases hfirst with ⟨e, rfl⟩ | rfl
    · exact ih hkeys hids hknown' fs₁
    · have hrest := ih (m := { m with history := m.history.remove id }) (Index.nodup_remove hkeys id) hids
        (fun j hj => by
          have hne : j ≠ id := fun hc => hid (hc ▸ hj)
          rw [transaction?_remove, if_neg hne]
          exact hknown' j hj) fs₁
      have hlength := Index.length_remove hkeys (Index.mem_keys_iff.2 (Option.isSome_iff_exists.2 ⟨t, ht⟩))
      simp only [Except.isOk, Except.toBool, if_true] at hrest ⊢
      omega

/-! ### Clearing by age -/

/-- From before the day that is the given number of days ago, if one is given. -/
def OlderThan (now : Instant) (days : Option Nat) (t : Transaction) : Prop :=
  ∀ d ∈ days, ∃ cutoff, now.minusDays? d = some cutoff ∧ t.timestamp.lt cutoff = true

theorem Distinct.mem_values (hm : m.Distinct) : t ∈ m.history.values ↔ m.transaction? t.id = some t := by
  rw [Index.values, List.mem_map, transaction?, Index.get?_eq_some_iff hm.keys]
  constructor
  · rintro ⟨⟨id, u⟩, hmem, rfl⟩
    rwa [hm.keyed id u ((Index.get?_eq_some_iff hm.keys).2 hmem)]
  · exact fun hmem => ⟨_, hmem, rfl⟩

theorem Distinct.ids_eq (hm : m.Distinct) : m.history.values.map (·.id) = m.history.map (·.1) := by
  rw [Index.values, List.map_map]
  exact List.map_congr_left fun x hx => hm.keyed x.1 x.2 ((Index.get?_eq_some_iff hm.keys).2 hx)

theorem Distinct.mem_ids (hm : m.Distinct) (f : Transaction → Bool) :
    ((m.history.values.filter f).map (·.id)).Nodup ∧
      ∀ id, id ∈ (m.history.values.filter f).map (·.id) ↔
        ∃ t, m.transaction? id = some t ∧ f t = true := by
  refine ⟨(List.filter_sublist.map _).nodup (hm.ids_eq ▸ hm.keys), fun id => ?_⟩
  simp only [List.mem_map, List.mem_filter, hm.mem_values]
  constructor
  · rintro ⟨t, ⟨ht, hf⟩, rfl⟩
    exact ⟨t, ht, hf⟩
  · rintro ⟨t, ht, hf⟩
    obtain rfl := hm.keyed id t ht
    exact ⟨t, ⟨ht, hf⟩, rfl⟩

theorem Distinct.clear?_eq (hm : m.Distinct) (hdays : ∀ d ∈ days, (now.minusDays? d).isSome) :
    ∃ ids, m.clear? now days = some (m.purgeEach ids) ∧ ids.Nodup ∧
      ∀ id, id ∈ ids ↔ ∃ t, m.transaction? id = some t ∧ OlderThan now days t := by
  cases days with
  | none =>
    obtain ⟨hnodup, hmem⟩ := hm.mem_ids fun _ => true
    rw [List.filter_true] at hnodup hmem
    exact ⟨_, rfl, hnodup, fun id => by simp [hmem, OlderThan]⟩
  | some d =>
    obtain ⟨cutoff, hcutoff⟩ := Option.isSome_iff_exists.1 (hdays d rfl)
    obtain ⟨hnodup, hmem⟩ := hm.mem_ids fun t => t.timestamp.lt cutoff
    refine ⟨_, by rw [clear?, hcutoff]; rfl, hnodup, fun id => ?_⟩
    simp [hmem, OlderThan, hcutoff]

end Manager

open Manager (OlderThan)

/-- Clearing removes the transactions that are older, but for those whose documents cannot be removed,
and counts them, whatever the order in which they are visited. -/
theorem clear_removes_older (hm : m.Distinct) (hs : fs.Sound) (hroot : m.store.root.isAbsolute = true)
    (hu : m.Unshared fs) (hdays : ∀ d ∈ days, (now.minusDays? d).isSome) :
    ∃ ids, m.clear? now days = some (m.purgeEach ids) ∧
      (∀ id, id ∈ ids ↔ ∃ t, m.transaction? id = some t ∧ OlderThan now days t) ∧
      ∀ order : List String, order.Perm ids →
        ((m.purgeEach order).run fs).1.1 + ((m.purgeEach order).run fs).1.2.history.length =
            m.history.length ∧
          m.Reduced (fun id => (∃ t, m.transaction? id = some t ∧ OlderThan now days t) ∧
            fs.stuck (m.store.transactionPath id) = false) fs
            ((m.purgeEach order).run fs).1.2 ((m.purgeEach order).run fs).2 := by
  obtain ⟨ids, hclear, hnodup, hmem⟩ := hm.clear?_eq hdays
  refine ⟨ids, hclear, hmem, fun order horder => ⟨?_, ?_⟩⟩
  · refine Manager.purgeEach_length hm.keys (horder.nodup_iff.2 hnodup) (fun id hid => ?_) fs
    obtain ⟨t, ht, -⟩ := (hmem id).1 (horder.mem_iff.1 hid)
    exact Option.isSome_iff_exists.2 ⟨t, ht⟩
  · have htrimmed := (Manager.purgeEach_trimmed hm hs hroot hu order).congr
      (m := m) fun id t _ => and_congr_left' (horder.mem_iff.trans (hmem id))
    exact htrimmed.reduced hm hs hroot hu

namespace Sample

def overwriting (id : String) : Operation :=
  ⟨id, .update, .ofString "/p/f", none, some "x", none, none, none, ⟨0, 0⟩, []⟩

def dated (id op : String) (seconds : Int) : Transaction :=
  ⟨id, "", "", "", [overwriting op], ⟨seconds, 0⟩, .completed, none, []⟩

def documentOf (t : Transaction) : Bytes := Utf8.encode (t.toText?.getD "")

def underWay : Transaction := { dated "n" "s" 950400 with status := .pending }

def aged : Manager :=
  { manager with
    settings.maxTransactions := 2
    current := some underWay
    history := [("a", dated "a" "o" 0), ("b", dated "b" "q" 864000)]
    checkpoints := [("k", .create "k" ⟨864000, 0⟩ "" "" ["a", "b"] [])] }

def agedTree (document backup : Entry) : FileSystem :=
  { tree with
    entries := tree.entries ++
      [(documentName "a" :: grounds.transactions, .file 0o600 (documentOf (dated "a" "o" 0))),
        (documentName "b" :: grounds.transactions, document),
        (documentName "k" :: grounds.checkpoints, .file 0o600 [107]),
        (backupName "o" :: grounds.backups, backup),
        (backupName "q" :: grounds.backups, .file 0o600 [120]),
        (backupName "s" :: grounds.backups, .file 0o600 [120])] }

def plainTree : FileSystem :=
  agedTree (.file 0o600 (documentOf (dated "b" "q" 864000))) (.file 0o600 [120])

def linkedTree : FileSystem :=
  agedTree (.link (.ofString "../backups/o.bak")) (.file 0o600 (documentOf (dated "b" "q" 864000)))

/-- The directory of checkpoints is a link to that of transactions, and a checkpoint has the id of a
transaction. -/
def jointTree : FileSystem :=
  (plainTree.erase (documentName "k" :: grounds.checkpoints)).insert grounds.checkpoints
    (.link (.ofString "transactions"))

def joint : Manager := { aged with checkpoints := [("a", .create "a" ⟨864000, 0⟩ "" "" ["a", "b"] [])] }

theorem aged_known {t : Transaction} (h : aged.Knows t) : t = dated "a" "o" 0 ∨
    t = dated "b" "q" 864000 ∨ t = underWay := by
  rcases h with h | ⟨id, h⟩
  · exact .inr (.inr (Option.some.inj h).symm)
  · have hmem : (id, t) ∈ aged.history := Index.mem_of_get? h
    simp only [aged, List.mem_cons, List.not_mem_nil, or_false, Prod.mk.injEq] at hmem
    rcases hmem with ⟨-, rfl⟩ | ⟨-, rfl⟩
    · exact .inl rfl
    · exact .inr (.inl rfl)

theorem aged_distinct : aged.Distinct where
  keys := by decide
  keyed id t h := by
    have hmem : (id, t) ∈ aged.history := Index.mem_of_get? h
    simp only [aged, List.mem_cons, List.not_mem_nil, or_false, Prod.mk.injEq] at hmem
    rcases hmem with ⟨rfl, rfl⟩ | ⟨rfl, rfl⟩ <;> rfl
  current t h := by
    rw [← Option.some.inj h]
    rfl
  plain t h := by rcases aged_known h with rfl | rfl | rfl <;> decide
  apart t u ht hu hne := by
    rcases aged_known ht with rfl | rfl | rfl <;> rcases aged_known hu with rfl | rfl | rfl <;>
      first | exact absurd rfl hne | decide
  checkpoints id c h := by
    have hmem : (id, c) ∈ aged.checkpoints := Index.mem_of_get? h
    rw [(Prod.mk.inj (List.mem_singleton.1 hmem)).1]
    decide

theorem joint_distinct : joint.Distinct :=
  { aged_distinct with
    checkpoints := fun id c h => by
      have hmem : (id, c) ∈ joint.checkpoints := Index.mem_of_get? h
      rw [(Prod.mk.inj (List.mem_singleton.1 hmem)).1]
      decide }

def plainGrounds : Grounds := aged.store.grounds plainTree [Utf8.encode ".xaheen", Utf8.encode "p"]

theorem plainTree_keeps : Keeps plainGrounds aged.store plainTree := .of_laid (by decide +kernel)

end Sample

theorem clear_removes_older_one_of_two :
    ∃ s, Sample.aged.clear? ⟨950400, 0⟩ (some 1) = some s ∧
      (s.run Sample.plainTree).1.2.transaction? "a" = none ∧
      (s.run Sample.plainTree).1.2.transaction? "b" = some (Sample.dated "b" "q" 864000) ∧
      (s.run Sample.plainTree).1.1 + (s.run Sample.plainTree).1.2.history.length = 2 ∧
      Lacks (s.run Sample.plainTree).2 (Sample.aged.backups.pathFor "o") ∧
      (s.run Sample.plainTree).2.read (Sample.aged.backups.pathFor "q") = .ok [120] := by
  have hdays : ∀ d ∈ some 1, (Instant.minusDays? ⟨950400, 0⟩ d).isSome := by decide +kernel
  have hs := Sample.plainTree_keeps.sound
  have hunshared := Manager.unshared_of_keeps Sample.plainTree_keeps Sample.aged_distinct (.refl hs)
  obtain ⟨ids, hclear, -, hall⟩ := clear_removes_older Sample.aged_distinct hs
    (by decide +kernel) hunshared hdays
  obtain ⟨hcount, hreduced⟩ := hall ids (.refl ids)
  have ha : Sample.aged.transaction? "a" = some (Sample.dated "a" "o" 0) := rfl
  have hb : Sample.aged.transaction? "b" = some (Sample.dated "b" "q" 864000) := rfl
  obtain ⟨cutoff, hcutoff⟩ : ∃ cutoff, Instant.minusDays? ⟨950400, 0⟩ 1 = some cutoff ∧
      Instant.lt ⟨0, 0⟩ cutoff = true ∧ Instant.lt ⟨864000, 0⟩ cutoff = false :=
    ⟨⟨864000, 0⟩, by decide +kernel⟩
  have hgone : (∃ t, Sample.aged.transaction? "a" = some t ∧ OlderThan ⟨950400, 0⟩ (some 1) t) ∧
      Sample.plainTree.stuck (Sample.aged.store.transactionPath "a") = false :=
    ⟨⟨_, ha, fun d hd => ⟨cutoff, by rw [← Option.some.inj hd]; exact hcutoff.1, hcutoff.2.1⟩⟩,
      by decide +kernel⟩
  have hkept : ¬(∃ t, Sample.aged.transaction? "b" = some t ∧ OlderThan ⟨950400, 0⟩ (some 1) t) := by
    rintro ⟨t, ht, hold⟩
    obtain ⟨c, hc, hlt⟩ := hold 1 rfl
    rw [← Option.some.inj (hb.symm.trans ht)] at hlt
    rw [← Option.some.inj (hcutoff.1.symm.trans hc)] at hlt
    rw [show (Sample.dated "b" "q" 864000).timestamp = ⟨864000, 0⟩ from rfl, hcutoff.2.2] at hlt
    cases hlt
  have hb' := (hreduced.history "b" _).2 ⟨hb, fun hc => hkept hc.1⟩
  refine ⟨_, hclear, ?_, hb', hcount, ?_, ?_⟩
  · by_contra hsome
    obtain ⟨u, hu⟩ := Option.ne_none_iff_exists'.1 hsome
    exact ((hreduced.history "a" u).1 hu).2 hgone
  · refine (hreduced.gone "a" _ ha hgone _ (by decide +kernel)).resolve_left ?_
    decide +kernel
  · exact (hreduced.kept _ (.inr ⟨"b", hb'⟩) _ (by decide +kernel) _).2 (by decide +kernel)

/-- A kept transaction whose document is a link to a backup of one that goes loses the document, and so
does a checkpoint whose document is that of a transaction that goes. -/
theorem clear_loses_linked_document :
    (Sample.aged.Distinct ∧ Sample.linkedTree.Sound ∧
      (Sample.linkedTree.read (Sample.aged.store.transactionPath "b")).isOk = true ∧
      (Sample.aged.clear? ⟨950400, 0⟩ (some 1)).map (fun s =>
        ((s.run Sample.linkedTree).1.2.history.map (·.1),
          ((s.run Sample.linkedTree).2.read (Sample.aged.store.transactionPath "b")).isOk)) =
        some (["b"], false)) ∧
    Sample.joint.Distinct ∧ Sample.jointTree.Sound ∧
      (Sample.jointTree.read (Sample.joint.store.checkpointPath "a")).isOk = true ∧
      (Sample.joint.clear? ⟨950400, 0⟩ (some 1)).map (fun s =>
        ((s.run Sample.jointTree).1.2.checkpoints.map (·.1),
          ((s.run Sample.jointTree).2.read (Sample.joint.store.checkpointPath "a")).isOk)) =
        some (["a"], false) :=
  ⟨⟨Sample.aged_distinct, by decide +kernel, by decide +kernel, by decide +kernel⟩,
    Sample.joint_distinct, by decide +kernel, by decide +kernel, by decide +kernel⟩

end Retrace
