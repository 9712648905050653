import Retrace.Proofs.LifeCycle
import Retrace.Proofs.Loading

/-!
Opening a project whose directories are there. A document is a listed name with the right extension
whose content can be read and is accepted (`Store.Document`); whatever else is in the directories is
passed over. So opening succeeds and changes nothing, what is loaded is what the documents say, and it
is the same in every tree that has the same documents (`open_tolerates`).
-/
namespace Retrace

open FileSystem Retrace.Path Script

/-! ### Values by name -/

theorem Index.perm_of_get? {α : Type} {x y : Index α} (hx : (x.map (·.1)).Nodup)
    (hy : (y.map (·.1)).Nodup) (h : ∀ k v, x.get? k = some v ↔ y.get? k = some v) : x.Perm y := by
  refine (List.perm_ext_iff_of_nodup hx.of_map hy.of_map).2 fun (k, v) => ?_
  rw [← get?_eq_some_iff hx, ← get?_eq_some_iff hy]
  exact h k v

/-! ### What counts as a document -/

/-- The names in a directory, none where it cannot be listed. -/
def FileSystem.names (fs : FileSystem) (f : Path) : List Bytes := (fs.list f).toOption.getD []

namespace Store

variable {α : Type} {key : α → String} {read : String → Option α} {f : Path} {fs fs' : FileSystem}
  {name name' : Bytes} {v v' : α} {x y : Index α} {s : Store}

/-- A document of a directory: a name with the extension `json` whose content, links followed, can be
read, is UTF-8 and is accepted. -/
structure Document (read : String → Option α) (f : Path) (fs : FileSystem) (name : Bytes) (v : α) :
    Prop where
  listed : name ∈ fs.names f
  extension : Path.extension? name = some (Utf8.encode "json")
  accepted : ∃ content text, fs.read (f.join ⟨name⟩) = .ok content ∧ Utf8.decode? content = some text ∧
    read text = some v

/-- What the documents of a directory say, in the order in which they are found. -/
def documents (read : String → Option α) (f : Path) (fs : FileSystem) : List α :=
  (fs.names f).filterMap (documentAt read f fs)

theorem mem_documents : v ∈ documents read f fs ↔ ∃ name, Document read f fs name v := by
  rw [documents, List.mem_filterMap]
  constructor
  · rintro ⟨name, hname, hv⟩
    obtain ⟨hext, hsays⟩ := documentAt_eq_some.1 hv
    exact ⟨name, hname, hext, hsays⟩
  · rintro ⟨name, hname, hext, hsays⟩
    exact ⟨name, hname, documentAt_eq_some.2 ⟨hext, hsays⟩⟩

theorem loadAll_documents (h : (fs.list f).isOk = true) :
    (loadAll read f).run fs = (.ok (documents read f fs), fs) := by
  rw [loadAll_run, documents, FileSystem.names]
  cases hlist : fs.list f with
  | error e => rw [hlist] at h; cases h
  | ok names => rfl

/-- No two documents with the same key say different things. -/
def Distinct (key : α → String) (read : String → Option α) (f : Path) (fs : FileSystem) : Prop :=
  ∀ name v name' v', Document read f fs name v → Document read f fs name' v' → key v = key v' → v = v'

/-- An index of what the documents of a directory say. -/
structure Indexes (key : α → String) (read : String → Option α) (f : Path) (fs : FileSystem)
    (x : Index α) : Prop where
  once : (x.map (·.1)).Nodup
  only : ∀ k v, x.get? k = some v → key v = k ∧ ∃ name, Document read f fs name v
  all : ∀ name v, Document read f fs name v → (x.get? (key v)).isSome

theorem indexes_documents (key : α → String) (read : String → Option α) (f : Path) (fs : FileSystem) :
    Indexes key read f fs (Index.ofValues key (documents read f fs)) where
  once := Index.nodup_ofValues _ _
  only k v h := by
    obtain ⟨hv, hk⟩ := Index.mem_of_get?_ofValues h
    exact ⟨hk, mem_documents.1 hv⟩
  all name v h := by
    rw [Index.get?_ofValues, List.find?_isSome]
    exact ⟨v, List.mem_reverse.2 (mem_documents.2 ⟨name, h⟩), by simp⟩

theorem Indexes.get?_iff (h : Indexes key read f fs x) (hd : Distinct key read f fs) (k : String) (v : α) :
    x.get? k = some v ↔ key v = k ∧ ∃ name, Document read f fs name v := by
  refine ⟨h.only k v, ?_⟩
  rintro ⟨rfl, name, hv⟩
  obtain ⟨v', hv'⟩ := Option.isSome_iff_exists.1 (h.all name v hv)
  obtain ⟨hkey, name', hdocument⟩ := h.only _ _ hv'
  rw [hv', hd name' v' name v hdocument hv hkey]

theorem Indexes.perm (h : Indexes key read f fs x) (h' : Indexes key read f fs' y)
    (hd : Distinct key read f fs)
    (hsame : ∀ name v, Document read f fs' name v ↔ Document read f fs name v) : x.Perm y := by
  have hd' : Distinct key read f fs' := fun name v name' v' hv hv' =>
    hd name v name' v' ((hsame _ _).1 hv) ((hsame _ _).1 hv')
  refine Index.perm_of_get? h.once h'.once fun k v => ?_
  rw [h.get?_iff hd, h'.get?_iff hd']
  exact and_congr_right fun _ => exists_congr fun name => (hsame name v).symm

/-! ### Stores -/

/-- The directories of a store are there, and those of documents can be listed. -/
structure Listed (s : Store) (fs : FileSystem) : Prop where
  there : ∀ f ∈ s.directories, fs.status f = .ok .directory
  transactions : (fs.list s.transactionsDirectory).isOk = true
  checkpoints : (fs.list s.checkpointsDirectory).isOk = true

instance (s : Store) (fs : FileSystem) : Decidable (s.Listed fs) :=
  decidable_of_iff ((∀ f ∈ s.directories, fs.status f = .ok .directory) ∧
      (fs.list s.transactionsDirectory).isOk = true ∧ (fs.list s.checkpointsDirectory).isOk = true)
    ⟨fun ⟨h, hT, hC⟩ => ⟨h, hT, hC⟩, fun h => ⟨h.there, h.transactions, h.checkpoints⟩⟩

abbrev TransactionDocument (s : Store) : FileSystem → Bytes → Transaction → Prop :=
  Document Transaction.ofText? s.transactionsDirectory

abbrev CheckpointDocument (s : Store) : FileSystem → Bytes → Checkpoint → Prop :=
  Document Checkpoint.ofText? s.checkpointsDirectory

/-- The ids of the documents of a store are distinct. -/
structure DistinctIds (s : Store) (fs : FileSystem) : Prop where
  transactions : Distinct Transaction.id Transaction.ofText? s.transactionsDirectory fs
  checkpoints : Distinct Checkpoint.id Checkpoint.ofText? s.checkpointsDirectory fs

/-- Two trees that may differ in anything but the documents of a store. -/
structure SameDocuments (s : Store) (fs fs' : FileSystem) : Prop where
  transactions : ∀ name t, s.TransactionDocument fs' name t ↔ s.TransactionDocument fs name t
  checkpoints : ∀ name c, s.CheckpointDocument fs' name c ↔ s.CheckpointDocument fs name c

end Store

namespace Manager

variable {fs : FileSystem} {m : Manager}

/-- The store of a project. -/
def storeOf (project : Path) (settings : Settings) (fs : FileSystem) : Store :=
  ⟨(fs.currentDirectory.normalize project).join settings.stateDirectory⟩

def filled (m : Manager) (fs : FileSystem) : Manager :=
  { m with
    history := Index.ofValues Transaction.id
      (Store.documents Transaction.ofText? m.store.transactionsDirectory fs)
    checkpoints := Index.ofValues Checkpoint.id
      (Store.documents Checkpoint.ofText? m.store.checkpointsDirectory fs) }

theorem load_filled (hs : fs.Sound) (hroot : m.store.root.isAbsolute = true) (h : m.store.Listed fs) :
    m.load.run fs = (.ok (m.filled fs), fs) := by
  have hmade := Store.ensureDirectories_of_status hs hroot h.there
  have hT : m.store.loadTransactions.run fs = (.ok _, fs) := Store.loadAll_documents h.transactions
  have hC : m.store.loadCheckpoints.run fs = (.ok _, fs) := Store.loadAll_documents h.checkpoints
  simp only [load, run_bind, hmade, hT, hC, run_pure, filled]

theorem filled_history (m : Manager) (fs : FileSystem) : Store.Indexes Transaction.id Transaction.ofText?
    m.store.transactionsDirectory fs (m.filled fs).history :=
  Store.indexes_documents _ _ _ _

theorem filled_checkpoints (m : Manager) (fs : FileSystem) : Store.Indexes Checkpoint.id Checkpoint.ofText?
    m.store.checkpointsDirectory fs (m.filled fs).checkpoints :=
  Store.indexes_documents _ _ _ _

/-- Managers that differ at most in the order in which their documents were found. -/
structure UpToOrder (m m' : Manager) : Prop where
  history : m.history.Perm m'.history
  checkpoints : m.checkpoints.Perm m'.checkpoints
  others : m' = { m with history := m'.history, checkpoints := m'.checkpoints }

theorem filled_upToOrder {fs' : FileSystem} (hids : m.store.DistinctIds fs)
    (hsame : m.store.SameDocuments fs fs') : UpToOrder (m.filled fs) (m.filled fs') where
  history := (m.filled_history fs).perm (m.filled_history fs') hids.transactions hsame.transactions
  checkpoints :=
    (m.filled_checkpoints fs).perm (m.filled_checkpoints fs') hids.checkpoints hsame.checkpoints
  others := rfl

theorem open_filled {settings : Settings} {events : EventLog} (project : Path) (now : Instant)
    (hevents : EventLog.create? settings.eventCapacity = some events) :
    ∃ s, open? project settings now = some s ∧ ∀ fs : FileSystem, fs.Sound →
      (storeOf project settings fs).Listed fs →
        s.run fs = (.ok ((fresh (fs.currentDirectory.normalize project) settings events now).filled fs), fs) := by
  refine ⟨_, by rw [open?, hevents]; rfl, fun fs hs hlisted => ?_⟩
  have hroot : (storeOf project settings fs).root.isAbsolute = true :=
    isAbsolute_join (isAbsolute_normalize (isAbsolute_ofNames fs.workplace))
  rw [run_bind, run_ask]
  exact load_filled hs hroot hlisted

end Manager

open Manager Store

/-- A project whose directories are there and can be listed is opened whatever they hold, and the tree
stays as it is. The transactions and the checkpoints are what the documents say, each under its id, and
where the ids are distinct they are all that the documents say. They are the same in every tree with the
same documents: the same index where the documents are also found in the same order, and else the same
but for the order. -/
theorem open_tolerates {fs : FileSystem} {project : Path} {settings : Settings} (now : Instant)
    (hs : fs.Sound) (hcapacity : settings.eventCapacity ≤ EventLog.greatestCapacity)
    (hlisted : (storeOf project settings fs).Listed fs) :
    ∃ s m, open? project settings now = some s ∧ s.run fs = (.ok m, fs) ∧ m.current = none ∧
      m.store = storeOf project settings fs ∧
      Indexes Transaction.id Transaction.ofText? m.store.transactionsDirectory fs m.history ∧
      Indexes Checkpoint.id Checkpoint.ofText? m.store.checkpointsDirectory fs m.checkpoints ∧
      (m.store.DistinctIds fs →
        (∀ id t, m.history.get? id = some t ↔ t.id = id ∧ ∃ name, m.store.TransactionDocument fs name t) ∧
        ∀ id c, m.checkpoints.get? id = some c ↔ c.id = id ∧ ∃ name, m.store.CheckpointDocument fs name c) ∧
      ∀ fs' : FileSystem, fs'.Sound → fs'.workplace = fs.workplace → m.store.Listed fs' →
        ∃ m', s.run fs' = (.ok m', fs') ∧
          (m.store.DistinctIds fs → m.store.SameDocuments fs fs' → UpToOrder m m') ∧
          (documents Transaction.ofText? m.store.transactionsDirectory fs' =
              documents Transaction.ofText? m.store.transactionsDirectory fs →
            documents Checkpoint.ofText? m.store.checkpointsDirectory fs' =
              documents Checkpoint.ofText? m.store.checkpointsDirectory fs → m' = m) := by
  have hevents : EventLog.create? settings.eventCapacity =
      some ⟨EventLog.powerAbove (max settings.eventCapacity 1), []⟩ := if_neg (Nat.not_lt.2 hcapacity)
  obtain ⟨s, hopen, hrun⟩ := open_filled project now hevents
  refine ⟨s, _, hopen, hrun fs hs hlisted, rfl, rfl, filled_history _ fs, filled_checkpoints _ fs,
    fun hids => ⟨(filled_history _ fs).get?_iff hids.transactions,
      (filled_checkpoints _ fs).get?_iff hids.checkpoints⟩, fun fs' hs' hwork hlisted' => ?_⟩
  have hhere : fs'.currentDirectory = fs.currentDirectory := by
    rw [FileSystem.currentDirectory, hwork, FileSystem.currentDirectory]
  have hrun' := hrun fs' hs' (by rw [storeOf, hhere]; exact hlisted')
  rw [hhere] at hrun'
  refine ⟨_, hrun', filled_upToOrder, fun hT hC => ?_⟩
  rw [filled] at hT hC ⊢
  rw [filled, hT, hC]

namespace Sample

def text : Bytes :=
  Utf8.encode "[\"t\",\"\",\"\",\"\",[],\"1970-01-01T00:00:00Z\",\"completed\",null]"

def recorded : FileSystem :=
  tree.insert (documentName "t" :: grounds.transactions) (.file 0o600 text)

/-- The project with one document of a transaction, and with much else in the same directory: a file
that is no UTF-8, one that is no document, a directory, a link that leads nowhere, and the same document
without its extension. -/
def crowded : FileSystem :=
  { recorded with
    entries := recorded.entries ++
      [(Utf8.encode "a.json" :: grounds.transactions, .file 0o644 [255]),
        (Utf8.encode "b.json" :: grounds.transactions, .file 0o644 (Utf8.encode "\x7b\x7d")),
        (Utf8.encode "c.json" :: grounds.transactions, .directory 0o755),
        (Utf8.encode "d.json" :: grounds.transactions, .link (.ofString "nowhere")),
        (Utf8.encode "t.txt" :: grounds.transactions, .file 0o644 text)] }

/-- The project is opened as it lies there. -/
def Openable (fs : FileSystem) : Prop :=
  fs.currentDirectory.normalize (.ofString "/p") = .ofString "/p" ∧ fs.Sound ∧ manager.store.Listed fs

instance (fs : FileSystem) : Decidable (Openable fs) := inferInstanceAs (Decidable (_ ∧ _ ∧ _))

theorem Openable.storeOf_eq {fs : FileSystem} {settings : Settings} (h : Openable fs)
    (hstate : settings.stateDirectory = ({} : Settings).stateDirectory) :
    storeOf (.ofString "/p") settings fs = manager.store := by
  rw [storeOf, h.1, hstate]
  rfl

theorem Openable.opens {fs : FileSystem} (h : Openable fs) (settings : Settings)
    (hevents : EventLog.create? settings.eventCapacity = some ⟨256, []⟩)
    (hstate : settings.stateDirectory = ({} : Settings).stateDirectory) (now : Instant) :
    ∃ s, open? (.ofString "/p") settings now = some s ∧
      s.run fs = (.ok ((fresh (.ofString "/p") settings ⟨256, []⟩ now).filled fs), fs) := by
  obtain ⟨s, hopen, hrun⟩ := open_filled (.ofString "/p") now hevents
  refine ⟨s, hopen, ?_⟩
  rw [hrun fs h.2.1 ((h.storeOf_eq hstate).symm ▸ h.2.2), h.1]

def others : List Bytes := ["a.json", "b.json", "c.json", "d.json", "t.txt"].map Utf8.encode

theorem crowded_lies : Openable recorded ∧ Openable crowded ∧
    (recorded.names manager.store.transactionsDirectory = [documentName "t"] ∧
      crowded.names manager.store.transactionsDirectory = documentName "t" :: others ∧
      crowded.read (manager.store.transactionsDirectory.join ⟨documentName "t"⟩) =
        recorded.read (manager.store.transactionsDirectory.join ⟨documentName "t"⟩) ∧
      ∀ w ∈ others,
        (documentAt Transaction.ofText? manager.store.transactionsDirectory crowded w).isNone) ∧
    recorded.names manager.store.checkpointsDirectory = [] ∧
      crowded.names manager.store.checkpointsDirectory = [] := by decide +kernel

theorem documents_crowded : documents Transaction.ofText? manager.store.transactionsDirectory crowded =
    documents Transaction.ofText? manager.store.transactionsDirectory recorded := by
  obtain ⟨-, -, ⟨hrecorded, hcrowded, hread, hnone⟩, -⟩ := crowded_lies
  have hsame : documentAt Transaction.ofText? manager.store.transactionsDirectory crowded (documentName "t") =
      documentAt Transaction.ofText? manager.store.transactionsDirectory recorded (documentName "t") := by
    rw [documentAt, documentAt, hread]
  rw [documents, documents, hrecorded, hcrowded, List.filterMap_cons,
    List.filterMap_eq_nil_iff.2 fun w hw => Option.isNone_iff_eq_none.1 (hnone w hw),
    List.filterMap_cons, List.filterMap_nil, hsame]

end Sample

theorem open_tolerates_of_crowded :
    ∃ s m, open? (.ofString "/p") {} ⟨0, 0⟩ = some s ∧ s.run Sample.crowded = (.ok m, Sample.crowded) ∧
      (∀ id, (m.history.get? id).isSome ↔ id = "t") ∧ s.run Sample.recorded = (.ok m, Sample.recorded) := by
  obtain ⟨hrecorded, hcrowded, -, hcheckpoints⟩ := Sample.crowded_lies
  have hstore : storeOf (.ofString "/p") {} Sample.crowded = Sample.manager.store := hcrowded.storeOf_eq rfl
  obtain ⟨s, m, hopen, hrun, -, hm, hhistory, -, -, hagain⟩ :=
    @open_tolerates Sample.crowded (.ofString "/p") {} ⟨0, 0⟩ hcrowded.2.1 (by decide)
      (hstore.symm ▸ hcrowded.2.2)
  rw [hm, hstore] at hhistory hagain
  have hids : (documents Transaction.ofText? Sample.manager.store.transactionsDirectory
      Sample.recorded).map Transaction.id = ["t"] := by decide +kernel
  rw [← Sample.documents_crowded] at hids
  refine ⟨s, m, hopen, hrun, fun id => ⟨fun h => ?_, ?_⟩, ?_⟩
  · obtain ⟨t, ht⟩ := Option.isSome_iff_exists.1 h
    obtain ⟨rfl, hdocument⟩ := hhistory.only _ _ ht
    have hmem := List.mem_map_of_mem (f := Transaction.id) (mem_documents.2 hdocument)
    rwa [hids, List.mem_singleton] at hmem
  · rintro rfl
    obtain ⟨t, ht, hid⟩ := List.mem_map.1 (hids ▸ List.mem_singleton_self "t")
    obtain ⟨name, hdocument⟩ := mem_documents.1 ht
    exact hid ▸ hhistory.all name t hdocument
  · obtain ⟨m', hrun', -, hsame⟩ := hagain Sample.recorded hrecorded.2.1 rfl hrecorded.2.2
    obtain rfl := hsame Sample.documents_crowded.symm (by
      rw [documents, documents, hcheckpoints.1, hcheckpoints.2]
      rfl)
    exact hrun'

namespace Sample

def unlisted : FileSystem := tree.insert grounds.transactions (.directory 0)

def unread : FileSystem := tree.insert (documentName "t" :: grounds.transactions) (.file 0 text)

end Sample

/-- What cannot be read makes a difference: a directory that cannot be listed keeps the project from being
opened, and a document that cannot be read is passed over whatever it says. Neither is a project opened
with room for more events than can be kept. -/
theorem unreadable_stops_or_hides :
    (Sample.unlisted.Sound ∧
      (∀ f ∈ (storeOf (.ofString "/p") {} Sample.unlisted).directories,
        Sample.unlisted.status f = .ok .directory) ∧
      ∃ s, open? (.ofString "/p") {} ⟨0, 0⟩ = some s ∧ (s.run Sample.unlisted).1.isOk = false) ∧
    (Sample.unread.Sound ∧
      (∀ f ∈ (storeOf (.ofString "/p") {} Sample.unread).directories,
        Sample.unread.status f = .ok .directory) ∧
      Sample.unread.at (documentName "t" :: Sample.grounds.transactions) = some (.file 0 Sample.text) ∧
      ((Utf8.decode? Sample.text).bind Transaction.ofText?).isSome = true ∧
      ∃ s, open? (.ofString "/p") {} ⟨0, 0⟩ = some s ∧
        (s.run Sample.unread).1.toOption.map (·.history.isEmpty) = some true) ∧
    open? (.ofString "/p") { eventCapacity := EventLog.greatestCapacity + 1 } ⟨0, 0⟩ = none := by
  refine ⟨⟨by decide +kernel, by decide +kernel, Sample.opening, (Option.some_get _).symm, by decide +kernel⟩,
    ⟨by decide +kernel, by decide +kernel, by decide +kernel, by decide +kernel, Sample.opening,
      (Option.some_get _).symm, by decide +kernel⟩, ?_⟩
  rw [open?, EventLog.create?, if_pos (Nat.lt_succ_self _)]
  rfl

end Retrace
