import Retrace.Proofs.Capture
import Retrace.Proofs.Requests

/-!
A transaction that is recorded and then given up. While it is under way its store holds what it held
before and, besides, just the backups of the operations recorded so far (`Provisional`): an operation
that is added brings its own, and one that is refused brings nothing, like a completion that fails. To
give the transaction up removes these backups, and the store is as it was (`abort_undoes_recording`).
-/
namespace Retrace

open FileSystem Files Retrace.Path Script

variable {s : Store} {fs fs' fs₀ fs₁ : FileSystem} {f : Path} {d k T B : Location}
  {m m' m₀ : Manager} {id : String} {now : Instant} {ops : List Operation} {t : Transaction}

/-! ### The places of a store -/

/-- The places of a store: those on the way to its directories, and those in them. -/
def Store.Owns (s : Store) (fs : FileSystem) (k : Location) : Prop :=
  ∃ f ∈ s.directories, k ∈ fs.route f ∨ ∃ d, fs.goal? f = some d ∧ d <:+ k

def Store.Stands (s : Store) (fs fs' : FileSystem) : Prop := Spares fs (fun k => ¬s.Owns fs k) fs'

/-- Between two trees nothing has changed at the places that a store had at first. -/
structure Store.Untouched (s : Store) (fs₀ fs fs' : FileSystem) : Prop where
  sound : fs'.Sound
  at_eq : ∀ k, s.Owns fs₀ k → fs'.at k = fs.at k

structure Store.Has (s : Store) (fs : FileSystem) (f : Path) (d : Location) : Prop where
  member : f ∈ s.directories
  absolute : f.isAbsolute = true
  tidy : f.Tidy
  noNul : f.hasNul = false
  entry : ∃ m, fs.entryAt true f = .ok (d, .directory m)

theorem Store.has (hroot : s.root.isAbsolute = true) (hf : f ∈ s.directories)
    (h : fs.status f = .ok .directory) : ∃ d, s.Has fs f d := by
  obtain ⟨hT, hB, hC⟩ := isName_folders
  have hchild : ∀ w, IsName w → (s.root.join ⟨w⟩).isAbsolute = true ∧ (s.root.join ⟨w⟩).Tidy :=
    fun w hw => ⟨isAbsolute_join_name hroot hw, tidy_join_name hroot hw⟩
  obtain ⟨habs, htidy⟩ : f.isAbsolute = true ∧ f.Tidy := by
    simp only [Store.directories, List.mem_cons, List.not_mem_nil, or_false] at hf
    rcases hf with rfl | rfl | rfl
    · exact hchild _ hT
    · exact hchild _ hB
    · exact hchild _ hC
  have hentry := eq_ok_of_named h
  cases hx : fs.entryAt true f with
  | error e => rw [hx] at hentry; cases hentry
  | ok x =>
    obtain ⟨d, e⟩ := x
    rw [hx] at hentry
    cases e with
    | directory m => exact ⟨d, hf, habs, htidy, noNul_of_named h, m, hx⟩
    | _ => cases hentry

namespace Store.Has

theorem owns (h : s.Has fs f d) (hk : d <:+ k) : s.Owns fs k := by
  obtain ⟨m, hm⟩ := h.entry
  exact ⟨f, h.member, .inr ⟨d, (goal?_of_entryAt hm).1, hk⟩⟩

theorem owns_name (h : s.Has fs f d) (w : Bytes) : s.Owns fs (w :: d) := h.owns (List.suffix_cons w d)

theorem stands (h : s.Has fs f d) (hs : fs.Sound) (hfs : s.Stands fs fs') :
    ∃ m, fs.at d = some (.directory m) ∧ fs'.at d = some (.directory m) ∧
      fs.entryAt true f = .ok (d, .directory m) ∧ fs'.entryAt true f = .ok (d, .directory m) := by
  obtain ⟨m, hm⟩ := h.entry
  have hat := (goal?_of_entryAt hm).2
  refine ⟨m, hat, hfs.at_eq d _ hat (not_not_intro (h.owns List.suffix_rfl)), hm,
    entryAt_congr hs h.absolute hm fun k hk hsome => ?_⟩
  obtain ⟨x, hx⟩ := Option.isSome_iff_exists.1 hsome
  rw [hx, hfs.at_eq k x hx (not_not_intro ⟨f, h.member, .inl hk⟩)]

theorem status (h : s.Has fs f d) (hs : fs.Sound) (hfs : s.Stands fs fs') :
    fs'.status f = .ok .directory := by
  obtain ⟨m, -, -, -, hm⟩ := h.stands hs hfs
  rw [FileSystem.status, named_of_noNul h.noNul, hm]
  rfl

theorem yields_eq (h : s.Has fs f d) (hs : fs.Sound) (hfs : s.Stands fs fs') :
    fs'.yields d = fs.yields d := by
  obtain ⟨m, hat, hat', -⟩ := h.stands hs hfs
  rw [yields, yields, hat, hat']

theorem free_at (h : s.Has fs f d) (hfs : s.Stands fs fs') {w : Bytes}
    (hfree : fs'.at (w :: d) = none) : fs.at (w :: d) = none := by
  cases hx : fs.at (w :: d) with
  | none => rfl
  | some x =>
    rw [hfs.at_eq _ x hx (not_not_intro (h.owns_name w))] at hfree
    cases hfree

theorem leads_iff (h : s.Has fs f d) (hs : fs.Sound) (hfs : s.Stands fs fs') :
    Leads fs' f k ↔ k = d ∧ Leads fs f d := by
  obtain ⟨m, hat, hat', hm, hm'⟩ := h.stands hs hfs
  have hadmits : fs'.admits d = fs.admits d := by rw [admits, admits, hat, hat']
  constructor
  · intro hlead
    obtain ⟨rfl, ha⟩ := hlead.eq_of_entryAt hm'
    exact ⟨rfl, leads_of_entryAt h.absolute h.tidy h.noNul hm (hadmits ▸ ha)⟩
  · rintro ⟨rfl, hlead⟩
    obtain ⟨-, ha⟩ := hlead.eq_of_entryAt hm
    exact leads_of_entryAt h.absolute h.tidy h.noNul hm' (hadmits.trans ha)

end Store.Has

/-- A document that could not be written has left nothing behind, where its directory is there. -/
theorem Store.saveTransaction_failed {e : Error} (hs : fs.Sound)
    (hT : s.Has fs₀ s.transactionsDirectory T)
    (hthere : fs.status s.transactionsDirectory = .ok .directory)
    (hplain : Plain t.id) (hvacant : fs.Vacant (s.transactionPath t.id))
    (h : ((s.saveTransaction t).run fs).1 = .error e) :
    ((s.saveTransaction t).run fs).2.Sound ∧ ∀ k, ((s.saveTransaction t).run fs).2.at k = fs.at k := by
  rw [saveTransaction, save.eq_def] at h ⊢
  cases htext : t.toText? with
  | none => exact ⟨hs, fun _ => rfl⟩
  | some text =>
    have hpath : s.transactionPath t.id = s.transactionsDirectory.join ⟨documentName t.id⟩ := rfl
    have hlink : ∀ kind, fs.linkStatus (s.transactionPath t.id) = .ok kind → kind ≠ .link :=
      fun kind hk => absurd hk (hvacant.linkStatus kind)
    have hresult := (writeAtomic_there (f := s.transactionsDirectory) (w := documentName t.id) hs
      hT.absolute hT.tidy (isName_documentName hplain) (linkStatus_of_status hthere) hlink
      (Utf8.encode text)).result
    simp only [htext, hpath, run_bind] at h ⊢
    generalize (writeAtomic (s.transactionsDirectory.join ⟨documentName t.id⟩)
      (Utf8.encode text)).run.run fs = out at h hresult ⊢
    obtain ⟨r, fs'⟩ := out
    rcases hresult with ⟨hok, -⟩ | ⟨⟨e', he⟩, hunchanged⟩
    · obtain rfl : r = .ok () := hok
      cases h
    · obtain rfl : r = .error e' := he
      exact hunchanged

theorem Manager.complete_failed (hc : m.current = some t) (h : (m.complete.run fs).1.1.isOk = false) :
    ∃ e, ((m.store.saveTransaction { t with status := .completed }).run fs).1 = .error e ∧
      m.complete.run fs = ((.error e, m.markFailed { t with status := .completed } e),
        ((m.store.saveTransaction { t with status := .completed }).run fs).2) := by
  rw [complete] at h ⊢
  simp only [hc, run_bind] at h ⊢
  generalize (m.store.saveTransaction { t with status := .completed }).run fs = out at h ⊢
  obtain ⟨r, fs₁⟩ := out
  cases r with
  | error e => exact ⟨e, rfl, rfl⟩
  | ok u => simp [Except.isOk, Except.toBool] at h

/-! ### While a transaction is under way -/

structure Deposited (s : Store) (fs₀ : FileSystem) (B : Location) (fs : FileSystem) (op : Operation) :
    Prop where
  free : fs₀.at (backupName op.id :: B) = none
  file : ∃ m c, fs.at (backupName op.id :: B) = some (.file m c)
  aims : Aims fs₀ s.backupsDirectory B (backupName op.id)
  yields : fs₀.yields B = true

/-- What is there when a transaction begins: the directories of its document and of its backups, and
nothing at the path of its document. -/
structure Ready (m : Manager) (fs : FileSystem) (id : String) (T B : Location) : Prop where
  sound : fs.Sound
  absolute : m.store.root.isAbsolute = true
  transactions : m.store.Has fs m.store.transactionsDirectory T
  backups : m.store.Has fs m.store.backupsDirectory B
  plain : Plain id
  vacant : fs.Vacant (m.store.transactionPath id)

/-- A transaction is under way with the given operations. The store has what it had at first, and
besides just their backups. -/
structure Provisional (m₀ : Manager) (fs₀ : FileSystem) (id : String) (B : Location)
    (ops : List Operation) (m : Manager) (fs : FileSystem) : Prop where
  store : m.store = m₀.store
  history : m.history = m₀.history
  checkpoints : m.checkpoints = m₀.checkpoints
  current : ∃ t, m.current = some t ∧ t.id = id ∧ t.operations = ops
  stands : m₀.store.Stands fs₀ fs
  new : ∀ k, m₀.store.Owns fs₀ k → fs₀.at k = none →
    fs.at k = none ∨ ∃ op ∈ ops, op.requiresBackup = true ∧ k = backupName op.id :: B
  backed : ∀ op ∈ ops, op.requiresBackup = true → Deposited m₀.store fs₀ B fs op

/-- Requests that belong to the recording of a transaction: an operation is added under a new id, or a
completion fails. -/
def Request.Records (m : Manager) (fs : FileSystem) : Request → Prop
  | .add id _ _ _ _ => Plain id ∧ fs.Vacant (m.backups.pathFor id)
  | .complete => (m.complete.run fs).1.1.isOk = false
  | _ => False

/-- The operation that a request has recorded, if any. -/
def Turn.recorded (s : Turn) : List Operation :=
  match s.request with
  | .add id now kind p details =>
    if ((s.before.add id now kind p details).run s.tree).1.1.isOk then
      [s.before.operationOf id now kind p details (s.before.bytesBefore s.tree p details)]
    else []
  | _ => []

namespace Provisional

theorem start (h₀ : Ready m₀ fs₀ id T B) (hidle : m₀.current = none) (now : Instant)
    (name description command : String) (metadata : Metadata) :
    Provisional m₀ fs₀ id B [] (m₀.start id now name description command metadata).2 fs₀ := by
  have hstart : (m₀.start id now name description command metadata).2 =
      { m₀ with
        events := m₀.events.publish (.transactionStarted id name command)
        current := some (.start id now name description command metadata)
        counters.transactionsStarted := m₀.counters.transactionsStarted + 1 } := by
    simp [Manager.start, hidle]
  rw [hstart]
  exact
    { store := rfl
      history := rfl
      checkpoints := rfl
      current := ⟨_, rfl, rfl, rfl⟩
      stands := Spares.refl h₀.sound
      new := fun _ _ hnone => .inl hnone
      backed := fun _ hop => absurd hop List.not_mem_nil }

theorem untouched (h : Provisional m₀ fs₀ id B ops m fs)
    (hB : m₀.store.Has fs₀ m₀.store.backupsDirectory B)
    (hu : m₀.store.Untouched fs₀ fs fs') : Provisional m₀ fs₀ id B ops m fs' where
  store := h.store
  history := h.history
  checkpoints := h.checkpoints
  current := h.current
  stands := ⟨hu.sound, fun k e he hk =>
    (hu.at_eq k (not_not.1 hk)).trans (h.stands.at_eq k e he hk)⟩
  new k hk hnone := by
    rw [hu.at_eq k hk]
    exact h.new k hk hnone
  backed op hop hneeded := by
    obtain ⟨hfree, hfile, haims, hyields⟩ := h.backed op hop hneeded
    exact ⟨hfree, by rwa [hu.at_eq _ (hB.owns_name _)], haims, hyields⟩

theorem vacant (h : Provisional m₀ fs₀ id B ops m fs) (h₀ : Ready m₀ fs₀ id T B) :
    fs.Vacant (m₀.store.transactionPath id) := by
  have hT := h₀.transactions
  refine vacant_of_free h.stands.sound hT.absolute hT.tidy (isName_documentName h₀.plain)
    fun d haims => ?_
  obtain ⟨rfl, hlead⟩ := (hT.leads_iff h₀.sound h.stands).1 haims.toLeads
  have hnone : fs₀.at (documentName id :: d) = none := h₀.vacant.at (haims.of_leads hlead)
  rcases h.new _ (hT.owns_name _) hnone with hfree | ⟨op, -, -, hname⟩
  · exact hfree
  · exact absurd (List.cons.inj hname).1 (documentName_ne_backupName id op.id)

/-- An operation that is recorded brings at most its backup. -/
theorem append {op : Operation} {previous : Option Bytes} (h : Provisional m₀ fs₀ id B ops m fs)
    (h₀ : Ready m₀ fs₀ id T B) (hcurrent : m.current = some t)
    (hbacking : m.Backing fs op previous (.ok ()) fs') :
    Provisional m₀ fs₀ id B (ops ++ [op]) (m.append t op) fs' := by
  have hB := h₀.backups
  obtain ⟨u, hu, huid, huops⟩ := h.current
  obtain rfl : t = u := Option.some.inj (hcurrent.symm.trans hu)
  have hnew : ∀ k, m₀.store.Owns fs₀ k → fs₀.at k = none → fs.at k = none ∨
      ∃ op' ∈ ops ++ [op], op'.requiresBackup = true ∧ k = backupName op'.id :: B := by
    intro k hk hnone
    rcases h.new k hk hnone with hfree | ⟨op', hop', hrest⟩
    · exact .inl hfree
    · exact .inr ⟨op', List.mem_append_left _ hop', hrest⟩
  have hmore : ∀ {fs₁}, m₀.store.Stands fs₀ fs₁ →
      (∀ k, m₀.store.Owns fs₀ k → fs₀.at k = none → fs₁.at k = none ∨
        ∃ op' ∈ ops ++ [op], op'.requiresBackup = true ∧ k = backupName op'.id :: B) →
      (∀ op' ∈ ops, op'.requiresBackup = true → Deposited m₀.store fs₀ B fs₁ op') →
      (op.requiresBackup = true → Deposited m₀.store fs₀ B fs₁ op) →
      Provisional m₀ fs₀ id B (ops ++ [op]) (m.append t op) fs₁ := fun hstands hadded hold hlast =>
    { store := h.store
      history := h.history
      checkpoints := h.checkpoints
      current := ⟨_, rfl, huid, by rw [← huops]⟩
      stands := hstands
      new := hadded
      backed := fun op' hop' => (List.mem_append.1 hop').elim (hold op') fun hop' =>
        List.mem_singleton.1 hop' ▸ hlast }
  cases hbacking with
  | unneeded hneedless =>
    refine hmore h.stands hnew h.backed fun hneeded => ?_
    rw [hneedless] at hneeded
    cases hneeded
  | @written b d _ hneeded _ hroom haims hfree hedit =>
    rw [h.store] at hroom haims
    obtain ⟨rfl, hlead⟩ := (hB.leads_iff h₀.sound h.stands).1 haims.toLeads
    have hfree₀ := hB.free_at h.stands hfree
    refine hmore ⟨hedit.sound, fun k x hx hk => ?_⟩ (fun k hk hnone => ?_)
      (fun op' hop' hneeded' => ?_) fun _ => ?_
    · rw [hedit.at_of_ne ?_]
      · exact h.stands.at_eq k x hx hk
      · rintro rfl
        rw [hfree₀] at hx
        cases hx
    · by_cases hkop : k = backupName op.id :: d
      · exact .inr ⟨op, by simp, hneeded, hkop⟩
      · rw [hedit.at_of_ne hkop]
        exact hnew k hk hnone
    · obtain ⟨hfree', ⟨n', c, hfile⟩, haims', hyields⟩ := h.backed op' hop' hneeded'
      refine ⟨hfree', ⟨n', c, ?_⟩, haims', hyields⟩
      rw [hedit.at_of_ne ?_, hfile]
      intro hc
      rw [hc, hfree] at hfile
      cases hfile
    · exact ⟨hfree₀, ⟨_, _, hedit.at_self⟩, haims.of_leads hlead,
        (hB.yields_eq h₀.sound h.stands).symm.trans hroom.yields⟩

/-- A request to add an operation brings what that brings, or nothing. -/
theorem add {j : String} {kind : Operation.Kind} {p : Path} {details : Operation.Details}
    (h : Provisional m₀ fs₀ id B ops m fs) (h₀ : Ready m₀ fs₀ id T B) (hid : Plain j)
    (hvacant : fs.Vacant (m.backups.pathFor j)) :
    Provisional m₀ fs₀ id B (ops ++ ((Request.add j now kind p details).turn m fs).recorded)
      ((Request.add j now kind p details).turn m fs).after
      ((Request.add j now kind p details).turn m fs).left := by
  have hB := h₀.backups
  have hopen : m.Open fs j :=
    { sound := h.stands.sound
      absolute := by rw [h.store]; exact h₀.absolute
      plain := hid
      there := by rw [h.store]; exact hB.status h₀.sound h.stands
      vacant := hvacant }
  rcases Manager.add_backing hopen now kind p details with
    ⟨e, fs₁, hrun, hsound, hsame⟩ | ⟨t, fs₁, hcurrent, hrun, hbacking⟩
  · have hturn : ((Request.add j now kind p details).turn m fs) =
        ⟨m, fs, .add j now kind p details, [], m, fs₁⟩ := by
      simp [Request.turn, Request.perform, hrun]
    have hrecorded : (Turn.recorded ⟨m, fs, .add j now kind p details, [], m, fs₁⟩) = [] := by
      simp [Turn.recorded, hrun, Except.isOk, Except.toBool]
    rw [hturn, hrecorded, List.append_nil]
    exact h.untouched hB ⟨hsound, fun k _ => hsame k⟩
  · generalize hop : m.operationOf j now kind p details (m.bytesBefore fs p details) = op
      at hrun hbacking
    have hturn : ((Request.add j now kind p details).turn m fs) =
        ⟨m, fs, .add j now kind p details, [], m.append t op, fs₁⟩ := by
      simp [Request.turn, Request.perform, hrun]
    have hrecorded : (Turn.recorded ⟨m, fs, .add j now kind p details, [], m.append t op, fs₁⟩) =
        [op] := by
      simp [Turn.recorded, hrun, Except.isOk, Except.toBool, hop]
    rw [hturn, hrecorded]
    exact h.append h₀ hcurrent hbacking

/-- A completion that fails brings nothing. -/
theorem complete (h : Provisional m₀ fs₀ id B ops m fs) (h₀ : Ready m₀ fs₀ id T B)
    (hfail : (m.complete.run fs).1.1.isOk = false) :
    Provisional m₀ fs₀ id B ops (Request.complete.turn m fs).after
      (Request.complete.turn m fs).left := by
  have hT := h₀.transactions
  obtain ⟨t, hc, hid, hops⟩ := h.current
  obtain ⟨e, hsave, hrun⟩ := Manager.complete_failed hc hfail
  rw [h.store] at hsave hrun
  obtain ⟨hsound, hsame⟩ := Store.saveTransaction_failed h.stands.sound hT
    (hT.status h₀.sound h.stands) (hid ▸ h₀.plain) (hid ▸ h.vacant h₀) hsave
  have hturn : Request.complete.turn m fs = ⟨m, fs, .complete, [],
      m.markFailed { t with status := .completed } e,
      ((m₀.store.saveTransaction { t with status := .completed }).run fs).2⟩ := by
    simp [Request.turn, Request.perform, hrun]
  rw [hturn]
  have hmarked : Provisional m₀ fs₀ id B ops (m.markFailed { t with status := .completed } e) fs :=
    { store := h.store
      history := h.history
      checkpoints := h.checkpoints
      current := ⟨_, rfl, hid, hops⟩
      stands := h.stands
      new := h.new
      backed := h.backed }
  exact hmarked.untouched h₀.backups ⟨hsound, fun k _ => hsame k⟩

theorem run {turns : List Turn} {m₁ : Manager} (h₀ : Ready m₀ fs₀ id T B)
    (h : Provisional m₀ fs₀ id B [] m₁ fs₀)
    (hrun : Run Request.Records (fun _ => m₀.store.Untouched fs₀) m₁ fs₀ turns m fs) :
    Provisional m₀ fs₀ id B (turns.flatMap Turn.recorded) m fs := by
  refine hrun.invariant (fun turns => Provisional m₀ fs₀ id B (turns.flatMap Turn.recorded)) h
    (fun turns m fs fs' h hu => h.untouched h₀.backups hu) fun turns m fs r h hr => ?_
  rw [List.flatMap_append, List.flatMap_singleton]
  cases r with
  | add j now kind p details => exact h.add h₀ hr.1 hr.2
  | complete =>
    have hnone : (Request.complete.turn m fs).recorded = [] := rfl
    rw [hnone, List.append_nil]
    exact h.complete h₀ hr
  | start | abort | rollback | createCheckpoint | deleteCheckpoint | rollbackCheckpoint | clear =>
    exact hr.elim

end Provisional

/-! ### Giving it up -/

theorem Backups.removeEach_cons (b : Backups) (op : Operation) (ops : List Operation)
    (fs : FileSystem) :
    ((b.removeEach (op :: ops)).run fs).2 =
      ((b.removeEach ops).run (if op.requiresBackup then ((b.remove op.id).run fs).2 else fs)).2 := by
  rw [removeEach]
  cases op.requiresBackup with
  | true =>
    simp only [if_true, run_bind]
    split <;> rw [run_pure]
  | false =>
    simp only [Bool.false_eq_true, if_false, pure_bind, run_bind]
    rfl

/-- A backup is removed where it is a file that can be reached, and its directory can be reached as
before. -/
theorem Backups.remove_deposited {b : Backups} {i : String} (hs : fs.Sound)
    (haims : Aims fs b.directory B (backupName i)) (hyields : fs.yields B = true)
    (hfile : ∀ x ∈ fs.at (backupName i :: B), ∃ m c, x = .file m c) :
    Edit fs (backupName i :: B) none ((b.remove i).run fs).2 ∧
      Leads ((b.remove i).run fs).2 b.directory B := by
  have hpath : b.pathFor i = b.directory.join ⟨backupName i⟩ := rfl
  rw [remove, hpath]
  cases hx : fs.at (backupName i :: B) with
  | none =>
    have hvacant : fs.Vacant (b.directory.join ⟨backupName i⟩) := by
      rw [Vacant, haims.linkStatus, hx]
      rfl
    rw [removeIfPresent_vacant hs haims.absolute haims.tidy haims.name hvacant]
    exact ⟨hx ▸ Edit.refl hs _, haims.toLeads⟩
  | some x =>
    obtain ⟨n, c, rfl⟩ := hfile x hx
    have hedit : Edit fs (backupName i :: B) none (fs.erase (backupName i :: B)) :=
      Edit.erase hs (hs.none_in fun n => by simp [hx])
    rw [removeIfPresent_run haims hx rfl hyields]
    exact ⟨hedit, haims.toLeads.past_file hs hx hedit⟩

/-- The backups of operations are removed where they are files that can be reached, and nothing else
is. -/
theorem Backups.removeEach_deposited {b : Backups} (hs : fs.Sound)
    (hops : ∀ op ∈ ops, op.requiresBackup = true → Aims fs b.directory B (backupName op.id) ∧
      fs.yields B = true ∧ ∀ x ∈ fs.at (backupName op.id :: B), ∃ m c, x = .file m c) :
    ∀ k, ((b.removeEach ops).run fs).2.at k =
      if ∃ op ∈ ops, op.requiresBackup = true ∧ k = backupName op.id :: B then none else fs.at k := by
  induction ops generalizing fs with
  | nil => simp [removeEach]
  | cons op ops ih =>
    have hrest : ∀ op' ∈ ops, op'.requiresBackup = true → _ :=
      fun op' hop' => hops op' (List.mem_cons_of_mem _ hop')
    intro k
    by_cases hneeded : op.requiresBackup = true
    · obtain ⟨haims, hyields, hfile⟩ := hops op List.mem_cons_self hneeded
      obtain ⟨hedit, hlead⟩ := remove_deposited hs haims hyields hfile
      have hlater := ih hedit.sound (fun op' hop' hneeded' => by
        obtain ⟨haims', -, hfile'⟩ := hrest op' hop' hneeded'
        refine ⟨haims'.of_leads hlead, by rw [hedit.yields_eq, hyields], fun x hx => ?_⟩
        rw [hedit.at_eq] at hx
        split at hx
        · cases hx
        · exact hfile' x hx) k
      rw [removeEach_cons, if_pos hneeded, hlater, hedit.at_eq]
      by_cases hk : k = backupName op.id :: B
      · simp [hk, hneeded]
      · simp [hk]
    · rw [removeEach_cons, if_neg hneeded, ih hs hrest k]
      simp [hneeded]

/-- To give up the transaction under way takes away what its recording has brought. -/
theorem Provisional.abort {fs₁ : FileSystem} (h : Provisional m₀ fs₀ id B ops m fs)
    (h₀ : Ready m₀ fs₀ id T B) (hrun : m.abort.run fs = ((.ok t, m'), fs₁)) :
    m' = { m with current := none } ∧ t.id = id ∧ t.operations = ops ∧
      ∀ k, m₀.store.Owns fs₀ k → fs₁.at k = fs₀.at k := by
  have hT := h₀.transactions
  have hB := h₀.backups
  obtain ⟨hcurrent, rfl, gone, fs₂, n, hdelete, hremove⟩ := Manager.abort_ok hrun
  obtain ⟨u, hu, huid, huops⟩ := h.current
  obtain rfl : t = u := Option.some.inj (hcurrent.symm.trans hu)
  refine ⟨rfl, huid, huops, fun k hk => ?_⟩
  -- there is no document to delete
  obtain rfl : fs = fs₂ := by
    have hnothing := removeIfPresent_vacant h.stands.sound hT.absolute hT.tidy
      (isName_documentName h₀.plain) (h.vacant h₀)
    rw [h.store, huid] at hdelete
    exact hnothing.symm.trans (congrArg Prod.snd hdelete)
  have hreach : ∀ op ∈ ops, op.requiresBackup = true →
      Aims fs m.backups.directory B (backupName op.id) ∧ fs.yields B = true ∧
        ∀ x ∈ fs.at (backupName op.id :: B), ∃ m c, x = .file m c := by
    intro op hop hneeded
    obtain ⟨-, ⟨n, c, hfile⟩, haims, hyields⟩ := h.backed op hop hneeded
    have hlead : Leads fs m₀.store.backupsDirectory B :=
      (hB.leads_iff h₀.sound h.stands).2 ⟨rfl, haims.toLeads⟩
    refine ⟨?_, (hB.yields_eq h₀.sound h.stands).trans hyields,
      fun x hx => ⟨n, c, Option.some.inj (hx.symm.trans hfile)⟩⟩
    rw [Manager.backups, h.store]
    exact haims.of_leads hlead
  have hafter := Backups.removeEach_deposited h.stands.sound hreach k
  rw [Backups.removeFor, huops] at hremove
  rw [hremove] at hafter
  rw [hafter]
  split
  · next hbackup =>
    obtain ⟨op, hop, hneeded, rfl⟩ := hbackup
    exact (h.backed op hop hneeded).free.symm
  · next hother =>
    cases hx : fs₀.at k with
    | some x => exact h.stands.at_eq k x hx (not_not_intro hk)
    | none => exact (h.new k hk hx).resolve_right hother

/-- A transaction is started while none is under way; operations are added to it, which may succeed or
fail, it may fail to be completed any number of times, and in between anything may happen outside the
store. When it is then given up, the store is as it was, and so is all that the manager keeps. -/
theorem abort_undoes_recording {name description command : String} {metadata : Metadata}
    {turns : List Turn} {fs₁ : FileSystem} (hs : fs.Sound) (hroot : m₀.store.root.isAbsolute = true)
    (hidle : m₀.current = none)
    (htransactions : fs.status m₀.store.transactionsDirectory = .ok .directory)
    (hbackups : fs.status m₀.store.backupsDirectory = .ok .directory)
    (hid : Plain id) (hvacant : fs.Vacant (m₀.store.transactionPath id))
    (hrun : Run Request.Records (fun _ => m₀.store.Untouched fs)
      (m₀.start id now name description command metadata).2 fs turns m fs')
    (habort : m.abort.run fs' = ((.ok t, m'), fs₁)) :
    (∀ k, m₀.store.Owns fs k → fs₁.at k = fs.at k) ∧
      m'.current = none ∧ m'.history = m₀.history ∧ m'.checkpoints = m₀.checkpoints ∧
      t.id = id ∧ t.operations = turns.flatMap Turn.recorded := by
  obtain ⟨T, hT⟩ := Store.has hroot (by simp [Store.directories]) htransactions
  obtain ⟨B, hB⟩ := Store.has hroot (by simp [Store.directories]) hbackups
  have h₀ : Ready m₀ fs id T B := ⟨hs, hroot, hT, hB, hid, hvacant⟩
  have hstart := Provisional.start h₀ hidle now name description command metadata
  have hprovisional := hstart.run h₀ hrun
  obtain ⟨rfl, htid, hops, hstore⟩ := hprovisional.abort h₀ habort
  exact ⟨hstore, rfl, hprovisional.history, hprovisional.checkpoints, htid, hops⟩

namespace Sample

def noting : Turn := (Request.add "o" ⟨0, 0⟩ .update (.ofString "f") {}).turn started tree

def scribbled : FileSystem :=
  noting.left.insert [Utf8.encode "f", Utf8.encode "p"] (.file 0o644 [121])

def misnaming : Turn := (Request.add "x" ⟨0, 0⟩ .create ⟨[255]⟩ {}).turn noting.after scribbled

def refusing : Turn := Request.complete.turn misnaming.after misnaming.left

def withdrawn : (Except Error Transaction × Manager) × FileSystem :=
  refusing.after.abort.run refusing.left

theorem scribbled_untouched : manager.store.Untouched tree noting.left scribbled := by
  have hapart : ∀ f ∈ manager.store.directories,
      [Utf8.encode "f", Utf8.encode "p"] ∉ tree.route f ∧
        ∀ d ∈ tree.goal? f, ¬d <:+ [Utf8.encode "f", Utf8.encode "p"] := by decide +kernel
  refine ⟨by decide +kernel, fun k hk => ?_⟩
  rw [scribbled, at_insert _ _ _ _ (by simp), if_neg]
  rintro rfl
  obtain ⟨f, hf, hroute | ⟨d, hd, hsuffix⟩⟩ := hk
  · exact (hapart f hf).1 hroute
  · exact (hapart f hf).2 d hd hsuffix

end Sample

theorem abort_undoes_recording_misnamed :
    ∃ t, Sample.withdrawn.1.1 = .ok t ∧ Sample.refusing.left ≠ Sample.tree ∧
      (∀ k, Sample.manager.store.Owns Sample.tree k → Sample.withdrawn.2.at k = Sample.tree.at k) ∧
      Sample.withdrawn.1.2.current = none ∧ Sample.withdrawn.1.2.history = [] ∧
      Sample.withdrawn.1.2.checkpoints = [] ∧ t.id = "t" ∧
      t.operations = [Sample.noting, Sample.misnaming, Sample.refusing].flatMap Turn.recorded := by
  have hrun : Run Request.Records (fun _ => Sample.manager.store.Untouched Sample.tree)
      (Sample.manager.start "t" ⟨0, 0⟩ "" "" "" []).2 Sample.tree
      ([] ++ [Sample.noting] ++ [Sample.misnaming] ++ [Sample.refusing]) Sample.refusing.after
      Sample.refusing.left := by
    refine .snoc (.snoc (.wait (.snoc .nil ?_ rfl) Sample.scribbled_untouched) ?_ rfl) ?_ rfl
    · exact ⟨by decide +kernel, by decide +kernel⟩
    · exact ⟨by decide +kernel, by decide +kernel⟩
    · change (Sample.misnaming.after.complete.run Sample.misnaming.left).1.1.isOk = false
      decide +kernel
  have hgoes : Sample.withdrawn.1.1.toOption.isSome = true := by decide +kernel
  obtain ⟨t, ht⟩ : ∃ t, Sample.withdrawn.1.1 = .ok t := by
    cases hr : Sample.withdrawn.1.1 with
    | error e => rw [hr] at hgoes; cases hgoes
    | ok t => exact ⟨t, rfl⟩
  have habort : Sample.refusing.after.abort.run Sample.refusing.left =
      ((.ok t, Sample.withdrawn.1.2), Sample.withdrawn.2) := by
    rw [← ht, ← Sample.withdrawn]
  have hchanged : Sample.refusing.left ≠ Sample.tree := by
    intro hsame
    have hfile : Sample.refusing.left.at [Utf8.encode "f", Utf8.encode "p"] ≠
        Sample.tree.at [Utf8.encode "f", Utf8.encode "p"] := by decide +kernel
    exact hfile (by rw [hsame])
  obtain ⟨hstore, hcurrent, hhistory, hcheckpoints, hid, hops⟩ :=
    abort_undoes_recording (by decide +kernel) (by decide +kernel) rfl (by decide +kernel)
      (by decide +kernel) (by decide +kernel) (by decide +kernel) hrun habort
  exact ⟨t, ht, hchanged, hstore, hcurrent, hhistory, hcheckpoints, hid, hops⟩

end Retrace
