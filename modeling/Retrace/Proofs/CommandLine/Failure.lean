import Retrace.Proofs.Bounds
import Retrace.Proofs.CommandLine.Steps

/-!
Commands that change a file and fail. Each step of the change is recorded before it is made, so when a
step fails the transaction under way says what was done. Giving it up takes its backups away; the
directories that were made on the way stay (`abandoned_leaves`).
-/
namespace Retrace.CommandLine

open FileSystem Retrace.Path Script Files
open Retrace.CommandLine.Action (Ends ends_bind ends_bind_error)

variable {d d' d₁ : Desk} {fs fs' fs₁ k : FileSystem} {m m' : Manager} {t : Transaction} {l : Location}
  {ops : List Operation} {p target : Path} {names : Location} {kind : Operation.Kind}
  {details : Operation.Details} {e : Error} {stop : Stop} {dt db : Location}

/-! ### Changes that broke off -/

/-- How far a change has come that may not go on: what was done needs no backup, or nothing is done yet
but a backup, or not even that. -/
inductive Broken (db : Location) (N : Path → Entry → Prop) (d : Desk) (t : Transaction)
    (fs : FileSystem) (d' : Desk) (fs' : FileSystem) : Prop
  | unbacked {ops : List Operation} (way : Underway d t ops d')
    (free : ∀ op ∈ ops, op.requiresBackup = false) (grown : Grown fs N fs')
  | backed {op : Operation} {content : Bytes} (way : Underway d t [op] d')
    (needed : op.requiresBackup = true)
    (room : Room fs d.manager.store.backupsDirectory db)
    (aims : Aims fs d.manager.store.backupsDirectory db (backupName op.id))
    (edit : Edit fs (backupName op.id :: db) (some (.file 0o600 content)) fs')

variable {N : Path → Entry → Prop}

theorem at_eq_of_littered (h : Littered fs db fs') (hgrown : Grown fs (OnTheWay p) fs') (l : Location) :
    fs'.at l = fs.at l := by
  obtain ⟨k, o, hfree, hfile, hedit⟩ := h
  rw [hedit.at_eq]
  split
  · next hl =>
    subst hl
    cases o with
    | none => exact hfree.symm
    | some e =>
      obtain ⟨c, rfl⟩ := hfile e rfl
      obtain ⟨-, -, -, -, hdirectory⟩ := hgrown.new _ _ hfree hedit.at_self
      cases hdirectory
  · rfl

/-- Backing up what an operation replaces writes the backup or leaves the tree as it was. -/
theorem backUp_cases {op : Operation} {id : String} {previous : Option Bytes} {r : Except Error Unit}
    (h : (m.backUp op previous).run fs = (r, fs')) (hid : op.id = id)
    (hprevious : previous = none → op.requiresBackup = false) (hs : fs.Sound)
    (hdb : Firm fs m.store.backupsDirectory db) (hplain : Plain id)
    (hfree : fs.at (backupName id :: db) = none) :
    op.requiresBackup = false ∧ r = .ok () ∧ fs' = fs ∨
      op.requiresBackup = true ∧ r = .ok () ∧
        (∃ content, Edit fs (backupName id :: db) (some (.file 0o600 content)) fs') ∧
        Room fs m.store.backupsDirectory db ∧
        Aims fs m.store.backupsDirectory db (backupName id) ∨
      (∃ e, r = .error e) ∧ fs'.Sound ∧ ∀ l, fs'.at l = fs.at l := by
  subst hid
  cases hneeded : op.requiresBackup with
  | false =>
    rw [Manager.backUp_unneeded hneeded] at h
    obtain ⟨rfl, rfl⟩ := Prod.mk.inj h
    exact .inl ⟨rfl, rfl, rfl⟩
  | true =>
    cases previous with
    | none => rw [hprevious rfl] at hneeded; cases hneeded
    | some b =>
      have hresult : Wrote fs m.store.backupsDirectory db (backupName op.id) b
          ((writeAtomic (m.backups.pathFor op.id) b).run.run fs).1
          ((writeAtomic (m.backups.pathFor op.id) b).run.run fs).2 :=
        (writeAtomic_meets hs hdb.leads (isName_backupName hplain) (by simp [hfree])).result
      have hp : (m.backups.pathFor op.id).isAbsolute = true := isAbsolute_join hdb.leads.absolute
      have hwritten := writeAtomic_written hs hp b
      simp only [Manager.backUp, hneeded, if_true, Backups.write, run_bind] at h
      generalize (writeAtomic (m.backups.pathFor op.id) b).run.run fs = out at h hresult hwritten
      obtain ⟨r', fs₁⟩ := out
      rcases hresult with ⟨rfl, hedit, hroom, haims⟩ | ⟨⟨e, rfl⟩, hlitter, -⟩
      · obtain ⟨rfl, rfl⟩ := Prod.mk.inj h
        exact .inr (.inl ⟨rfl, rfl, ⟨b, hedit⟩, hroom, haims⟩)
      · obtain ⟨rfl, rfl⟩ := Prod.mk.inj h
        have hgrown := hwritten.grown hs hp
        exact .inr (.inr ⟨⟨_, rfl⟩, hgrown.sound, at_eq_of_littered hlitter hgrown⟩)

/-- After a first step was recorded, or could not be. -/
theorem record_broken {r : Except Stop String} (hs : fs.Sound)
    (hdb : Firm fs d.manager.store.backupsDirectory db) (hplain : Plain (d.ids d.taken))
    (hfree : fs.at (backupName (d.ids d.taken) :: db) = none) (ht : d.manager.current = some t)
    (h : Ends (record kind p details) d fs r d' fs') : Broken db N d t fs d' fs' := by
  have hneeded : ∀ previous : Option Bytes, previous = none → (d.manager.operationOf (d.ids d.taken)
      d.now kind p details previous).requiresBackup = false := by
    rintro _ rfl
    simp [Manager.requiresBackup_operationOf]
  cases r with
  | error stop =>
    obtain ⟨hway, rfl | ⟨previous, e, hrun⟩⟩ := record_error ht h
    · exact .unbacked hway (by simp) (.refl hs)
    · obtain ⟨-, hc, -⟩ | ⟨-, hc, -⟩ | ⟨-, hsound, hsame⟩ :=
        backUp_cases hrun rfl (hneeded previous) hs hdb hplain hfree
      · cases hc
      · cases hc
      · exact .unbacked hway (by simp) ((Grown.refl hs).congr hsound hsame)
  | ok id =>
    obtain ⟨previous, hway, hrun⟩ := record_ok ht h
    obtain ⟨hunneeded, -, rfl⟩ | ⟨hop, -, ⟨content, hedit⟩, hroom, haims⟩ | ⟨⟨e, hc⟩, -⟩ :=
      backUp_cases hrun rfl (hneeded previous) hs hdb hplain hfree
    · exact .unbacked hway (by simpa using hunneeded) (.refl hs)
    · exact .backed hway hop hroom haims hedit
    · cases hc

/-! ### Giving up -/

/-- The names that new ids would give to files are in no use. -/
structure Unused (d : Desk) (fs : FileSystem) (dt db names : Location) : Prop where
  plain : ∀ n, d.taken ≤ n → Plain (d.ids n)
  document : ∀ n, d.taken ≤ n → fs.at (documentName (d.ids n) :: dt) = none
  backup : ∀ n, d.taken ≤ n → fs.at (backupName (d.ids n) :: db) = none
  apart : ∀ n, d.taken ≤ n → documentName (d.ids n) ∉ names ∧ backupName (d.ids n) ∉ names

theorem deleteTransaction_none {s : Store} {id : String} {r : Except OsError Bool} (hs : fs.Sound)
    (hdt : Leads fs s.transactionsDirectory dt) (hplain : Plain id)
    (hfree : fs.at (documentName id :: dt) = none)
    (h : (s.deleteTransaction id).run fs = (r, fs')) : fs'.Sound ∧ ∀ l, fs'.at l = fs.at l := by
  have hresult : Removed fs dt (documentName id) ((s.deleteTransaction id).run fs).1
      ((s.deleteTransaction id).run fs).2 :=
    (removeIfPresent_meets hs hdt (isName_documentName hplain)).result
  rw [h] at hresult
  obtain ⟨-, hedit⟩ | ⟨-, rfl, -⟩ | ⟨-, rfl⟩ := hresult
  · refine ⟨hedit.sound, fun l => ?_⟩
    rw [hedit.at_eq]
    split
    · next hl => rw [hl, hfree]
    · rfl
  · exact ⟨hs, fun _ => rfl⟩
  · exact ⟨hs, fun _ => rfl⟩

theorem removeEach_unbacked {b : Backups} (h : ∀ op ∈ ops, op.requiresBackup = false) (fs : FileSystem) :
    ((b.removeEach ops).run fs).2 = fs := by
  induction ops with
  | nil => rfl
  | cons op ops ih =>
    rw [Backups.removeEach, if_neg (by simp [h op List.mem_cons_self]), pure_bind, run_bind]
    exact ih fun op hop => h op (List.mem_cons_of_mem _ hop)

theorem head_of_spot? {j : Location} (hn : ∀ v ∈ j, IsName v)
    (h : fs.spot? (ofNames true j) = some l) : ∃ w i, w ∈ j ∧ l = w :: i := by
  obtain ⟨a, ha, hal⟩ := approach_of_spot? h
  cases j with
  | nil =>
    have happroach : fs.approach (ofNames true []) = .ok ⟨[], .root, true⟩ := rfl
    rw [happroach] at ha
    obtain rfl := Except.ok.inj ha
    cases hal
  | cons w j =>
    have hw := hn w List.mem_cons_self
    rw [← ofNames_join j (fun v hv => hn v (List.mem_cons_of_mem _ hv)) hw] at ha
    refine ⟨w, a.directory, List.mem_cons_self, ?_⟩
    by_cases hfits : ((ofNames true j).join ⟨w⟩).bytes.length < longestPath
    · rw [approach_join_name rfl hw hfits] at ha
      split at ha
      · obtain rfl := Except.ok.inj ha
        exact (Option.some.inj hal).symm
      · cases ha
      · cases ha
    · rw [approach, if_neg (bytes_join_name_ne_nil _ hw), if_pos (Nat.not_lt.1 hfits)] at ha
      cases ha

def Spelled (names : Location) (N : Path → Entry → Prop) : Prop :=
  ∀ p e, N p e → ∃ j, j <:+ names ∧ p = ofNames true j

theorem remove_backed {s : Store} {op : Operation} {content : Bytes} (hs : fs.Sound)
    (haims : Aims fs s.backupsDirectory db (backupName op.id))
    (hx : fs.at (backupName op.id :: db) = some (.file 0o600 content)) (hy : fs.yields db = true)
    (hneeded : op.requiresBackup = true) :
    ∃ n fs', ((⟨s.backupsDirectory⟩ : Backups).removeEach [op]).run fs = (n, fs') ∧
      Edit fs (backupName op.id :: db) none fs' := by
  have hremove : (Backups.remove ⟨s.backupsDirectory⟩ op.id).run fs =
      (.ok true, fs.erase (backupName op.id :: db)) := removeIfPresent_run haims hx rfl hy
  refine ⟨_, _, rfl, ?_⟩
  simp only [Backups.removeEach, hneeded, if_true, run_bind, hremove, run_pure]
  exact Edit.erase hs (hs.none_in (by simp [hx]))

theorem none_of_grown {w : Bytes} (h : Grown fs N fs') (hN : Spelled names N)
    (hn : ∀ v ∈ names, IsName v) (hw : w ∉ names) (hl : fs.at (w :: l) = none) :
    fs'.at (w :: l) = none := by
  by_contra hsome
  obtain ⟨e, he⟩ := Option.ne_none_iff_exists'.1 hsome
  obtain ⟨p, -, hspot, hp⟩ := h.new _ e hl he
  obtain ⟨j, hj, rfl⟩ := hN p e hp
  obtain ⟨v, i, hv, hvi⟩ := head_of_spot? (fun v hv => hn v (hj.subset hv)) hspot
  exact hw ((List.cons.inj hvi).1 ▸ hj.subset hv)

theorem Broken.given_up (h : Broken db N d t fs d₁ fs₁) (hs : fs.Sound)
    (hdt : Leads fs d.manager.store.transactionsDirectory dt)
    (hn : ∀ v ∈ names, IsName v) (hN : Spelled names N) (hplain : Plain t.id)
    (hdocument : fs.at (documentName t.id :: dt) = none) (hapart : documentName t.id ∉ names)
    (hfresh : ∀ n, d.taken ≤ n → fs.at (backupName (d.ids n) :: db) = none)
    (hops : t.operations = []) {u : Transaction} {m' : Manager}
    (habort : d₁.manager.abort.run fs₁ = ((.ok u, m'), fs')) :
    (∃ events counters, m' = { d.manager with events := events, current := none, counters := counters }) ∧
      Grown fs N fs' := by
  obtain ⟨hcurrent, rfl, gone, fs₂, n, hdelete, hremove⟩ := Manager.abort_ok habort
  have hmanager : ∀ {ops}, Underway d t ops d₁ → u.operations = ops ∧ u.id = t.id ∧
      d₁.manager.store = d.manager.store ∧ ∃ events counters,
        ({ d₁.manager with current := none } : Manager) =
          { d.manager with events := events, current := none, counters := counters } := by
    intro ops hway
    obtain rfl := Option.some.inj (hcurrent.symm.trans hway.noted.current)
    have hm := hway.noted.manager
    refine ⟨by simp [hops], rfl, by rw [hm], d₁.manager.events, d₁.manager.counters, by rw [hm]⟩
  -- nothing stands under the name of the document, so the tree is as the change has left it
  have hquiet : ∀ {ops}, Underway d t ops d₁ → Spares fs (fun _ => False) fs₁ →
      fs₁.at (documentName t.id :: dt) = none → fs₂.Sound ∧ ∀ l, fs₂.at l = fs₁.at l := by
    intro ops hway hspares hnone
    obtain ⟨-, hid, hstore, -⟩ := hmanager hway
    rw [hid] at hdelete
    exact deleteTransaction_none hspares.sound
      (hstore ▸ hdt.of_spares hs hspares fun _ _ => id) hplain hnone hdelete
  cases h with
  | unbacked hway hfree hgrown =>
    obtain ⟨rfl, -, -, hm⟩ := hmanager hway
    obtain ⟨hsound, hsame⟩ := hquiet hway hgrown.toSpares (none_of_grown hgrown hN hn hapart hdocument)
    have htree : ((d₁.manager.backups.removeFor u).run fs₂).2 = fs₂ := removeEach_unbacked hfree fs₂
    rw [hremove] at htree
    subst htree
    exact ⟨hm, hgrown.congr hsound hsame⟩
  | @backed op content hway hneeded hroom haims hedit =>
    obtain ⟨hrecorded, -, hstore, hm⟩ := hmanager hway
    obtain ⟨i, hi, hid⟩ := hway.named op List.mem_cons_self
    have hfree : fs.at (backupName op.id :: db) = none := hid ▸ hfresh i hi
    have hspares : Spares fs (fun _ => False) fs₁ := hedit.spares fun hc => by simp [hfree] at hc
    obtain ⟨hsound, hsame⟩ := hquiet hway hspares (by
      rw [hedit.at_of_ne fun hc => documentName_ne_backupName _ _ (List.cons.inj hc).1, hdocument])
    have hspares' : Spares fs (fun _ => False) fs₂ :=
      ⟨hsound, fun k e he _ => (hsame k).trans (hspares.at_eq k e he id)⟩
    obtain ⟨n', fs₃, hrun, hgone⟩ := remove_backed (s := d.manager.store) hsound
      (haims.of_leads (haims.of_spares hs hspares' fun _ _ => id))
      ((hsame _).trans hedit.at_self) (by
        rw [FileSystem.yields, hsame, hedit.at_of_ne (List.ne_cons_self), ← FileSystem.yields]
        exact hroom.yields) hneeded
    rw [Backups.removeFor, hrecorded, Manager.backups, hstore, hrun] at hremove
    obtain ⟨-, rfl⟩ := Prod.mk.inj hremove
    refine ⟨hm, (Grown.refl hs).congr hgone.sound fun k => ?_⟩
    rw [hgone.at_eq, hsame, hedit.at_eq]
    split
    · next hk => rw [hk, hfree]
    · rfl

/-! ### Changes -/

abbrev LeavesDirectories (fs : FileSystem) (names : Location) (p : Path) (e : Entry) : Prop :=
  MissingAbove fs names p ∧ ∃ m, e = .directory m

theorem Broken.mono {N' : Path → Entry → Prop} (h : Broken db N d t fs d' fs')
    (hN : ∀ p e, N p e → N' p e) : Broken db N' d t fs d' fs' := by
  cases h with
  | unbacked hway hfree hgrown => exact .unbacked hway hfree (hgrown.mono hN)
  | backed hway hneeded hroom haims hedit => exact .backed hway hneeded hroom haims hedit

theorem Paved.broken {r : Except Stop Unit} (h : Paved d t fs names r d' fs') :
    Broken db (LeavesDirectories fs names) d t fs d' fs' := by
  obtain ⟨ops, hway, hfree⟩ := h.way
  exact .unbacked hway hfree h.grown

theorem applyWrite_broken {content : String} (hs : fs.Sound) (hn : ∀ v ∈ names, IsName v)
    (hdb : Firm fs d.manager.store.backupsDirectory db) (hplain : Plain (d.ids d.taken))
    (hfree : fs.at (backupName (d.ids d.taken) :: db) = none) (ht : d.manager.current = some t)
    (h : Ends (applyWrite (ofNames true names) content) d fs (.error stop) d' fs') :
    Broken db (LeavesDirectories fs names) d t fs d' fs' := by
  have hwrite : ∀ {d₂ k}, Ends (Action.files (Files.attempt (Script.ask
      (.write (ofNames true names) (Utf8.encode content))))) d₂ k (.error stop) d' fs' →
        d' = d₂ ∧ fs' = k := by
    intro d₂ k hend
    obtain ⟨rfl, ⟨-, hc⟩ | ⟨-, -, -, rfl⟩⟩ := Action.ends_call rfl hend
    · cases hc
    · exact ⟨rfl, rfl⟩
  simp only [applyWrite, ends_bind_error, Action.ends_ofScript, present_run] at h
  obtain ⟨_, -, hc, -⟩ | ⟨_, _, _, ⟨_, hpresent, hx, rfl⟩, h⟩ := h
  · cases hc
  obtain rfl := Except.ok.inj hx
  obtain ⟨rfl, rfl⟩ := Prod.mk.inj hpresent
  split at h
  · rw [pure_bind, ends_bind_error] at h
    obtain hrecord | ⟨_, d₂, fs₂, hrecord, hend⟩ := h
    · exact record_broken hs hdb hplain hfree ht hrecord
    · obtain ⟨rfl, rfl⟩ := hwrite hend
      exact record_broken hs hdb hplain hfree ht hrecord
  · rw [ends_bind_error] at h
    obtain hmissing | ⟨_, d₁, fs₁, hmissing, h⟩ := h
    · exact (recordMissing_paved hs hn ht hmissing).broken
    rw [pure_bind, ends_bind_error] at h
    obtain hrecord | ⟨_, d₂, fs₂, hrecord, hend⟩ := h
    · exact ((recordMissing_paved hs hn ht hmissing).record rfl hrecord).2.broken
    · obtain ⟨rfl, rfl⟩ := hwrite hend
      exact ((recordMissing_paved hs hn ht hmissing).record rfl hrecord).2.broken

theorem applyRemove_broken (hs : fs.Sound)
    (hdb : Firm fs d.manager.store.backupsDirectory db) (hplain : Plain (d.ids d.taken))
    (hfree : fs.at (backupName (d.ids d.taken) :: db) = none) (ht : d.manager.current = some t)
    (h : Ends (applyRemove target) d fs (.error stop) d' fs') : Broken db N d t fs d' fs' := by
  rw [applyRemove, ends_bind_error] at h
  obtain hrecord | ⟨_, d₁, fs₁, hrecord, hend⟩ := h
  · exact record_broken hs hdb hplain hfree ht hrecord
  · obtain ⟨rfl, ⟨-, hc⟩ | ⟨-, -, -, rfl⟩⟩ := Action.ends_call rfl hend
    · cases hc
    · exact record_broken hs hdb hplain hfree ht hrecord

/-- What a move may leave at its target when it fails: a copy of the file, where that stands in a directory
in which nothing can be removed. -/
structure HalfMoved (fs : FileSystem) (source : Path) (e : Entry) : Prop where
  copied : ∃ m content, e = .file m content ∧ fs.read source = .ok content
  barred : ∃ l, fs.spot? source = some l ∧ fs.yields l.tail = false

/-- A file stands and reads as it did before something came to the tree. -/
theorem HalfMoved.before {source : Path} {entry : Entry} (h : HalfMoved fs' source entry) (hs : fs.Sound)
    (hspares : Spares fs (fun _ => False) fs') (hsource : source.IsNormal)
    (hfile : fs.status source = .ok .file) : HalfMoved fs source entry := by
  obtain ⟨names, hn, rfl⟩ := hsource
  obtain ⟨⟨k, e⟩, hentry, hkind⟩ := exists_of_bind (eq_ok_of_named hfile)
  have hentry' : fs'.entryAt true (ofNames true names) = .ok (k, e) :=
    entryAt_congr hs rfl hentry fun i _ hi => by
      obtain ⟨x, hx⟩ := Option.isSome_iff_exists.1 hi
      rw [hx, hspares.at_eq i x hx id]
  obtain ⟨⟨m, content, rfl, hread⟩, l, hspot, hclosed⟩ := h
  refine ⟨⟨m, content, rfl, ?_⟩, l, ?_⟩
  · rw [← hread, FileSystem.read, FileSystem.read, hentry, hentry']
  · cases e with
    | file n c =>
      have hnamed : named (ofNames true names) (fs.entryAt true (ofNames true names)) =
          .ok (k, .file n c) := by
        rw [named_of_noNul (noNul_of_named hfile), hentry]
        rfl
      obtain ⟨w, i, d, x, rfl, haims, hx, -⟩ := aims_of_entryAt hs hn hnamed
      have hspot₀ := haims.spot?
      rw [ofNames_join i (fun v hv => hn v (List.mem_cons_of_mem _ hv)) haims.name] at hspot₀
      obtain rfl := Option.some.inj ((hspares.spot? hs rfl hspot₀).symm.trans hspot)
      obtain ⟨n', hd⟩ := haims.directory
      refine ⟨hspot₀, ?_⟩
      rw [← hclosed, yields, yields, List.tail_cons, hd, hspares.at_eq d _ hd id]
    | _ => cases hkind

/-- A move that failed has changed nothing, or has left a copy at a place that was free. -/
theorem move_error {source : Path} {w : Bytes} {j : Location} {e : OsError} (hs : fs.Sound)
    (hsource : source.IsNormal) (hn : ∀ v ∈ w :: j, IsName v) (hparent : Present fs (ofNames true j))
    (hfree : ∀ l, Aims fs (ofNames true j) l w → fs.at (w :: l) = none)
    (h : (Files.move source (ofNames true (w :: j))).run.run fs = (.error e, fs')) :
    fs' = fs ∨ ∃ l x, fs.at l = none ∧ Edit fs l (some x) fs' ∧
      fs'.spot? (ofNames true (w :: j)) = some l ∧ HalfMoved fs source x := by
  have hnames : ∀ v ∈ j, IsName v := fun v hv => hn v (List.mem_cons_of_mem _ hv)
  have hw := hn w List.mem_cons_self
  simp only [Files.move, attempt, ExceptT.run_bind, ExceptT.run_mk, run_bind, run_ask, Call.perform,
    ensureParent_present hn hparent] at h
  cases hrename : fs.rename source (ofNames true (w :: j)) with
  | ok k => simp [hrename] at h
  | error err =>
    simp only [hrename, change_error, run_bind, run_ask, Call.perform] at h
    cases hcopy : fs.copy source (ofNames true (w :: j)) with
    | error err' =>
      simp only [hcopy, change_error, run_pure, Prod.mk.injEq] at h
      exact .inl h.2.symm
    | ok k =>
      -- the copy is there, and what was copied could not be removed
      simp only [hcopy, change_ok, run_ask, Call.perform] at h
      cases hremove : k.removeFile source with
      | ok k' => simp [hremove] at h
      | error err' =>
        simp only [hremove, change_error, Prod.mk.injEq] at h
        obtain ⟨-, rfl⟩ := h
        have hbarred : ∃ l, fs.spot? source = some l ∧ fs.yields l.tail = false := by
          obtain ⟨l, hspot, -, -, hopen, -⟩ := removeFile_of_copy hs hsource rfl hcopy
          refine ⟨l, hspot, Bool.eq_false_iff.2 fun hyields => ?_⟩
          obtain ⟨_, hgone, -⟩ := hopen hyields
          rw [hremove] at hgone
          cases hgone
        obtain ⟨i, m, c, hentry, g, n, -, -, hwritten⟩ := copy_edit hs rfl hcopy
        have hread := read_of_copy hcopy hentry
        rw [← ofNames_join j hnames hw] at hcopy ⊢
        obtain ⟨l, m', c', hl, hedit, hspot⟩ := copy_grown hs rfl (tidy_ofNames hnames) hw hfree hcopy
        -- the copy came to the place that was free, so it is not where the file itself stands
        obtain rfl : g = w :: l := by
          by_contra hne
          have hstays := hwritten.at_of_ne (Ne.symm hne)
          rw [hedit.at_self, hl] at hstays
          cases hstays
        have hne : i ≠ w :: l := fun hc => by
          rw [← hc, (goal?_of_entryAt (eq_ok_of_named hentry)).2] at hl
          cases hl
        rw [if_neg hne] at hwritten
        exact .inr ⟨_, _, hl, hwritten, hspot, ⟨n, c, rfl, hread⟩, hbarred⟩

abbrev LeavesTarget (fs : FileSystem) (source : Path) (names : Location) (p : Path) (e : Entry) : Prop :=
  LeavesDirectories fs names p e ∨ p = ofNames true names ∧ HalfMoved fs source e

theorem applyMove_broken {source : Path} (hs : fs.Sound) (hn : ∀ v ∈ names, IsName v)
    (hsource : source.IsNormal) (hfile : fs.status source = .ok .file)
    (habsent : ¬Present fs (ofNames true names)) (ht : d.manager.current = some t)
    (h : Ends (applyMove source (ofNames true names)) d fs (.error stop) d' fs') :
    Broken db (LeavesTarget fs source names) d t fs d' fs' := by
  rw [applyMove, ends_bind_error] at h
  obtain hmissing | ⟨_, d₁, fs₁, hmissing, h⟩ := h
  · exact (recordMissing_paved hs hn ht hmissing).broken.mono fun _ _ => .inl
  rw [ends_bind_error] at h
  obtain hrecord | ⟨_, d₂, fs₂, hrecord, h⟩ := h
  · exact ((recordMissing_paved hs hn ht hmissing).record rfl hrecord).2.broken.mono fun _ _ => .inl
  obtain ⟨rfl, hpaved⟩ := (recordMissing_paved hs hn ht hmissing).record rfl hrecord
  obtain ⟨y, hmove, hy, rfl⟩ := Action.ends_files.1 h
  obtain ⟨ops, hway, hops⟩ := hpaved.way
  have hgrown : Grown fs (LeavesTarget fs source names) fs₂ := hpaved.grown.mono fun _ _ => .inl
  cases y with
  | ok u => cases hy
  | error e =>
    cases names with
    | nil => exact absurd (present_root fs) habsent
    | cons w j =>
      obtain ⟨hparent, hfree⟩ := hpaved.free hn habsent
      obtain rfl | ⟨l, x, hl, hedit, hspot, hhalf⟩ :=
        move_error hgrown.sound hsource hn hparent hfree hmove
      · exact .unbacked hway hops hgrown
      · exact .unbacked hway hops (hgrown.insert hedit hl rfl hspot
          (.inr ⟨rfl, hhalf.before hs hgrown.toSpares hsource hfile⟩))

/-! ### Commands -/

namespace FileCommand

/-- What may be new after the command has failed, and the path under which it is found. -/
def Leaves (c : FileCommand) (root : Path) (fs : FileSystem) (p : Path) (e : Entry) : Prop :=
  match c with
  | write .. => LeavesDirectories fs (c.spelling root) p e
  | remove _ => False
  | move source _ => LeavesTarget fs (root.normalize source) (c.spelling root) p e

/-- Recording or making the change of the command fails, and its transaction can be given up. -/
def BreaksOff (c : FileCommand) (d : Desk) (fs : FileSystem) : Prop :=
  ∃ stop d₁ fs₁ t, Ends (c.change d.manager.root) (c.begun d) fs (.error stop) d₁ fs₁ ∧
    (d₁.manager.abort.run fs₁).1.1 = .ok t

end FileCommand

theorem bracket_error {name command : String} {change : Action Unit} {d₂ : Desk} {m' : Manager}
    {y : Except Error Transaction}
    (hstart : d.manager.start (d.ids d.taken) d.now name name command [] = (.ok (d.ids d.taken), m))
    (hchange : Ends change { d with taken := d.taken + 1, manager := m } fs (.error stop) d₂ fs₁)
    (habort : d₂.manager.abort.run fs₁ = ((y, m'), fs')) :
    Ends (bracket name command change) d fs (.error stop) { d₂ with manager := m' } fs' := by
  refine ends_bind_error.2 (.inr ⟨_, _, _, Action.ends_freshId.2 ⟨rfl, rfl, rfl⟩, ?_⟩)
  refine ends_bind_error.2 (.inr ⟨_, _, _, Action.ends_get.2 ⟨rfl, rfl, rfl⟩, ?_⟩)
  refine ends_bind_error.2 (.inr ⟨_, { d with taken := d.taken + 1, manager := m }, fs,
    Action.ends_managed.2 ⟨.ok (d.ids d.taken), m, ?_, rfl, rfl⟩, ?_⟩)
  · rw [hstart]
    rfl
  refine ends_bind_error.2 (.inr ⟨_, _, _, Action.ends_observing.2 ⟨_, hchange, rfl⟩, ?_⟩)
  refine ends_bind_error.2 (.inl ?_)
  refine ends_bind_error.2 (.inr ⟨_, _, _, Action.ends_manager.2 ⟨rfl, rfl, rfl⟩, ?_⟩)
  refine ends_bind_error.2 (.inr ⟨_, _, _, Action.ends_ofScript.2 ⟨_, habort, rfl, rfl⟩, ?_⟩)
  refine ends_bind_error.2 (.inr ⟨_, _, _, Action.ends_adopt.2 ⟨rfl, rfl, rfl⟩, ?_⟩)
  exact Action.ends_throw.2 ⟨rfl, rfl, rfl⟩

/-- A command refuses before it has done anything, or goes on to its change in a transaction. -/
theorem FileCommand.action_error (c : FileCommand) (h : Ends c.action d fs (.error stop) d' fs') :
    d' = d ∧ fs' = fs ∨
      Ends (bracket c.title c.verb (c.change d.manager.root)) d fs (.error stop) d' fs' ∧
        c.Ready d.manager.root fs := by
  cases c with
  | write p content =>
    simp only [action, writeFile, ends_bind_error, Action.ends_manager] at h
    obtain ⟨hc, -⟩ | ⟨_, _, _, ⟨hm, rfl, rfl⟩, h⟩ := h
    · cases hc
    · obtain rfl := Except.ok.inj hm
      exact .inr ⟨h, trivial⟩
  | remove p =>
    simp only [action, removeFile, ends_bind_error, Action.ends_manager] at h
    obtain ⟨hc, -⟩ | ⟨_, _, _, ⟨hm, rfl, rfl⟩, h⟩ := h
    · cases hc
    obtain rfl := Except.ok.inj hm
    obtain hrefused | ⟨_, _, _, hfile, h⟩ := h
    · exact .inl (requireFile_ends hrefused)
    · obtain ⟨rfl, rfl, hstatus⟩ := requireFile_ok hfile
      exact .inr ⟨h, hstatus⟩
  | move p q =>
    simp only [action, moveFile, ends_bind_error, Action.ends_manager] at h
    obtain ⟨hc, -⟩ | ⟨_, _, _, ⟨hm, rfl, rfl⟩, h⟩ := h
    · cases hc
    obtain rfl := Except.ok.inj hm
    obtain hrefused | ⟨_, _, _, hfile, h⟩ := h
    · exact .inl (requireFile_ends hrefused)
    obtain ⟨rfl, rfl, hstatus⟩ := requireFile_ok hfile
    simp only [Action.ends_ofScript, present_run] at h
    obtain ⟨_, -, hc, -⟩ | ⟨_, _, _, ⟨_, hrun, hx, rfl⟩, h⟩ := h
    · cases hc
    obtain rfl := Except.ok.inj hx
    obtain ⟨rfl, rfl⟩ := Prod.mk.inj hrun
    split at h
    · rw [ends_bind_error] at h
      obtain hrefused | ⟨_, _, _, hc, -⟩ := h
      · exact .inl (Action.ends_stop.1 hrefused).2
      · cases (Action.ends_stop.1 hc).1
    · next habsent => exact .inr ⟨h, hstatus, habsent⟩

theorem FileCommand.spelled_leaves (c : FileCommand) (root : Path) (fs : FileSystem) :
    Spelled (c.spelling root) (c.Leaves root fs) := by
  rintro p e h
  cases c with
  | write q content =>
    obtain ⟨⟨j, hj, -, rfl, -⟩, -⟩ := h
    exact ⟨j, hj, rfl⟩
  | remove q => cases h
  | move q q' =>
    obtain ⟨⟨j, hj, -, rfl, -⟩, -⟩ | ⟨rfl, -⟩ := h
    · exact ⟨j, hj, rfl⟩
    · exact ⟨_, List.suffix_refl _, rfl⟩

theorem FileCommand.change_broken (c : FileCommand) {d₁ : Desk} (hs : fs.Sound)
    (hroot : d.manager.root.isAbsolute = true) (hcurrent : d.manager.current = none)
    (hdb : Firm fs d.manager.store.backupsDirectory db)
    (hplain : ∀ n, d.taken ≤ n → Plain (d.ids n))
    (hfree : ∀ n, d.taken ≤ n → fs.at (backupName (d.ids n) :: db) = none)
    (hready : c.Ready d.manager.root fs)
    (h : Ends (c.change d.manager.root) (c.begun d) fs (.error stop) d₁ fs₁) :
    Broken db (c.Leaves d.manager.root fs) (c.begun d) (c.opening d) fs d₁ fs₁ := by
  have hbegun : (c.begun d).manager.current = some (c.opening d) := by
    simp [begun, Manager.start, hcurrent, opening]
  have hstore : Firm fs (c.begun d).manager.store.backupsDirectory db := by
    simpa [begun, Manager.start, hcurrent] using hdb
  have hp := hplain (d.taken + 1) (Nat.le_succ _)
  have hf := hfree (d.taken + 1) (Nat.le_succ _)
  cases c with
  | write p content =>
    rw [change, normalize_eq hroot] at h
    exact applyWrite_broken hs isName_of_mem_spelled hstore hp hf hbegun h
  | remove p => exact applyRemove_broken hs hstore hp hf hbegun h
  | move p q =>
    obtain ⟨hfile, habsent⟩ := hready
    rw [change, normalize_eq hroot (p := q)] at h
    rw [normalize_eq hroot] at habsent
    exact applyMove_broken hs isName_of_mem_spelled (isNormal_normalize hroot p) hfile habsent hbegun h

/-- A command whose change breaks off, and whose transaction can be given up, leaves the manager as it
was but for its events and counters: no transaction is under way, and history and checkpoints are
unchanged. No backup and no document is left under the ids that the command has taken. All that
stood in the tree stands as it did. What is new are directories above the path of the command, or, when
a file is moved out of a directory that cannot be written to, a copy at the target. -/
theorem abandoned_leaves (c : FileCommand) (hs : fs.Sound) (hroot : d.manager.root.isAbsolute = true)
    (hcurrent : d.manager.current = none)
    (hdt : Leads fs d.manager.store.transactionsDirectory dt)
    (hdb : Firm fs d.manager.store.backupsDirectory db)
    (hunused : Unused d fs dt db (c.spelling d.manager.root)) (hbreaks : c.BreaksOff d fs)
    (hrun : Ends c.action d fs (.error stop) d' fs') :
    d'.manager.current = none ∧
      d'.manager = { d.manager with events := d'.manager.events, counters := d'.manager.counters } ∧
      (∀ n, d.taken ≤ n → fs'.at (backupName (d.ids n) :: db) = none ∧
        fs'.at (documentName (d.ids n) :: dt) = none) ∧
      (∀ l e, fs.at l = some e → fs'.at l = some e) ∧
      ∀ l e, fs.at l = none → fs'.at l = some e →
        ∃ p, fs'.spot? p = some l ∧ c.Leaves d.manager.root fs p e := by
  have hnames : ∀ v ∈ c.spelling d.manager.root, IsName v := isName_of_mem_spelled
  obtain ⟨rfl, rfl⟩ | ⟨hbracket, hready⟩ := c.action_error hrun
  · refine ⟨hcurrent, rfl, fun n hn => ⟨hunused.backup n hn, hunused.document n hn⟩,
      fun _ _ h => h, ?_⟩
    intro l e hl he
    simp [hl] at he
  obtain ⟨stop', d₁, fs₁, u, hchange, habort⟩ := hbreaks
  generalize hout : d₁.manager.abort.run fs₁ = out at habort
  obtain ⟨⟨y, m'⟩, fs₂⟩ := out
  obtain rfl : y = .ok u := habort
  have hstart : d.manager.start (d.ids d.taken) d.now c.title c.title c.verb [] =
      (.ok (d.ids d.taken), (c.begun d).manager) := by
    simp [FileCommand.begun, Manager.start, hcurrent]
  obtain ⟨-, rfl, rfl⟩ := hbracket.unique (bracket_error hstart hchange hout)
  have hspelled := c.spelled_leaves d.manager.root fs
  have hplain := hunused.plain d.taken le_rfl
  obtain ⟨⟨events, counters, rfl⟩, hgrown⟩ := (c.change_broken hs hroot hcurrent hdb
    (fun n hn => hunused.plain n hn) (fun n hn => hunused.backup n hn) hready hchange).given_up hs
      (by simpa [FileCommand.begun, Manager.start, hcurrent] using hdt) hnames hspelled hplain
      (hunused.document _ le_rfl) (hunused.apart _ le_rfl).1
      (fun n hn => hunused.backup n (Nat.le_of_succ_le hn)) rfl hout
  refine ⟨rfl, by simp [FileCommand.begun, Manager.start, hcurrent], fun n hn => ⟨?_, ?_⟩,
    fun l e hl => hgrown.at_eq l e hl id, fun l e hl he => ?_⟩
  · exact none_of_grown hgrown hspelled hnames (hunused.apart n hn).2 (hunused.backup n hn)
  · exact none_of_grown hgrown hspelled hnames (hunused.apart n hn).1 (hunused.document n hn)
  · obtain ⟨p, -, hspot, hleaves⟩ := hgrown.new l e hl he
    exact ⟨p, hspot, hleaves⟩

namespace Sample

open Retrace.Sample (manager tree grounds keeps)

def desk : Desk := { manager, now := ⟨0, 0⟩, ids := fun n => if n = 0 then "t" else "o" }

def overlong : FileCommand := .write ⟨[97, slash] ++ List.replicate 256 110⟩ ""

def left : (Except Stop Unit × Desk) × FileSystem := (overlong.action.run desk).run tree

theorem overlong_ends :
    Ends overlong.action desk tree (.error (.failed (.io (.errno .nameTooLong)))) left.1.2 left.2 := by
  unfold left
  exact Action.ends_of_result (by decide +kernel)

def broken : (Except Stop Unit × Desk) × FileSystem :=
  ((overlong.change manager.root).run (overlong.begun desk)).run tree

theorem overlong_breaksOff : overlong.BreaksOff desk tree := by
  have hchange : Ends (overlong.change manager.root) (overlong.begun desk) tree
      (.error (.failed (.io (.errno .nameTooLong)))) broken.1.2 broken.2 := by
    unfold broken
    exact Action.ends_of_result (by decide +kernel)
  have habort : ((broken.1.2.manager.abort.run broken.2).1.1.toOption).isSome := by decide +kernel
  exact ⟨_, _, _, _, hchange, congrArg Prod.fst (eq_ok_get habort)⟩

theorem unused : Unused desk tree grounds.transactions grounds.backups
    (overlong.spelling manager.root) := by
  have hids : ∀ n, desk.ids n = "t" ∨ desk.ids n = "o" := fun n => by
    by_cases hn : n = 0
    · exact .inl (if_pos hn)
    · exact .inr (if_neg hn)
  refine ⟨fun n _ => ?_, fun n _ => ?_, fun n _ => ?_, fun n _ => ?_⟩ <;>
    rcases hids n with h | h <;> rw [h] <;> decide +kernel

end Sample

theorem abandoned_leaves_overlong :
    Ends Sample.overlong.action Sample.desk Retrace.Sample.tree
        (.error (.failed (.io (.errno .nameTooLong)))) Sample.left.1.2 Sample.left.2 ∧
      Sample.left.1.2.manager.current = none ∧
      (∀ l e, Retrace.Sample.tree.at l = some e → Sample.left.2.at l = some e) ∧
      ∀ l e, Retrace.Sample.tree.at l = none → Sample.left.2.at l = some e →
        ∃ p, Sample.left.2.spot? p = some l ∧
          Sample.overlong.Leaves Retrace.Sample.manager.root Retrace.Sample.tree p e := by
  obtain ⟨hcurrent, -, -, hstands, hnew⟩ := abandoned_leaves Sample.overlong Retrace.Sample.keeps.sound
    (by decide +kernel) rfl Retrace.Sample.keeps.transactions Retrace.Sample.keeps.firm_backups
    Sample.unused Sample.overlong_breaksOff Sample.overlong_ends
  exact ⟨Sample.overlong_ends, hcurrent, hstands, hnew⟩

/-- The directory that was made for the file stays. -/
theorem overlong_leaves_directory :
    let made : Location := [[97], Utf8.encode "p"]
    Sample.desk.manager.current.isNone ∧ Sample.overlong.BreaksOff Sample.desk Retrace.Sample.tree ∧
      Ends Sample.overlong.action Sample.desk Retrace.Sample.tree
        (.error (.failed (.io (.errno .nameTooLong)))) Sample.left.1.2 Sample.left.2 ∧
      Retrace.Sample.tree.at made = none ∧ Sample.left.2.at made = some (.directory 0o755) :=
  ⟨rfl, Sample.overlong_breaksOff, Sample.overlong_ends, by decide +kernel, by decide +kernel⟩

end Retrace.CommandLine

