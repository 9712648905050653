import Retrace.Proofs.CommandLine.Runs
import Retrace.Proofs.Recovery
import Retrace.Proofs.Time.Order

/-!
What runs leave of each other: documents that are read again by the next run (`Archived`), and the
completed transactions on top of each other, each above a tree that looks like a scene (`Stacks`). A run
that changed a file lays another transaction on top (`Stacks.done`), and undoing takes the uppermost one
away (`Stacks.undone`).
-/
namespace Retrace

open FileSystem Retrace.Path Script

variable {g : Grounds} {away : Location} {fs fs' fs₀ : FileSystem} {m m' : Manager} {root project : Path}
  {settings : Settings} {t u : Transaction} {id : String}

namespace Manager

structure Anew (root : Path) (settings : Settings) (m : Manager) : Prop where
  store : m.store = ⟨root.join settings.stateDirectory⟩
  root : m.root = root
  settings : m.settings = settings
  current : m.current = none
  nodup : (m.history.map (·.1)).Nodup

/-! ### Documents -/

theorem loadTransactions_only {s : Store} {d : Location}
    (hlist : fs.list s.transactionsDirectory = .ok [documentName id]) (hid : id ≠ "")
    (h : Documented Transaction.ofText? (fun _ => true) s.transactionsDirectory d id t fs) :
    s.loadTransactions.run fs = (.ok [t], fs) := by
  rw [Store.loadTransactions, Store.loadAll_run, hlist]
  simp only [List.filterMap_cons, h.documentAt hid, if_true, List.filterMap_nil]

/-- The store has a document for each transaction that is kept, and all of them can be read again. -/
structure Archived (g : Grounds) (m : Manager) (fs : FileSystem) : Prop where
  keeps : Keeps g m.store fs
  fits : m.store.Fits
  readable : ∀ d ∈ g.folders, d ≠ g.backups → (fs.at d).any Entry.isReadable = true
  filed : Filed Transaction.ofText? Transaction.isReadable m.store.transactionsDirectory
    g.transactions m.transaction? fs
  ordered : Book.Ordered m.transaction? []
  legible : ∀ id t, m.transaction? id = some t → t.isReadable = true

namespace Archived

theorem plainIds (h : Archived g m fs) : PlainIds m where
  transaction id t ht := (h.filed.proper id t ht).1
  operation := h.ordered.plain

theorem congr (h : Archived g m fs) (hstore : m'.store = m.store)
    (hbook : m'.transaction? = m.transaction?) : Archived g m' fs where
  keeps := hstore ▸ h.keeps
  fits := hstore ▸ h.fits
  readable := h.readable
  filed := by rw [hstore, hbook]; exact h.filed
  ordered := hbook ▸ h.ordered
  legible := hbook ▸ h.legible

/-- The document of a transaction has come to its place. -/
theorem put (h : Archived g m fs) (hstore : m'.store = m.store)
    (hbook : m'.transaction? = Book.put m.transaction? t) (hk : Keeps g m.store fs')
    (hfolders : ∀ d ∈ g.folders, fs'.at d = fs.at d)
    (hdocument : ∃ text, t.toText? = some text ∧
      fs'.at (documentName t.id :: g.transactions) = some (.file 0o600 (Utf8.encode text)))
    (hat : ∀ w, w ≠ documentName t.id → fs'.at (w :: g.transactions) = fs.at (w :: g.transactions))
    (hid : Proper t.id) (ha : Aims fs m.store.transactionsDirectory g.transactions (documentName t.id))
    (ho : (Book.put m.transaction? t).Ordered []) (hread : t.isReadable = true) :
    Archived g m' fs' := by
  obtain ⟨text, htext, hdoc⟩ := hdocument
  have hregular := ho.regular t.id t (by simp [Book.put])
  refine
    { keeps := hstore ▸ hk, fits := hstore ▸ h.fits, ordered := hbook ▸ ho
      readable := fun d hd hne => by rw [hfolders d hd]; exact h.readable d hd hne
      filed := ?_
      legible := fun j u hu => ?_ }
  · rw [hstore, hbook]
    refine h.filed.put hk.transactions hid ha hdoc hat ?_
    rw [Utf8.decode?_encode, Option.bind_some, Transaction.ofText?_toText? hregular htext]
  · rw [hbook] at hu
    rcases Book.put_eq_some.1 hu with ⟨-, rfl⟩ | ⟨-, hu⟩
    · exact hread
    · exact h.legible j u hu

theorem opened (h : Archived g m fs) (hmade : m.store.ensureDirectories.run fs₀ = (.ok (), fs))
    (hstore : m.store = ⟨root.join settings.stateDirectory⟩)
    (hproject : fs₀.currentDirectory.normalize project = root)
    (hcapacity : (EventLog.create? settings.eventCapacity).isSome) (now : Instant) :
    ∃ s x, open? project settings now = some s ∧ s.run fs₀ = (.ok x, fs) ∧ Anew root settings x ∧
      x.transaction? = m.transaction? := by
  obtain ⟨events, s, hopen, hrun⟩ := open?_run now hproject hcapacity
  have hfresh : (fresh root settings events now).store = m.store := hstore.symm
  rw [← hfresh] at hmade
  obtain ⟨ts, x, hload, rfl, hbook⟩ := load_filed hmade (hfresh ▸ h.keeps) h.readable
    (hfresh ▸ h.filed) h.ordered.keyed
  refine ⟨s, _, hopen, hrun.trans hload, ⟨rfl, rfl, rfl, rfl, Index.nodup_ofValues _ _⟩, ?_⟩
  rw [hbook]
  funext id
  cases ht : m.transaction? id with
  | none => rfl
  | some t => exact Option.filter_eq_some_iff.2 ⟨rfl, h.legible id t ht⟩

end Archived

theorem archived_of_empty (hk : Keeps g m.store fs) (hfits : m.store.Fits)
    (hreadable : ∀ d ∈ g.folders, d ≠ g.backups → (fs.at d).any Entry.isReadable = true)
    (hempty : ∀ w, Store.isDocumentName w = true → fs.at (w :: g.transactions) = none)
    (hbook : m.transaction? = fun _ => none) : Archived g m fs where
  keeps := hk
  fits := hfits
  readable := hreadable
  filed := by
    rw [hbook]
    exact ⟨nofun, nofun, fun w e he hw => by rw [hempty w hw] at he; cases he⟩
  ordered := by
    rw [hbook]
    exact ⟨nofun, nofun, nofun, nofun, fun _ _ _ _ ht => (nomatch ht),
      fun _ hop => absurd hop List.not_mem_nil, nofun⟩
  legible := by
    rw [hbook]
    nofun

end Manager

namespace CommandLine

open Retrace.CommandLine.Action (Ends)

variable {s p : Surroundings} {past : List Surroundings} {xs : List (Operation × Option Bytes)}
  {ls : List Layer} {b : Scene} {bs : List Scene} {c : FileCommand} {fs₁ : FileSystem}

/-! ### Runs one after the other -/

/-- A run that makes a transaction has a time and ids that can be read again, and no id twice. -/
structure Surroundings.Fair (s : Surroundings) : Prop where
  regular : s.now.Regular
  proper : ∀ n, Proper (s.ids n)
  injective : Function.Injective s.ids

structure Surroundings.Later (s p : Surroundings) : Prop where
  time : p.now.lt s.now = true
  ids : ∀ i j, s.ids i ≠ p.ids j

structure Surroundings.Stems (p : Surroundings) (t : Transaction) : Prop where
  id : t.id = p.ids 0
  time : t.timestamp = p.now
  ids : ∀ op ∈ t.operations, ∃ n, op.id = p.ids n

theorem Surroundings.Later.id_ne (h : s.Later p) (ht : p.Stems t) : t.id ≠ s.ids 0 := by
  rw [ht.id]
  exact (h.ids 0 0).symm

theorem Done.stems (h : Done g c (s.desk m) fs t xs fs₁ m' fs') : s.Stems t where
  id := by rw [h.transaction]; rfl
  time := by rw [h.transaction]; rfl
  ids op hop := by
    have hmem : op.id ∈ xs.map (·.1.id) := by
      rw [h.transaction] at hop
      obtain ⟨x, hx, rfl⟩ := List.mem_map.1 hop
      exact List.mem_map_of_mem (f := fun x => x.1.id) hx
    rw [h.ids] at hmem
    obtain ⟨n, -, hn⟩ := List.mem_map.1 hmem
    exact ⟨n, hn.symm⟩

theorem Surroundings.Later.parts (h : s.Later p) (hu : p.Stems u) (ht : s.Stems t) :
    ∀ op ∈ u.operations, ∀ op' ∈ t.operations, op.id ≠ op'.id := by
  intro op hop op' hop' heq
  obtain ⟨n, hn⟩ := hu.ids op hop
  obtain ⟨k, hk⟩ := ht.ids op' hop'
  exact h.ids k n (hk.symm.trans (heq.symm.trans hn))

section

variable {d : Desk}

theorem Done.book (h : Done g c d fs t xs fs₁ m' fs') :
    m'.transaction? = Book.put d.manager.transaction? t := by
  rw [h.kept]
  exact funext fun j => Manager.transaction?_keep _ _ _

theorem Done.folders (h : Done g c d fs t xs fs₁ m' fs') (hk : Keeps g d.manager.store fs) :
    ∀ k ∈ g.folders, fs'.at k = fs.at k := by
  intro k hk'
  obtain ⟨text, -, hedit⟩ := h.document
  refine (hedit.at_of_ne fun heq => ?_).trans (h.trail.at_folders hk')
  have hwithin : g.Within (documentName t.id :: g.transactions) :=
    Grounds.within_cons (by simp [Grounds.folders]) _
  exact (h.trail.keeps hk).folder_not_within hk' (heq ▸ hwithin)

theorem Done.others (h : Done g c d fs t xs fs₁ m' fs') {w : Bytes} (hw : w ≠ documentName t.id) :
    fs'.at (w :: g.transactions) = fs.at (w :: g.transactions) := by
  obtain ⟨text, -, hedit⟩ := h.document
  exact (hedit.at_of_ne fun heq => hw (List.cons.inj heq).1).trans (h.trail.at_transactions w)

end

/-! ### Transactions on top of each other -/

inductive Piled (g : Grounds) (away : Location) (s : Store) :
    List Layer → List Scene → FileSystem → Prop
  | nil {fs : FileSystem} : Piled g away s [] [] fs
  | cons {t : Transaction} {xs : List (Operation × Option Bytes)} {ls : List Layer} {b : Scene}
    {bs : List Scene} {fs₁ fs₂ fs : FileSystem} (h : Piled g away s ls bs fs₁) (hb : Appears away fs₁ b)
    (htrail : Trail g s fs₁ xs fs₂) (halike : Alike g fs₂ fs) :
    Piled g away s ((t, xs) :: ls) (b :: bs) fs

theorem Piled.congr {s : Store} (h : Piled g away s ls bs fs) (hfs : Alike g fs fs') :
    Piled g away s ls bs fs' := by
  cases h with
  | nil => exact .nil
  | cons h hb htrail halike => exact .cons h hb htrail (halike.trans hfs)

/-- The completed transactions lie on top of each other, all from runs of the past, and each can be
rolled back. -/
structure Stacks (g : Grounds) (away : Location) (past : List Surroundings) (m : Manager)
    (ls : List Layer) (bs : List Scene) (fs : FileSystem) : Prop extends Manager.Archived g m fs where
  known : ∀ id t, m.transaction? id = some t → ∃ p ∈ past, p.Stems t
  layers : ∀ t, t ∈ ls.map (·.1) ↔ m.transaction? t.id = some t ∧ t.status = .completed
  newest : (ls.map (·.1)).Pairwise fun t u => u.timestamp.lt t.timestamp = true
  piled : Piled g away m.store ls bs fs
  held : ∀ l ∈ ls, Held g m fs l.1 l.2

namespace Stacks

theorem congr (h : Stacks g away past m ls bs fs) (hstore : m'.store = m.store)
    (hbook : m'.transaction? = m.transaction?) : Stacks g away past m' ls bs fs where
  toArchived := h.toArchived.congr hstore hbook
  known := hbook ▸ h.known
  layers := hbook ▸ h.layers
  newest := h.newest
  piled := hstore ▸ h.piled
  held l hl := (h.held l hl).congr hstore h.keeps (hbook ▸ (h.held l hl).kept) (fun _ _ => rfl)
    (h.held l hl).room

theorem length_history_le (h : Stacks g away past m ls bs fs)
    (hnodup : (m.history.map (·.1)).Nodup) : m.history.length ≤ past.length := by
  have hsub : m.history.map (·.1) ⊆ past.map (·.ids 0) := by
    intro id hid
    obtain ⟨⟨k, t⟩, hmem, rfl⟩ := List.mem_map.1 hid
    have ht : m.transaction? k = some t := (Index.get?_eq_some_iff hnodup).2 hmem
    obtain ⟨p, hp, hstems⟩ := h.known k t ht
    refine List.mem_map.2 ⟨p, hp, ?_⟩
    rw [← hstems.id]
    exact h.ordered.keyed k t ht
  simpa using (List.subperm_of_subset hnodup hsub).length_le

/-- The uppermost transaction is the newest one that is completed. -/
theorem head_completed (h : Stacks g away past m ls bs fs)
    (hnodup : (m.history.map (·.1)).Nodup) :
    (m.transactions.filter (·.status = .completed)).head? = (ls.map (·.1)).head? := by
  have hmem : ∀ u, u ∈ m.transactions.filter (·.status = .completed) ↔ u ∈ ls.map (·.1) := fun u => by
    rw [List.mem_filter, Manager.mem_transactions h.ordered.keyed hnodup, h.layers u, decide_eq_true_eq]
  have hsorted := m.transactions_sorted.filter (·.status = .completed)
  generalize m.transactions.filter (·.status = .completed) = us at hmem hsorted
  have hnewest := h.newest
  generalize ls.map (·.1) = ts at hmem hnewest
  cases us with
  | nil =>
    rw [List.eq_nil_iff_forall_not_mem.2 fun u hu => List.not_mem_nil ((hmem u).2 hu)]
  | cons u us =>
    cases ts with
    | nil => exact absurd ((hmem u).1 List.mem_cons_self) List.not_mem_nil
    | cons t ts =>
      by_contra hne
      have hut : u ≠ t := fun heq => hne (by rw [heq]; rfl)
      have htail : t ∈ us := (List.mem_cons.1 ((hmem t).2 List.mem_cons_self)).resolve_left hut.symm
      have htail' : u ∈ ts := (List.mem_cons.1 ((hmem u).1 List.mem_cons_self)).resolve_left hut
      have hle := (List.pairwise_cons.1 hsorted).1 t htail
      have hlt := (List.pairwise_cons.1 hnewest).1 u htail'
      rw [hlt] at hle
      cases hle

/-- The transaction of a command that was carried out comes to the book. -/
theorem book_done (h : Stacks g away past m ls bs fs) (hd : Done g c (s.desk m) fs t xs fs₁ m' fs')
    (hs : s.Fair) (hlater : ∀ p ∈ past, s.Later p) :
    (Book.put m.transaction? t).Ordered [] ∧ t.isReadable = true := by
  have hstems := hd.stems
  have hops : t.operations = xs.map (·.1) := by rw [hd.transaction]
  have hxs : ∀ op ∈ t.operations, op.Regular ∧ op.isReadable = true := fun op hop => by
    rw [hops] at hop
    obtain ⟨x, hx, rfl⟩ := List.mem_map.1 hop
    exact hd.regular hs.regular x hx
  have hmetadata : t.metadata = [] := by rw [hd.transaction]; rfl
  have hrollback : t.rollbackTimestamp = none := by rw [hd.transaction]; rfl
  refine ⟨h.ordered.put (List.Subset.refl _) ⟨fun op hop => (hxs op hop).1, ?_, ?_, ?_⟩
    (fun _ => hrollback) (fun op hop => ?_) (fun j u hu _ op hop op' hop' heq => ?_)
    (fun _ _ _ hop' => absurd hop' List.not_mem_nil), ?_⟩
  · rw [hstems.time]
    exact hs.regular
  · rw [hrollback]
    nofun
  · rw [hmetadata]
    exact ⟨0, rfl⟩
  · obtain ⟨n, hn⟩ := hstems.ids op hop
    exact hn ▸ (hs.proper n).1
  · obtain ⟨p, hp, hu⟩ := h.known j u hu
    exact (hlater p hp).parts hu hstems op' hop' op hop heq.symm
  · rw [Transaction.isReadable, hmetadata, Bool.and_eq_true, List.all_eq_true]
    exact ⟨rfl, fun op hop => (hxs op hop).2⟩

/-- A command that was carried out lays its transaction on top. -/
theorem done (h : Stacks g away past m ls bs fs) (hd : Done g c (s.desk m) fs t xs fs₁ m' fs')
    (hs : s.Fair) (hlater : ∀ p ∈ past, s.Later p) (hb : Appears away fs b) :
    Stacks g away (past ++ [s]) m' ((t, xs) :: ls) (b :: bs) fs' := by
  have hstems := hd.stems
  obtain ⟨hordered, hread⟩ := h.book_done hd hs hlater
  have hstore : m'.store = m.store := hd.store
  have hbook : m'.transaction? = Book.put m.transaction? t := hd.book
  have hk : Keeps g m.store fs' := hstore ▸ hd.held.keeps
  obtain ⟨text, htext, hedit⟩ := hd.document
  have hfolders : ∀ d ∈ g.folders, fs'.at d = fs.at d := hd.folders h.keeps
  have hnew : ∀ u, m.transaction? u.id = some u → u.id ≠ t.id ∧ u.timestamp.lt t.timestamp = true ∧
      ∀ op ∈ u.operations, ∀ op' ∈ t.operations, op.id ≠ op'.id := fun u hu => by
    obtain ⟨p, hp, hpu⟩ := h.known _ u hu
    have hl := hlater p hp
    exact ⟨by rw [hstems.id]; exact hl.id_ne hpu, by rw [hpu.time, hstems.time]; exact hl.time,
      hl.parts hpu hstems⟩
  have hkept : ∀ l ∈ ls, m.transaction? l.1.id = some l.1 := fun l hl => (h.held l hl).kept
  refine
    { toArchived := h.toArchived.put hstore hbook hk hfolders ⟨text, htext, hedit.at_self⟩
        (fun _ => hd.others)
        (hstems.id ▸ hs.proper 0)
        (by rw [← hstore]; exact hd.held.aims.of_leads (hstore ▸ h.keeps.transactions)) hordered hread
      known := fun j u hu => ?_
      layers := fun u => ?_
      newest := List.pairwise_cons.2 ⟨fun u hu => ?_, h.newest⟩
      piled := .cons (hstore ▸ h.piled) hb (hstore ▸ hd.trail) hd.alike
      held := List.forall_mem_cons.2 ⟨hd.held, fun l hl => ?_⟩ }
  · rw [hbook] at hu
    rcases Book.put_eq_some.1 hu with ⟨-, rfl⟩ | ⟨-, hu⟩
    · exact ⟨s, by simp, hstems⟩
    · obtain ⟨p, hp, hpu⟩ := h.known j u hu
      exact ⟨p, by simp [hp], hpu⟩
  · rw [hbook, Book.put_eq_some, List.map_cons, List.mem_cons, h.layers]
    constructor
    · rintro (rfl | ⟨hu, hcompleted⟩)
      · exact ⟨.inl ⟨rfl, rfl⟩, hd.held.completed⟩
      · exact ⟨.inr ⟨(hnew u hu).1, hu⟩, hcompleted⟩
    · rintro ⟨⟨-, rfl⟩ | ⟨-, hu⟩, hcompleted⟩
      · exact .inl rfl
      · exact .inr ⟨hu, hcompleted⟩
  · exact (hnew u ((h.layers u).1 hu).1).2.1
  · refine (h.held l hl).congr hstore hk ?_ (fun op hop => ?_) ?_
    · rw [hbook, Book.put, if_neg (hnew l.1 (hkept l hl)).1, hkept l hl]
    · rw [hedit.at_of_ne fun heq => h.keeps.transactions_ne_backups (List.cons.inj heq).2.symm]
      refine hd.trail.at_backups fun x hx heq => ?_
      refine (hnew l.1 (hkept l hl)).2.2 op hop x.1 ?_ (backupName_inj heq)
      rw [hd.held.operations]
      exact List.mem_map_of_mem hx
    · exact (h.held l hl).room.congr (hfolders _ (by simp [Grounds.folders])) fun i => by
        rw [hd.others fun heq => documentName_ne_temporary _ i heq.symm]

/-- Undoing takes the uppermost transaction away. -/
theorem undone {options : Rollback.Options}
    (h : Stacks g away past m ((t, xs) :: ls) (b :: bs) fs) (hg : g.Inside away)
    (hnodup : (m.history.map (·.1)).Nodup) (hnow : s.now.Regular) (hdry : options.dryRun = false) :
    ∃ d' fs', Ends (undo none options) (s.desk m) fs (.ok ()) d' fs' ∧ Appears away fs' b ∧
      d'.manager.store = m.store ∧ Stacks g away past d'.manager ls bs fs' := by
  obtain _ | ⟨hpiled, hb, htrail, halike⟩ := h.piled
  have hheld : Held g m fs t xs := h.held (t, xs) List.mem_cons_self
  obtain ⟨e, d', fs', hend, hback, hr⟩ := undo_newest (d := s.desk m) (h.head_completed hnodup) hheld
    htrail halike hdry
  replace hr : RolledBack g m s.now t fs e d'.manager fs' := hr
  have hkept : m.transaction? t.id = some t := hheld.kept
  have hstore : d'.manager.store = m.store := by rw [hr.manager]
  have hbook : d'.manager.transaction? = Book.put m.transaction? (t.reverted s.now) := by
    rw [hr.manager]
    exact Manager.book_put m (t.reverted s.now)
  have hother : ∀ u ∈ ls.map (·.1), m.transaction? u.id = some u ∧ u.id ≠ t.id := fun u hu => by
    have hu' : m.transaction? u.id = some u := ((h.layers u).1 (List.mem_cons_of_mem _ hu)).1
    refine ⟨hu', fun heq => ?_⟩
    have hlt := (List.pairwise_cons.1 h.newest).1 u hu
    rw [heq, hkept] at hu'
    obtain rfl := Option.some.inj hu'
    rw [Instant.lt_asymm hlt] at hlt
    cases hlt
  have hstays : ∀ u ∈ ls.map (·.1), d'.manager.transaction? u.id = some u := fun u hu => by
    rw [hbook]
    exact (if_neg (hother u hu).2).trans (hother u hu).1
  refine ⟨d', fs', hend, hb.alike hg hback, hstore,
    { toArchived := h.toArchived.put hstore hbook hr.keeps hr.folders hr.document hr.transactions
        (h.filed.proper t.id t hkept) hheld.aims (h.ordered.revert hkept hnow) (h.legible t.id t hkept)
      known := fun j u hu => ?_
      layers := fun u => ⟨fun hu => ⟨hstays u hu, ((h.layers u).1 (List.mem_cons_of_mem _ hu)).2⟩, ?_⟩
      newest := (List.pairwise_cons.1 h.newest).2
      piled := hstore ▸ hpiled.congr hback
      held := fun l hl => ?_ }⟩
  · rw [hbook] at hu
    rcases Book.put_eq_some.1 hu with ⟨-, rfl⟩ | ⟨-, hu⟩
    · obtain ⟨p, hp, hpt⟩ := h.known t.id t hkept
      exact ⟨p, hp, hpt.id, hpt.time, hpt.ids⟩
    · exact h.known j u hu
  · rintro ⟨hu, hcompleted⟩
    rw [hbook] at hu
    rcases Book.put_eq_some.1 hu with ⟨-, rfl⟩ | ⟨hne, hu⟩
    · cases hcompleted
    · refine (List.mem_cons.1 ((h.layers u).2 ⟨hu, hcompleted⟩)).resolve_left fun heq => hne ?_
      rw [heq]
      rfl
  · have hl' := hother l.1 (List.mem_map_of_mem hl)
    have hstanding : Standing g m fs l.1 l.2 :=
      { toHeld := h.held l (List.mem_cons_of_mem _ hl)
        alone := fun j u hu hj op hop op' hop' heq =>
          h.ordered.apart l.1.id j l.1 u hl'.1 hu (Ne.symm hj) op hop op' hop' heq.symm }
    exact (hstanding.rolledBack hl'.2 hkept hr).toHeld

theorem start (h : Manager.Archived g m fs) (hbook : m.transaction? = fun _ => none) :
    Stacks g away [] m [] [] fs where
  toArchived := h
  known := by rw [hbook]; nofun
  layers t := by simp [hbook]
  newest := .nil
  piled := .nil
  held := nofun

end Stacks
end CommandLine
end Retrace
