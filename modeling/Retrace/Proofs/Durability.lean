import Retrace.Proofs.Filing
import Retrace.Proofs.Opening
import Retrace.Proofs.Outlying
import Retrace.Proofs.Pruning
import Retrace.Proofs.RoundTrip
import Retrace.Proofs.Writing

/-!
What the documents say once transactions have gone or were rolled back, whatever else is kept beside
them. A manager that is opened afterwards knows nothing of what has gone, and knows what was rolled back
as such, unless a document of another name tells of the same id (`reopened_knows`).
-/
namespace Retrace

open FileSystem Script
open Retrace.Path (IsName)
open Rollback (Options Result Pending)

/-! ### Entries that have gone -/

namespace FileSystem

variable {fs fs' fs'' : FileSystem} {p f : Path} {l d : Location} {w c : Bytes} {N N' : Bytes → Prop}
  {g : Grounds} {s : Store}

/-- The entry that a path names has the last piece of the path for its name. -/
theorem head_of_spot? (h : fs.spot? p = some l) :
    ∃ w d, l = w :: d ∧ IsName w ∧ p.named.getLast? = some w := by
  obtain ⟨a, ha, hl⟩ := approach_of_spot? h
  rw [approach] at ha
  split at ha
  · cases ha
  split at ha
  · cases ha
  dsimp only at ha
  split at ha
  · obtain rfl := Except.ok.inj ha
    cases hl
  · next w above hpieces =>
    obtain ⟨r, -, ha⟩ := exists_of_bind ha
    cases r with
    | vacant k v s => cases ha
    | entry k e s =>
      obtain rfl := Except.ok.inj ha
      rw [Approach.location?, endingOf] at hl
      split at hl
      · next v hv =>
        split at hv
        · cases hv
        split at hv
        · cases hv
        obtain rfl := Ending.name.inj hv
        have hlast : p.named.getLast? = some w := by
          rw [Path.named, ← List.head?_reverse, hpieces, List.head?_cons]
        obtain ⟨hmem, hne⟩ := List.mem_filter.1 (List.mem_of_getLast? hlast)
        have hname : IsName w := ⟨by simpa using hne, ‹_›, ‹_›, Path.not_mem_of_mem_split hmem⟩
        exact ⟨w, k, (Option.some.inj hl).symm, hname, hlast⟩
      · cases hl

structure Sifted (N : Bytes → Prop) (fs fs' : FileSystem) : Prop where
  sound : fs'.Sound
  at_eq : ∀ k, fs'.at k = fs.at k ∨ fs'.at k = none ∧ ∃ w d, k = w :: d ∧ N w

namespace Sifted

theorem refl (hs : fs.Sound) : Sifted N fs fs := ⟨hs, fun _ => .inl rfl⟩

theorem trans (h : Sifted N fs fs') (h' : Sifted N fs' fs'') : Sifted N fs fs'' where
  sound := h'.sound
  at_eq k := by
    rcases h'.at_eq k with hsame | hgone
    · rw [hsame]
      exact h.at_eq k
    · exact .inr hgone

theorem mono (h : Sifted N fs fs') (hN : ∀ w, N w → N' w) : Sifted N' fs fs' where
  sound := h.sound
  at_eq k := (h.at_eq k).imp_right fun ⟨hnone, w, d, hk, hw⟩ => ⟨hnone, w, d, hk, hN w hw⟩

theorem at_none (h : Sifted N fs fs') (hl : fs.at l = none) : fs'.at l = none :=
  (h.at_eq l).elim (fun hsame => hsame.trans hl) And.left

theorem at_eq_some {e : Entry} (h : Sifted N fs fs') (hl : fs'.at l = some e) : fs.at l = some e := by
  rcases h.at_eq l with hsame | ⟨hnone, -⟩
  · exact hsame.symm.trans hl
  · rw [hnone] at hl
    cases hl

theorem read (h : Sifted N fs fs') (hs : fs.Sound) (hp : p.isAbsolute = true) (hc : fs'.read p = .ok c) :
    fs.read p = .ok c := by
  have hspares : Spares fs' (fun _ => False) fs := ⟨hs, fun _ _ he _ => h.at_eq_some he⟩
  exact hspares.read h.sound hp hc

theorem stands (h : Sifted N fs fs') (hk : Stands g s fs) (hN : ∀ w d, w :: d ∈ g.ways → ¬N w) :
    Stands g s fs' :=
  hk.congr h.sound fun k hkw => (h.at_eq k).resolve_right fun ⟨_, w, d, hkd, hw⟩ =>
    hN w d (hkd ▸ hkw) hw

end Sifted

theorem removing_sifted (hs : fs.Sound) (ps : List Path)
    (hN : ∀ p ∈ ps, ∀ w, p.named.getLast? = some w → N w) : Sifted N fs (fs.removing ps) := by
  induction ps generalizing fs with
  | nil => exact .refl hs
  | cons p ps ih =>
    have hN' : ∀ q ∈ ps, ∀ w, q.named.getLast? = some w → N w := fun q hq =>
      hN q (List.mem_cons_of_mem _ hq)
    rw [← List.singleton_append, removing_append]
    cases hremove : fs.removeFile p with
    | error e =>
      have hstill : fs.removing [p] = fs := by simp [removing, hremove]
      rw [hstill]
      exact ih hs hN'
    | ok fs₁ =>
      have hgone : fs.removing [p] = fs₁ := by simp [removing, hremove]
      have hwithout := (removeFile_without hs hremove).1
      rw [hgone]
      refine .trans ⟨hwithout.sound, fun k => ?_⟩ (ih hwithout.sound hN')
      by_cases hk : fs.spot? p = some k
      · obtain ⟨w, d, hkd, -, hw⟩ := head_of_spot? hk
        exact .inr ⟨hwithout.gone k hk, w, d, hkd, hN p List.mem_cons_self w hw⟩
      · exact .inl (hwithout.others k hk)

theorem Leads.unique {d' : Location} (h : Leads fs f d) (h' : Leads fs f d') : d' = d := by
  obtain ⟨m, s, hwalk⟩ := h.walk
  obtain ⟨m', s', hwalk'⟩ := h'.walk
  rw [hwalk] at hwalk'
  cases hwalk'
  rfl

theorem Leads.file_of_read (h : Leads fs f d) (hs : fs.Sound) (ht : f.Tidy) (hw : IsName w)
    (hlink : ∀ t, fs.at (w :: d) ≠ some (.link t)) (hc : fs.read (f.join ⟨w⟩) = .ok c) :
    ∃ m, fs.at (w :: d) = some (.file m c) := by
  obtain ⟨d', haims⟩ := aims_of_read hs h.absolute ht hw hc
  obtain rfl := h.unique haims.toLeads
  rw [haims.read hlink] at hc
  split at hc
  · cases hc
  · split at hc
    · split at hc
      · obtain rfl := Except.ok.inj hc
        exact ⟨_, ‹_›⟩
      · cases hc
    · cases hc

end FileSystem

/-- What writing a file has changed: another file, or a name at which it or a directory has come. -/
theorem Files.Written.at_eq {fs fs' : FileSystem} {p : Path} {content : Bytes}
    (h : Written fs p content fs' (.ok ())) (hs : fs.Sound) (hp : p.isAbsolute = true) (k : Location) :
    fs'.at k = fs.at k ∨
      (fs'.at k = some (.file 0o600 content) ∧ ∃ m c, fs.at k = some (.file m c)) ∨
      ∃ w d, k = w :: d ∧ IsName w ∧
        (fs'.at k = some (.file 0o600 content) ∧ p.named.getLast? = some w ∨
          fs.at k = none ∧ ∃ m, fs'.at k = some (.directory m)) := by
  cases h with
  | whole target made place old edit =>
    rename_i q fs₁ l
    by_cases hkl : k = l
    · subst hkl
      right
      rcases place with hspot | hbeyond
      · obtain ⟨w, d, rfl, hname, hw⟩ := head_of_spot? hspot
        exact .inr ⟨w, d, rfl, hname, .inl ⟨edit.at_self, hw⟩⟩
      · obtain ⟨⟨e, he⟩, -⟩ := realLocation_spec hs hp hbeyond.2
        refine .inl ⟨edit.at_self, file_of_realLocation hs hp hbeyond.2 fun x hx => old x ?_⟩
        exact made.at_eq k x hx id
    rw [edit.at_of_ne hkl]
    cases hx : fs.at k with
    | some x => exact .inl (made.at_eq k x hx id)
    | none =>
      cases hx' : fs₁.at k with
      | none => exact .inl rfl
      | some x =>
        obtain ⟨f, -, hspot, -, hdir⟩ := made.new k x hx hx'
        obtain ⟨w, d, rfl, hname, -⟩ := head_of_spot? hspot
        cases x with
        | directory m => exact .inr (.inr ⟨w, d, rfl, hname, .inr ⟨rfl, m, rfl⟩⟩)
        | _ => cases hdir

namespace Manager

variable {g : Grounds} {m m' m'' : Manager} {fs fs' fs'' : FileSystem} {now later : Instant}
  {options : Options} {t u : Transaction} {p : Pending} {id : String} {w : Bytes} {b : Backups}

/-! ### Opening -/

/-- A manager that is opened on a tree, and the tree that is there then. -/
def Opens (before : FileSystem) (m : Manager) (fs : FileSystem) : Prop :=
  ∃ project settings now s, open? project settings now = some s ∧ s.run before = (.ok m, fs)

abbrev told (m : Manager) (fs : FileSystem) (w : Bytes) : Option Transaction :=
  Store.documentAt Transaction.ofText? m.store.transactionsDirectory fs w

theorem Opens.still (h : Opens fs m fs') (hk : Stands g m.store fs) : fs' = fs := by
  obtain ⟨project, settings, now, s, hopen, hload⟩ := h
  obtain ⟨ts, cs, hmade, -⟩ := open_ok hopen hload
  rw [Store.ensureDirectories_run hk (Store.fits_of_ensureDirectories hmade)] at hmade
  exact (Prod.mk.inj hmade).2.symm

/-- What is known of a transaction is what one of the documents tells. -/
theorem Opens.told (h : Opens fs m fs') (hk : Stands g m.store fs') (hu : m.transaction? id = some u) :
    u.id = id ∧ ∃ w, (fs'.at (w :: g.transactions)).isSome ∧ m.told fs' w = some u := by
  obtain ⟨project, settings, now, s, hopen, hload⟩ := h
  obtain ⟨ts, cs, hmade, hts, -, -, hhistory, -⟩ := open_ok hopen hload
  have hfits := Store.fits_of_ensureDirectories hmade
  rw [transaction?, hhistory] at hu
  obtain ⟨hmem, hid⟩ := Index.mem_of_get?_ofValues hu
  refine ⟨hid, ?_⟩
  rw [Store.loadTransactions, Store.loadAll_run, hk.transactions.list,
    if_pos (hfits _ (by simp [Store.directories]))] at hts
  split at hts
  · next names hlist =>
    obtain rfl := Except.ok.inj hts
    obtain ⟨w, hw, htold⟩ := List.mem_filterMap.1 hmem
    split at hlist
    · obtain rfl := Except.ok.inj hlist
      exact ⟨w, mem_children.1 hw, htold⟩
    · cases hlist
  · next e hlist =>
    split at hlist
    · cases hlist
    · obtain rfl := Except.error.inj hlist
      cases hts

theorem Opens.again (h : Opens fs m fs') (h' : Opens fs' m' fs'') (hk : Stands g m.store fs')
    (hstore : m'.store = m.store) : m'.transaction? = m.transaction? := by
  obtain rfl := h'.still (hstore ▸ hk)
  obtain ⟨project, settings, now, s, hopen, hload⟩ := h
  obtain ⟨project', settings', now', s', hopen', hload'⟩ := h'
  obtain ⟨ts, cs, -, hts, -, -, hhistory, -⟩ := open_ok hopen hload
  obtain ⟨ts', cs', -, hts', -, -, hhistory', -⟩ := open_ok hopen' hload'
  rw [hstore, hts, Except.ok.injEq] at hts'
  funext id
  rw [transaction?, transaction?, hhistory, hhistory', hts']

def IsFileName (m : Manager) (w : Bytes) : Prop := ∃ id p, m.IsFileOf id p ∧ p.named.getLast? = some w

theorem Fewer.isFileName (h : Fewer m m') (hw : m'.IsFileName w) : m.IsFileName w := by
  obtain ⟨id, p, hp, hlast⟩ := hw
  exact ⟨id, p, h.isFileOf hp, hlast⟩

/-- The directories of the store are there, whatever they hold, and nothing on the way to them has the
name of a document or a backup of a transaction that is kept. -/
structure Housed (g : Grounds) (m : Manager) (fs : FileSystem) : Prop where
  stands : Stands g m.store fs
  names : ∀ w, (fs.at (w :: g.transactions)).isSome → IsName w
  offway : ∀ w d, w :: d ∈ g.ways → ¬m.IsFileName w

/-! ### Letting go -/

structure Struck (g : Grounds) (m : Manager) (fs : FileSystem) (m' : Manager) (fs' : FileSystem) :
    Prop where
  fewer : Fewer m m'
  sifted : Sifted m.IsFileName fs fs'
  gone : ∀ id t, m.transaction? id = some t → m'.transaction? id = none → IsName (documentName id) →
    fs'.at (documentName id :: g.transactions) = none

theorem Struck.refl (hs : fs.Sound) : Struck g m fs m fs where
  fewer := .refl m
  sifted := .refl hs
  gone id t ht hnone := by
    rw [ht] at hnone
    cases hnone

theorem Struck.trans (h : Struck g m fs m' fs') (h' : Struck g m' fs' m'' fs'') :
    Struck g m fs m'' fs'' where
  fewer := h.fewer.trans h'.fewer
  sifted := h.sifted.trans (h'.sifted.mono fun _ hw => h.fewer.isFileName hw)
  gone id t ht hnone hname := by
    cases hm : m'.transaction? id with
    | some u => exact h'.gone id u hm hnone hname
    | none => exact h'.sifted.at_none (h.gone id t ht hm hname)

theorem Struck.housed (h : Struck g m fs m' fs') (hk : Housed g m fs) : Housed g m' fs' where
  stands := by
    have hstore : m'.store = m.store := by rw [h.fewer.others]
    rw [hstore]
    exact h.sifted.stands hk.stands hk.offway
  names w hw := by
    obtain ⟨e, he⟩ := Option.isSome_iff_exists.1 hw
    exact hk.names w (by rw [h.sifted.at_eq_some he]; rfl)
  offway w d hl hw := hk.offway w d hl (h.fewer.isFileName hw)

/-- What is purged has no document left. -/
theorem purge_gone {j : String} (hk : Stands g m.store fs) (ht : m.transaction? j = some t)
    (hgone : ((m.purge id).run fs).1.2.transaction? j = none) (hname : IsName (documentName j)) :
    ((m.purge id).run fs).2.at (documentName j :: g.transactions) = none := by
  have hremoved := Files.removeIfPresent_result hk.sound (m.store.transactionPath id)
  rw [purge] at hgone ⊢
  cases hid : m.transaction? id with
  | none =>
    simp only [hid, run_pure, ht] at hgone
    cases hgone
  | some u =>
    simp only [hid, run_bind, Store.deleteTransaction] at hgone ⊢
    rcases hremoved with ⟨-, e, hrun⟩ | ⟨hfree, b, fs₁, hrun, hwithout, -⟩
    · simp only [hrun, run_pure, ht] at hgone
      cases hgone
    · simp only [hrun, run_bind, run_pure] at hgone ⊢
      obtain rfl : j = id := by
        by_contra hne
        rw [transaction?_remove, if_neg hne, ht] at hgone
        cases hgone
      have hnone := hwithout.gone _ (hk.transactions.spot?_of_free hname hfree)
      have hsifted : Sifted (fun _ => True) fs₁ ((m.backups.removeFor u).run fs₁).2 := by
        rw [Backups.removeFor, m.backups.removeEach_removing]
        exact removing_sifted hwithout.sound _ fun _ _ _ _ => trivial
      exact hsifted.at_none hnone

theorem purge_struck (hk : Stands g m.store fs) (id : String) :
    Struck g m fs ((m.purge id).run fs).1.2 ((m.purge id).run fs).2 where
  fewer := purge_fewer m id
  sifted := by
    obtain ⟨ps, hps, hfiles⟩ := m.purge_removing id fs
    rw [hps]
    exact removing_sifted hk.sound ps fun p hp w hw => ⟨id, p, hfiles p hp, hw⟩
  gone _ _ ht hgone hname := purge_gone hk ht hgone hname

theorem purgeEach_struck (hk : Housed g m fs) (ids : List String) :
    Struck g m fs ((m.purgeEach ids).run fs).1.2 ((m.purgeEach ids).run fs).2 := by
  induction ids generalizing m fs with
  | nil => exact .refl hk.stands.sound
  | cons id ids ih =>
    have hfirst := purge_struck hk.stands id
    simp only [purgeEach, run_bind, run_pure]
    exact hfirst.trans (ih (hfirst.housed hk))

theorem clear_struck {days : Option Nat} {x : Script (Nat × Manager)} (hk : Housed g m fs)
    (hx : m.clear? now days = some x) : Struck g m fs (x.run fs).1.2 (x.run fs).2 := by
  cases days with
  | none =>
    obtain rfl := Option.some.inj hx
    exact purgeEach_struck hk _
  | some days =>
    obtain ⟨cutoff, -, rfl⟩ := Option.map_eq_some_iff.1 hx
    exact purgeEach_struck hk _

theorem enforceLimit_struck (hk : Housed g m fs) :
    Struck g m fs (m.enforceLimit.run fs).1 (m.enforceLimit.run fs).2 := by
  simp only [enforceLimit, run_bind, run_pure]
  exact purgeEach_struck hk _

/-! ### What stays told -/

/-- A document of another name, left as it was, tells of a transaction. -/
def ToldElsewhere (g : Grounds) (m : Manager) (fs fs' : FileSystem) (u : Transaction) : Prop :=
  ∃ w, w ≠ documentName u.id ∧ fs'.at (w :: g.transactions) = fs.at (w :: g.transactions) ∧
    m.told fs' w = some u

theorem Struck.forgotten (h : Struck g m fs m' fs') (hk : Housed g m fs)
    (hopens : Opens fs' m'' fs'') (hstore : m''.store = m.store) (ht : m.transaction? id = some t)
    (hgone : m'.transaction? id = none) (hu : m''.transaction? id = some u) :
    ToldElsewhere g m fs fs' u := by
  have hk' : Stands g m''.store fs' := hstore ▸ h.sifted.stands hk.stands hk.offway
  obtain rfl := hopens.still hk'
  obtain ⟨rfl, w, hw, htold⟩ := hopens.told hk' hu
  obtain ⟨e, he⟩ := Option.isSome_iff_exists.1 hw
  have hbefore := h.sifted.at_eq_some he
  rw [told, hstore] at htold
  refine ⟨w, ?_, he.trans hbefore.symm, htold⟩
  rintro rfl
  rw [h.gone _ t ht hgone (hk.names _ (by rw [hbefore]; rfl))] at hw
  cases hw

/-! ### Rolling back -/

theorem execute_success (h : ((m.execute options t).run fs).1.result.success = true) :
    t.status = .rolledBack ∧ ((m.execute options t).run fs).2 = fs := by
  rw [execute] at h ⊢
  cases hs : t.status with
  | completed =>
    simp only [hs, run_bind] at h
    split at h
    · cases h
    · simp only [run_bind, run_pure] at h
      cases h
  | rolledBack => exact ⟨rfl, rfl⟩
  | pending =>
    simp only [hs] at h
    cases h
  | failed =>
    simp only [hs] at h
    cases h

theorem removeBackups_removing (b : Backups) (ids : List String) (fs : FileSystem) :
    ((removeBackups b ids).run fs).2 = fs.removing (ids.map b.pathFor) := by
  induction ids generalizing fs with
  | nil => rfl
  | cons id ids ih =>
    have hfirst := Files.removeIfPresent_removing (b.pathFor id) fs
    rw [removeBackups, run_bind, Backups.remove, List.map_cons, ← List.singleton_append, removing_append,
      ← hfirst, ← ih, run_bind]
    generalize (Files.removeIfPresent (b.pathFor id)).run.run fs = out
    obtain ⟨_ | _, fs₁⟩ := out <;> rfl

/-- A text has come to the document of a transaction: whatever is read of the document says it, and
beside files of that text and directories nothing new stands beside it. -/
structure Noted (g : Grounds) (m : Manager) (id : String) (text : Bytes) (fs fs' : FileSystem) : Prop where
  stands : Stands g m.store fs'
  document : IsName (documentName id) → ∀ c, fs'.read (m.store.transactionPath id) = .ok c → c = text
  others : ∀ w e, fs'.at (w :: g.transactions) = some e →
    fs.at (w :: g.transactions) = some e ∨ e = .file 0o600 text ∨ e.isDirectory = true
  names : ∀ w, (fs'.at (w :: g.transactions)).isSome → (fs.at (w :: g.transactions)).isSome ∨ IsName w

theorem isAbsolute_transactionPath (hk : Stands g m.store fs) (id : String) :
    (m.store.transactionPath id).isAbsolute = true := Path.isAbsolute_join hk.transactions.absolute

theorem Noted.sifted (h : Noted g m id w fs fs') (hoff : ∀ w d, w :: d ∈ g.ways → ¬m.IsFileName w)
    (h' : Sifted m.IsFileName fs' fs'') : Noted g m id w fs fs'' where
  stands := h'.stands h.stands hoff
  document hname c hc :=
    h.document hname c (h'.read h.stands.sound (isAbsolute_transactionPath h.stands id) hc)
  others v e he := h.others v e (h'.at_eq_some he)
  names v hv := by
    obtain ⟨e, he⟩ := Option.isSome_iff_exists.1 hv
    exact h.names v (by rw [h'.at_eq_some he]; rfl)

/-- Saving a transaction under the id of one that is kept. -/
theorem saveTransaction_noted {text : String} (hk : Stands g m.store fs)
    (hoff : ∀ w d, w :: d ∈ g.ways → ¬m.IsFileName w) (ht : m.transaction? t.id = some u)
    (htext : t.toText? = some text) (hsave : (m.store.saveTransaction t).run fs = (.ok (), fs')) :
    Noted g m t.id (Utf8.encode text) fs fs' := by
  have hp := isAbsolute_transactionPath hk t.id
  have hwrite : (Files.writeAtomic (m.store.transactionPath t.id) (Utf8.encode text)).run.run fs =
      (.ok (), fs') := by
    rw [Store.saveTransaction, Store.save.eq_def, htext, run_bind] at hsave
    generalize (Files.writeAtomic (m.store.transactionPath t.id) (Utf8.encode text)).run.run fs = out
      at hsave ⊢
    obtain ⟨_ | _, fs₁⟩ := out
    · cases hsave
    · obtain ⟨-, rfl⟩ := Prod.mk.inj hsave
      rfl
  have hwritten := Files.writeAtomic_written hk.sound hp (Utf8.encode text)
  rw [hwrite] at hwritten
  have hat := hwritten.at_eq hk.sound hp
  have hsound : fs'.Sound := by
    cases hwritten with
    | whole target made place old edit => exact edit.sound
  have hdelivered := fun hname => Files.writeAtomic_delivers_in (w := documentName t.id) hk.sound
    hk.transactions.absolute hk.transactions.tidy hname (Utf8.encode text)
  rw [show m.store.transactionsDirectory.join ⟨documentName t.id⟩ = m.store.transactionPath t.id from rfl,
    hwrite] at hdelivered
  exact
    { stands := hk.congr hsound fun k hkw => by
        obtain ⟨e, he, hkind⟩ := hk.occupied k (List.mem_append_right _ hkw)
        rcases hat k with hsame | ⟨-, n, c, hfile⟩ | ⟨w, d, rfl, -, ⟨-, hw⟩ | ⟨hnone, -⟩⟩
        · exact hsame
        · obtain rfl := Option.some.inj (he.symm.trans hfile)
          exact absurd rfl hkind
        · exact absurd ⟨t.id, _, ⟨u, ht, .inl rfl⟩, hw⟩ (hoff w d hkw)
        · rw [he] at hnone
          cases hnone
      document := fun hname c hc => (hdelivered hname).read_eq (f := m.store.transactionsDirectory)
        hk.sound hk.transactions.absolute hk.transactions.tidy hname hc
      others := fun w e he => by
        rcases hat (w :: g.transactions) with hsame | ⟨hself, -⟩ | ⟨_, _, _, -, ⟨hself, -⟩ | ⟨-, n, hdir⟩⟩
        · exact .inl (hsame.symm.trans he)
        · exact .inr (.inl (Option.some.inj (he.symm.trans hself)))
        · exact .inr (.inl (Option.some.inj (he.symm.trans hself)))
        · obtain rfl := Option.some.inj (he.symm.trans hdir)
          exact .inr (.inr rfl)
      names := fun w hw => by
        rcases hat (w :: g.transactions) with hsame | ⟨-, n, c, hfile⟩ | ⟨v, d, hkd, hname, -⟩
        · exact .inl (hsame ▸ hw)
        · exact .inl (by rw [hfile]; rfl)
        · exact .inr ((List.cons.inj hkd).1 ▸ hname) }

/-- A rollback that is a success was recorded before, or its document says so. -/
theorem rollback_noted (hk : Housed g m fs) (ht : m.transaction? t.id = some t)
    (hout : ∀ k ∈ (m.execute options t).stages fs, ∀ op ∈ t.operations, op.Outlying g k)
    (hdry : options.dryRun = false)
    (hsuccess : ((m.rollback later options t.id).run fs).1.1.success = true) :
    t.status = .rolledBack ∧ ((m.rollback later options t.id).run fs).2 = fs ∨
      ∃ text, (t.reverted later).toText? = some text ∧
        Noted g m t.id (Utf8.encode text) fs ((m.rollback later options t.id).run fs).2 := by
  let m₁ := m.attempted.publish (.rollbackStarted t.id)
  have hrollback : m.rollback later options t.id =
      (do let p ← m.execute options t; m₁.finalize later options p) := by
    rw [rollback, show m.attempted.transaction? t.id = some t from ht]
    rfl
  rw [hrollback, run_bind] at hsuccess ⊢
  have hunmoved := execute_unmoved (C := fun _ _ => True) (P := (· ∈ (m.execute options t).stages fs))
    hk.stands ⟨fun _ _ => trivial, fun _ h => h⟩ hout _ (mem_stages_run _ fs)
  have howes := execute_owes m options t fs
  have hquiet := @execute_success m fs options t
  generalize (m.execute options t).run fs = out at hsuccess hunmoved howes hquiet ⊢
  obtain ⟨p, fs₁⟩ := out
  dsimp only at hsuccess hunmoved howes hquiet ⊢
  have hcases : Finalized m₁ later options p t fs₁ ((m₁.finalize later options p).run fs₁) :=
    finalize_cases (by rw [howes.id]; exact ht)
  generalize (m₁.finalize later options p).run fs₁ = out at hcases hsuccess ⊢
  cases hcases with
  | quiet h =>
    rw [settle_fst, List.isEmpty_iff] at hsuccess
    rcases h with h | h | h
    · obtain ⟨hs, rfl⟩ := hquiet h
      exact .inl ⟨hs, rfl⟩
    · exact absurd hsuccess h
    · rw [hdry] at h
      cases h
  | failed => cases hsuccess
  | @recorded fs₂ fs₃ warnings _ _ _ hsave hremove =>
    right
    cases htext : (t.reverted later).toText? with
    | none =>
      rw [Store.saveTransaction, htext] at hsave
      cases hsave
    | some text =>
      have hnoted : Noted g m t.id (Utf8.encode text) fs₁ fs₂ :=
        saveTransaction_noted (t := t.reverted later) hunmoved.stands hk.offway ht htext hsave
      have hsifted : Sifted m.IsFileName fs₂ fs₃ := by
        split at hremove
        · obtain ⟨-, rfl⟩ := Prod.mk.inj hremove
          exact .refl hnoted.stands.sound
        · have hremoved : fs₃ = fs₂.removing (p.consumedBackups.map m₁.backups.pathFor) := by
            rw [← removeBackups_removing, hremove]
          rw [hremoved]
          refine removing_sifted hnoted.stands.sound _ fun q hq w hw => ?_
          obtain ⟨i, hi, rfl⟩ := List.mem_map.1 hq
          obtain ⟨op, hop, hreq, rfl⟩ := howes.used i hi
          exact ⟨t.id, _, ⟨t, ht, .inr ⟨op, hop, hreq, rfl⟩⟩, hw⟩
      have hlast := hnoted.sifted hk.offway hsifted
      have hsame : ∀ w, fs₁.at (w :: g.transactions) = fs.at (w :: g.transactions) := fun w =>
        hunmoved.at_eq _ (Grounds.within_cons (by simp [Grounds.folders]) w)
      exact ⟨text, rfl,
        { hlast with
          others := fun w e he => hsame w ▸ hlast.others w e he
          names := fun w hw => hsame w ▸ hlast.names w hw }⟩

theorem exists_text_of_told (h : m.told fs w = some t) :
    ∃ c text, fs.read (m.store.transactionsDirectory.join ⟨w⟩) = .ok c ∧ Utf8.decode? c = some text ∧
      Transaction.ofText? text = some t := (Store.documentAt_eq_some.1 h).2

/-- What was rolled back is known as such, or not at all. -/
theorem rollback_known {before : FileSystem} (hopens : Opens before m fs) (hk : Housed g m fs)
    (ht : m.transaction? id = some t)
    (hout : ∀ k ∈ (m.execute options t).stages fs, ∀ op ∈ t.operations, op.Outlying g k)
    (hreals : t.WithoutReals) (hlater : later.Regular) (hdry : options.dryRun = false)
    (hsuccess : ((m.rollback later options id).run fs).1.1.success = true)
    (hagain : Opens ((m.rollback later options id).run fs).2 m' fs') (hstore : m'.store = m.store)
    (hu : m'.transaction? id = some u) :
    u.status = .rolledBack ∨ ToldElsewhere g m fs ((m.rollback later options id).run fs).2 u := by
  obtain ⟨rfl, w, -, htold⟩ := hopens.told hk.stands ht
  obtain ⟨hs, hstill⟩ | ⟨text, htext, hnoted⟩ := rollback_noted hk ht hout hdry hsuccess
  · rw [hstill] at hagain
    rw [hopens.again hagain hk.stands hstore, ht, Option.some.injEq] at hu
    exact .inl (hu ▸ hs)
  generalize ((m.rollback later options t.id).run fs).2 = fs₁ at hagain hnoted ⊢
  have hk' : Stands g m'.store fs₁ := hstore ▸ hnoted.stands
  obtain rfl := hagain.still hk'
  obtain ⟨hid, v, hv, hsays⟩ := hagain.told hk' hu
  rw [told, hstore] at hsays
  obtain ⟨-, original, -, -, horiginal⟩ := exists_text_of_told htold
  obtain ⟨c, said, hread, hdecode, hsaid⟩ := exists_text_of_told hsays
  -- what says the text says that the transaction is rolled back
  have hmeans : c = Utf8.encode text → u.status = .rolledBack := by
    rintro rfl
    obtain ⟨hregular, -⟩ := Transaction.regular_of_ofText? horiginal hreals
    have hregular' : (t.reverted later).Regular :=
      { hregular with rollbackTimestamp := fun now hnow => Option.some.inj hnow ▸ hlater }
    obtain rfl := Option.some.inj ((Utf8.decode?_encode text).symm.trans hdecode)
    rw [Transaction.ofText?_toText? hregular' htext] at hsaid
    split at hsaid
    · obtain rfl := Option.some.inj hsaid
      rfl
    · cases hsaid
  obtain ⟨e, he⟩ := Option.isSome_iff_exists.1 hv
  have hname : IsName v := (hnoted.names v hv).elim (hk.names v) id
  rcases hnoted.others v e he with hsame | hfile | hdir
  · by_cases hown : v = documentName t.id
    · subst hown
      exact .inl (hmeans (hnoted.document hname c hread))
    · exact .inr ⟨v, hid ▸ hown, he.trans hsame.symm, hsays⟩
  · subst hfile
    obtain ⟨n, hn⟩ := hnoted.stands.transactions.file_of_read hnoted.stands.sound
      hnoted.stands.transactions.tidy hname (by simp [he]) hread
    obtain ⟨-, rfl⟩ := Entry.file.inj (Option.some.inj (he.symm.trans hn))
    exact .inl (hmeans rfl)
  · have hlink : ∀ q, fs'.at (v :: g.transactions) ≠ some (.link q) := fun q hq => by
      obtain rfl := Option.some.inj (he.symm.trans hq)
      cases hdir
    obtain ⟨n, hn⟩ := hnoted.stands.transactions.file_of_read hnoted.stands.sound
      hnoted.stands.transactions.tidy hname hlink hread
    obtain rfl := Option.some.inj (he.symm.trans hn)
    cases hdir

/-- No manager that is opened afterwards knows of a transaction that has gone, unless it is told
elsewhere. -/
def Forgets (g : Grounds) (m : Manager) (fs : FileSystem) (m' : Manager) (fs' : FileSystem) : Prop :=
  ∀ id t, m.transaction? id = some t → m'.transaction? id = none → ∀ m'' fs'' u,
    Opens fs' m'' fs'' → m''.store = m.store → m''.transaction? id = some u →
      ToldElsewhere g m fs fs' u

end Manager

open Manager (Forgets Housed Opens ToldElsewhere)

/-- What is known after the project was opened again, whatever stands in the directory of transactions. A
transaction that was let go, by age or beyond the number that is kept, is not known any more. One that was
rolled back with success, and not as a dry run, after it was read from a document, is known as rolled back
if it is known at all. All this but for a document of another name, left as it was, that tells of the same
id. -/
theorem reopened_knows {g : Grounds} {m : Manager} {fs : FileSystem} (hk : Housed g m fs) :
    (∀ now days x, m.clear? now days = some x → Forgets g m fs (x.run fs).1.2 (x.run fs).2) ∧
    Forgets g m fs (m.enforceLimit.run fs).1 (m.enforceLimit.run fs).2 ∧
    ∀ before, Opens before m fs → ∀ id t options (later : Instant), m.transaction? id = some t →
      t.WithoutReals → later.Regular → options.dryRun = false →
      (∀ k ∈ (m.execute options t).stages fs, ∀ op ∈ t.operations, op.Outlying g k) →
      ((m.rollback later options id).run fs).1.1.success = true → ∀ m' fs' u,
        Opens ((m.rollback later options id).run fs).2 m' fs' → m'.store = m.store →
        m'.transaction? id = some u → u.status = .rolledBack ∨
          ToldElsewhere g m fs ((m.rollback later options id).run fs).2 u := by
  refine ⟨fun now days x hx id t ht hgone m'' fs'' u hopens hstore hu => ?_,
    fun id t ht hgone m'' fs'' u hopens hstore hu => ?_,
    fun before hopens id t options later ht hreals hlater hdry hout hsuccess m' fs' u hagain => ?_⟩
  · exact (Manager.clear_struck hk hx).forgotten hk hopens hstore ht hgone hu
  · exact (Manager.enforceLimit_struck hk).forgotten hk hopens hstore ht hgone hu
  · exact Manager.rollback_known hopens hk ht hout hreals hlater hdry hsuccess hagain

namespace Sample

def archived : Transaction :=
  ⟨"t", "", "", "",
    [⟨"o", .update, .ofString "/p/f", none, some "y", none, none, none, ⟨0, 0⟩, []⟩,
      ⟨"q", .directoryCreate, .ofString "/p/e", none, none, none, none, none, ⟨0, 0⟩, []⟩],
    ⟨0, 0⟩, .completed, none, []⟩

theorem archived_printed : archived.toText?.isSome := by decide +kernel

def shelved : FileSystem :=
  { tree with
    entries := tree.entries ++
      [(documentName "t" :: grounds.transactions,
          .file 0o600 (Utf8.encode (archived.toText?.get archived_printed))),
        (documentName "l" :: grounds.transactions, .link (.ofString "t.json")),
        (documentName "d" :: grounds.transactions, .directory 0o755),
        (backupName "o" :: grounds.backups, .file 0o600 [121]),
        ([Utf8.encode "e", Utf8.encode "p"], .directory 0o755)] }

def reader : Manager := { manager with history := [("t", archived)] }

theorem shelved_lies : Openable shelved ∧ (∀ k ∈ grounds.ways, shelved.at k = tree.at k) ∧
    ∀ w ∈ shelved.children grounds.transactions, Path.IsName w := by decide +kernel

theorem shelved_stands : Stands grounds reader.store shelved :=
  keeps.toStands.congr shelved_lies.1.2.1 shelved_lies.2.1

/-- The directory of transactions has the document, a link to it and a directory. -/
theorem shelved_lists :
    (shelved.names manager.store.transactionsDirectory =
        [documentName "t", documentName "l", documentName "d"] ∧
      shelved.names manager.store.checkpointsDirectory = []) ∧
    (∀ w ∈ [documentName "t", documentName "l"], Path.extension? w = some (Utf8.encode "json") ∧
      (manager.store.transactionsDirectory.join ⟨w⟩).hasNul = false ∧
      (shelved.entryAt true (manager.store.transactionsDirectory.join ⟨w⟩)).toOption.map (·.1) =
        some (documentName "t" :: grounds.transactions)) ∧
    (Store.documentAt Transaction.ofText? manager.store.transactionsDirectory shelved
      (documentName "d")).isNone := by decide +kernel

theorem archived_told :
    Transaction.ofText? (archived.toText?.get archived_printed) = some archived := by
  have hops : ∀ op ∈ archived.operations, op.Regular := by
    have hall : ∀ op ∈ archived.operations, (∀ n ∈ op.previousMode, n < 2 ^ 32) ∧ op.timestamp.Regular ∧
        op.metadata = [] := by decide
    exact fun op hop => ⟨(hall op hop).1, (hall op hop).2.1, 0, by rw [(hall op hop).2.2]; rfl⟩
  have hregular : archived.Regular := ⟨hops, by decide, by decide, 0, by decide⟩
  rw [Transaction.ofText?_toText? hregular (Option.some_get archived_printed).symm]
  rfl

theorem shelved_documents : Store.documents Transaction.ofText? manager.store.transactionsDirectory shelved =
    [archived, archived] := by
  obtain ⟨⟨hnames, -⟩, hplace, hnone⟩ := shelved_lists
  have hsome : ∀ w ∈ [documentName "t", documentName "l"], Store.documentAt Transaction.ofText?
      manager.store.transactionsDirectory shelved w = some archived := fun w hw => by
    obtain ⟨hextension, hnul, hleads⟩ := hplace w hw
    exact Store.documentAt_eq_some.2
      ⟨hextension, _, _, read_of_place hnul hleads rfl rfl, Utf8.decode?_encode _, archived_told⟩
  rw [Store.documents, hnames, List.filterMap_cons, hsome _ (by simp), List.filterMap_cons,
    hsome _ (by simp), List.filterMap_cons, Option.isNone_iff_eq_none.1 hnone]
  rfl

theorem filled_shelved : manager.filled shelved = reader := by
  rw [Manager.filled, shelved_documents, Store.documents, shelved_lists.1.2]
  rfl

theorem reader_opens : Opens shelved reader shelved := by
  obtain ⟨s, hopen, hrun⟩ := shelved_lies.1.opens {} rfl rfl ⟨0, 0⟩
  refine ⟨.ofString "/p", {}, ⟨0, 0⟩, s, hopen, ?_⟩
  rw [hrun, ← filled_shelved]
  rfl

theorem reader_knows {id : String} {t : Transaction} (h : reader.transaction? id = some t) :
    id = "t" ∧ t = archived := by
  exact Prod.mk.inj (List.mem_singleton.1 (Index.mem_of_get? h))

theorem reader_offway {w : Bytes} {d : Location} (hl : w :: d ∈ grounds.ways) : ¬reader.IsFileName w := by
  have hfiles : ∀ op ∈ archived.operations, ∀ l ∈ grounds.ways,
      (reader.store.transactionPath "t").named.getLast? ≠ l.head? ∧
        (reader.backups.pathFor op.id).named.getLast? ≠ l.head? := by decide +kernel
  rintro ⟨id, p, ⟨t, ht, hp⟩, hlast⟩
  obtain ⟨rfl, rfl⟩ := reader_knows ht
  rcases hp with rfl | ⟨op, hop, -, rfl⟩
  · exact (hfiles _ List.mem_cons_self _ hl).1 hlast
  · exact (hfiles op hop _ hl).2 hlast

theorem reader_housed : Housed grounds reader shelved where
  stands := shelved_stands
  names w hw := shelved_lies.2.2 w (mem_children.2 hw)
  offway _ _ hl := reader_offway hl

end Sample

theorem reopened_knows_of_one_read :
    (Sample.reader.transaction? "t").isSome ∧
      ((Sample.reader.clear? ⟨0, 0⟩ none).all fun x =>
        ((x.run Sample.shelved).1.2.transaction? "t").isNone) ∧
      (∀ x, Sample.reader.clear? ⟨0, 0⟩ none = some x →
        Forgets Sample.grounds Sample.reader Sample.shelved (x.run Sample.shelved).1.2
          (x.run Sample.shelved).2) ∧
      ((Sample.reader.rollback ⟨1, 0⟩ {} "t").run Sample.shelved).1.1.rolledBackOperations = 2 ∧
      ((Sample.reader.rollback ⟨1, 0⟩ {} "t").run Sample.shelved).1.1.success = true ∧
      ∀ m' fs' u, Opens ((Sample.reader.rollback ⟨1, 0⟩ {} "t").run Sample.shelved).2 m' fs' →
        m'.store = Sample.reader.store → m'.transaction? "t" = some u → u.status = .rolledBack ∨
          ToldElsewhere Sample.grounds Sample.reader Sample.shelved
            ((Sample.reader.rollback ⟨1, 0⟩ {} "t").run Sample.shelved).2 u := by
  have hout : ∀ k ∈ (Sample.reader.execute {} Sample.archived).stages Sample.shelved,
      ∀ op ∈ Sample.archived.operations, op.Outlying Sample.grounds k := by decide +kernel
  have hrolled : ((Sample.reader.rollback ⟨1, 0⟩ {} "t").run Sample.shelved).1.1.rolledBackOperations = 2 ∧
      ((Sample.reader.rollback ⟨1, 0⟩ {} "t").run Sample.shelved).1.1.success = true := by decide +kernel
  obtain ⟨hclear, -, hrollback⟩ := reopened_knows Sample.reader_housed
  refine ⟨rfl, by decide +kernel, fun x hx => hclear ⟨0, 0⟩ none x hx, hrolled.1, hrolled.2, ?_⟩
  exact hrollback Sample.shelved Sample.reader_opens "t" Sample.archived {} ⟨1, 0⟩ rfl
    ⟨by decide, by decide⟩ (by decide +kernel) rfl hout hrolled.2

end Retrace
