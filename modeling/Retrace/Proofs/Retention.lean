import Retrace.Proofs.Failing
import Retrace.Proofs.Pruning

/-!
Completing a transaction. Its document is saved and all else that could be read still is (`Saved`);
then the oldest transactions make room, and those that are kept are the newest, but for older ones
whose documents cannot be removed (`complete_keeps_newest`).
-/
namespace Retrace

open FileSystem Script
open Retrace.Path (NamesFile IsName)

variable {m m' : Manager} {fs fs' fs₁ : FileSystem} {t u : Transaction} {p q : Path} {l : Location}
  {content c : Bytes}

/-! ### Documents that are saved -/

namespace FileSystem

theorem link_of_linkStatus (hs : fs.Sound) (hp : p.NamesFile) (h : fs.linkStatus p = .ok .link) :
    ∃ l t, fs.spot? p = some l ∧ fs.at l = some (.link t) := by
  obtain ⟨f, w, hf, ht, hw, rfl⟩ := hp
  have hnul := noNul_of_named h
  obtain ⟨x, hx, hkind⟩ := exists_of_bind (eq_ok_of_named h)
  obtain ⟨r, hr, -⟩ := exists_of_bind hx
  obtain ⟨d, ha⟩ := aims_of_find hs hf ht hw hnul hr
  rw [ha.linkStatus] at h
  cases he : fs.at (w :: d) with
  | none => simp [he] at h
  | some e =>
    cases e with
    | link t => exact ⟨_, t, ha.spot?, he⟩
    | _ => simp [he, Entry.kind] at h

/-- A file stands at the place of its path. Directories may have come with it, and nothing else has
changed. -/
structure Saved (fs : FileSystem) (p : Path) (content : Bytes) (fs' : FileSystem) : Prop where
  refiled : ∃ k, Widened fs k ∧ Refiled k fs'
  document : ∃ l, fs'.spot? p = some l ∧ fs'.at l = some (.file 0o600 content)
  others : ∀ l, fs'.spot? p ≠ some l →
    fs'.at l = fs.at l ∨ fs.at l = none ∧ ∃ m, fs'.at l = some (.directory m)
  read : ∀ q c, q.NamesFile → (∀ k, Widened fs k → ∀ l t, k.spot? q = some l → k.at l ≠ some (.link t)) →
    (∀ l, fs'.spot? q = some l → fs'.spot? p ≠ some l) → fs.read q = .ok c → fs'.read q = .ok c

end FileSystem

theorem Files.Written.saved (h : Files.Written fs p content fs' (.ok ())) (hs : fs.Sound)
    (hp : p.NamesFile)
    (hlink : ∀ k, Widened fs k → ∀ l t, k.spot? p = some l → k.at l ≠ some (.link t)) :
    Saved fs p content fs' := by
  have hdirect : ∀ j, ¬Files.Beyond fs p j := by
    rintro j ⟨hstatus, -⟩
    obtain ⟨l, t, hl, hat⟩ := link_of_linkStatus hs hp hstatus
    exact hlink fs (.refl hs) l t hl hat
  cases h with
  | @whole q fs₁ l target made place old edit =>
    obtain rfl : q = p := target.resolve_right fun ⟨j, hj, _⟩ => hdirect j hj
    have hspot : fs₁.spot? q = some l := place.resolve_right (hdirect l)
    have hwide : Widened fs fs₁ := made.mono fun _ _ h => h.2
    have hrefiled : Refiled fs₁ fs' := edit.refiled (fun e he => by
      cases e with
      | file m c => rfl
      | directory m => cases old _ he
      | link t => exact absurd he (hlink fs₁ hwide l t hspot)) (by simp [Entry.kind])
    have hspot' : ∀ {r : Path}, r.isAbsolute = true → fs'.spot? r = fs₁.spot? r :=
      hrefiled.spot? hwide.sound
    have hplace : fs'.spot? q = some l := (hspot' hp.isAbsolute).trans hspot
    refine ⟨⟨fs₁, hwide, hrefiled⟩, ⟨l, hplace, edit.at_self⟩, fun k hk => ?_, fun r c hr hfree hother hc => ?_⟩
    · have hne : k ≠ l := fun hkl => hk (hkl.symm ▸ hplace)
      rw [edit.at_of_ne hne]
      cases hx : fs.at k with
      | some e => exact .inl (hwide.at_eq k e hx id)
      | none =>
        cases hx' : fs₁.at k with
        | none => exact .inl rfl
        | some e =>
          obtain ⟨-, -, -, hdir⟩ := hwide.new k e hx hx'
          cases e with
          | directory m => exact .inr ⟨rfl, m, rfl⟩
          | _ => cases hdir
    · refine (hrefiled.read_iff hwide.sound hr (hfree fs₁ hwide) fun k hk => edit.at_of_ne ?_).2
        (hwide.read hs hr.isAbsolute hc)
      rintro rfl
      exact hother k ((hspot' hr.isAbsolute).trans hk) hplace

theorem Index.put_of_not_mem {α : Type} {x : Index α} {k : String} {v : α} (h : k ∉ x.map (·.1)) :
    x.put k v = x ++ [(k, v)] := by
  induction x with
  | nil => rfl
  | cons a r ih =>
    obtain ⟨j, w⟩ := a
    rw [List.map_cons, List.mem_cons, not_or] at h
    rw [put, if_neg (Ne.symm h.1), ih h.2, List.cons_append]

namespace Manager

/-! ### Completing -/

theorem Distinct.keep (hm : m.Distinct) (ht : m.current = some t) :
    (m.keep { t with status := .completed }).Distinct := by
  -- the new transaction is the one that was under way
  have hfrom : ∀ id u, (m.keep { t with status := .completed }).transaction? id = some u →
      id = t.id ∧ u = { t with status := .completed } ∨ id ≠ t.id ∧ m.transaction? id = some u := by
    intro id u hu
    rw [transaction?_keep] at hu
    split at hu
    · next hid => exact .inl ⟨hid, (Option.some.inj hu).symm⟩
    · next hid => exact .inr ⟨hid, hu⟩
  have hknown : ∀ u, (m.keep { t with status := .completed }).Knows u →
      ∃ v, m.Knows v ∧ v.id = u.id ∧ v.operations = u.operations := by
    rintro u (hu | ⟨id, hu⟩)
    · cases hu
    · rcases hfrom id u hu with ⟨-, rfl⟩ | ⟨-, hu⟩
      · exact ⟨t, .inl ht, rfl, rfl⟩
      · exact ⟨u, .inr ⟨id, hu⟩, rfl, rfl⟩
  refine
    { keys := Index.nodup_put hm.keys _ _
      keyed := fun id u hu => ?_
      current := fun u hu => by cases hu
      plain := fun u hu => ?_
      apart := fun u v hu hv hne => ?_
      checkpoints := hm.checkpoints }
  · rcases hfrom id u hu with ⟨rfl, rfl⟩ | ⟨-, hu⟩
    · rfl
    · exact hm.keyed id u hu
  · obtain ⟨v, hv, hid, hops⟩ := hknown u hu
    rw [← hid, ← hops]
    exact hm.plain v hv
  · obtain ⟨u', hu', hid, hops⟩ := hknown u hu
    obtain ⟨v', hv', hid', hops'⟩ := hknown v hv
    rw [← hops, ← hops']
    exact hm.apart u' v' hu' hv' (by rwa [hid, hid'])

theorem Distinct.spot?_ne_document (hroot : m.store.root.isAbsolute = true) (hm : m.Distinct)
    (hu : m.Knows u) (hp : p ∈ m.filesOf u) {id : String} (hid : Plain id)
    (hne : p ≠ m.store.transactionPath id) (hl : fs.spot? p = some l) :
    fs.spot? (m.store.transactionPath id) ≠ some l := by
  intro hl'
  obtain ⟨d', rfl⟩ := documentName_of_spot? hroot hid hl'
  rcases mem_filesOf.1 hp with rfl | ⟨op, hop, -, rfl⟩
  · obtain ⟨d, hd⟩ := documentName_of_spot? hroot (hm.plain u hu).1 hl
    exact hne (by rw [documentName_inj (List.cons.inj hd).1])
  · obtain ⟨d, hd⟩ := backupName_of_spot? hroot ((hm.plain u hu).2 op hop) hl
    exact documentName_ne_backupName _ _ (List.cons.inj hd).1

/-- What is left when a transaction was completed. It has been saved, and then of the `older`
transactions those have gone whose documents could be removed. All that is kept reads as before, and
nothing else has changed but for new directories. -/
structure Retained (m : Manager) (t : Transaction) (older : List Transaction) (fs fs₁ : FileSystem)
    (m' : Manager) (fs' : FileSystem) : Prop where
  run : (m.store.saveTransaction t).run fs = (.ok (), fs₁)
  saved : ∃ text, t.toText? = some text ∧
    Saved fs (m.store.transactionPath t.id) (Utf8.encode text) fs₁
  reduced : Reduced
    { m with
      current := none, history := m.history.put t.id t
      counters := { m.counters with transactionsCompleted := m.counters.transactionsCompleted + 1 } }
    (fun id => (∃ u ∈ older, u.id = id) ∧ fs₁.stuck (m.store.transactionPath id) = false) fs₁
    { m' with events := m.events } fs'
  history : ∀ id u, m'.transaction? id = some u ↔ (id = t.id ∧ u = t ∨ m.transaction? id = some u) ∧
    ¬((∃ u ∈ older, u.id = id) ∧ fs₁.stuck (m.store.transactionPath id) = false)
  kept : ∀ u, m'.Knows u → ∀ p ∈ m.filesOf u, p ≠ m.store.transactionPath t.id → ∀ c,
    fs.read p = .ok c → fs'.read p = .ok c
  checkpoints : ∀ id c, m.checkpoint? id = some c → ∀ content,
    fs.read (m.store.checkpointPath id) = .ok content → fs'.read (m.store.checkpointPath id) = .ok content
  others : ∀ l, fs₁.spot? (m.store.transactionPath t.id) ≠ some l →
    (∀ u ∈ older, ∀ p ∈ m.filesOf u, fs₁.spot? p ≠ some l) →
      fs'.at l = fs.at l ∨ fs.at l = none ∧ ∃ mode, fs'.at l = some (.directory mode)

theorem Trimmed.length_le {Gone : String → Prop} {newer : List Transaction} (h : Trimmed m Gone fs m' fs')
    (hkept : ∀ id u, m.transaction? id = some u → ¬Gone id → id ∈ newer.map (·.id)) :
    m'.history.length ≤ newer.length := by
  have hsub : m'.history.map (·.1) ⊆ newer.map (·.id) := fun id hid => by
    obtain ⟨u, hu⟩ := Option.isSome_iff_exists.1 (Index.mem_keys_iff.1 hid)
    obtain ⟨hu, hnot⟩ := (h.history id u).1 hu
    exact hkept id u hu hnot
  have hle := (h.keys.subperm hsub).length_le
  rwa [List.length_map, List.length_map] at hle

/-- The oldest make room for a transaction that has been saved. -/
theorem retained {older : List Transaction} {text : String} {m₁ : Manager} (hm : m.Distinct)
    (hroot : m.store.root.isAbsolute = true) (ht : m.current = some t)
    (hu : ∀ k, Widened fs k → (m.keep { t with status := .completed }).Unshared k)
    (hrun : (m.store.saveTransaction { t with status := .completed }).run fs = (.ok (), fs₁))
    (htext : { t with status := .completed }.toText? = some text)
    (hsaved : Saved fs (m.store.transactionPath t.id) (Utf8.encode text) fs₁)
    (holder : ∀ u ∈ older, (m.keep { t with status := .completed }).transaction? u.id = some u)
    (h : Trimmed (m.keep { t with status := .completed }) (fun id => (∃ u ∈ older, u.id = id) ∧
      fs₁.stuck (m.store.transactionPath id) = false) fs₁ m₁ fs') (e : Event) :
    m.Retained { t with status := .completed } older fs fs₁ (m₁.publish e) fs' := by
  have hkeep := hm.keep ht
  have hroot' : (m.keep { t with status := .completed }).store.root.isAbsolute = true := hroot
  obtain ⟨k, hwide, hrefiled⟩ := hsaved.refiled
  have hu₁ : (m.keep { t with status := .completed }).Unshared fs₁ :=
    (hu k hwide).refiled hroot hwide.sound hkeep hrefiled
  have hreduced := h.reduced hkeep hrefiled.sound hroot hu₁
  have hid : Plain t.id := (hm.plain t (.inl ht)).1
  refine
    { run := hrun
      saved := ⟨text, htext, hsaved⟩
      reduced := ?_
      history := fun j v => (h.history j v).trans (and_congr_left fun _ => ?_)
      kept := fun v hv p hp hne c hc => ?_
      checkpoints := fun j x hx content hc => ?_
      others := fun l hl hgone => ?_ }
  · have hmanager : { m₁.publish e with events := m.events } = m₁ := by
      rw [h.manager]
      rfl
    rw [hmanager]
    exact hreduced
  · rw [transaction?_keep]
    split
    · next hj =>
      rw [hj, hm.current t ht]
      simp [eq_comm]
    · next hj => simp [hj]
  · have hknows : (m.keep { t with status := .completed }).Knows v := h.knows hv
    have hfile : p ∈ (m.keep { t with status := .completed }).filesOf v := hp
    refine (hreduced.kept v hv p hfile c).2 (hsaved.read p c (hkeep.namesFile hroot' hknows hfile)
      (fun k hk => (hu k hk).files v hknows p hfile) (fun l hl => ?_) hc)
    exact hkeep.spot?_ne_document hroot' hknows hfile hid hne hl
  · refine (hreduced.checkpoints j x hx content).2 (hsaved.read _ content
      (namesFile_checkpointPath hroot (hm.checkpoints j x hx)) (fun k hk => (hu k hk).checkpoints j x hx)
      (fun l hl hl' => ?_) hc)
    have hfiled : (m.keep { t with status := .completed }).transaction? t.id =
        some { t with status := .completed } := (transaction?_keep _ _ _).trans (if_pos rfl)
    exact hu₁.apart t.id _ j x hfiled hx l hl' hl
  · rw [hreduced.others l]
    · exact hsaved.others l hl
    · rintro j v hv ⟨⟨v', hv', rfl⟩, -⟩ p hp -
      rw [holder v' hv', Option.some.injEq] at hv
      exact hgone v (hv ▸ hv') p hp

end Manager

/-- Completing a transaction keeps the newest, and of the others those whose documents cannot be
removed. -/
theorem complete_keeps_newest {id : String} (hm : m.Distinct) (hs : fs.Sound)
    (hroot : m.store.root.isAbsolute = true) (ht : m.current = some t)
    (hu : ∀ k, Widened fs k → Manager.Unshared
      { m with current := none, history := m.history.put t.id { t with status := .completed } } k)
    (hrun : m.complete.run fs = ((.ok id, m'), fs')) :
    ∃ fs₁ older newer,
      (older ++ newer).Perm ({ t with status := .completed } :: m.history.values) ∧
      (older ++ newer).Pairwise (fun u v => Manager.olderFirst u v = true) ∧
      newer.length = min m.settings.maxTransactions (m.history.length + 1) ∧
      m.Retained { t with status := .completed } older fs fs₁ m' fs' ∧
      ((∀ u ∈ older, fs₁.stuck (m.store.transactionPath u.id) = false) →
        m'.history.length ≤ m.settings.maxTransactions) := by
  have hkeep := hm.keep ht
  have hu : ∀ k, Widened fs k → (m.keep { t with status := .completed }).Unshared k := fun k hk =>
    ⟨(hu k hk).files, (hu k hk).checkpoints, (hu k hk).apart⟩
  have hid : Plain t.id := (hm.plain t (.inl ht)).1
  have hname := Manager.namesFile_transactionPath hroot hid
  have hnot : t.id ∉ m.history.map (·.1) := fun hc => by
    have hsome : (m.transaction? t.id).isSome = true := Index.mem_keys_iff.1 hc
    simp [hm.current t ht] at hsome
  have hnew : (m.keep { t with status := .completed }).history =
      m.history ++ [(t.id, { t with status := .completed })] := Index.put_of_not_mem hnot
  have hfile : ∀ k, Widened fs k → ∀ l q, k.spot? (m.store.transactionPath t.id) = some l →
      k.at l ≠ some (.link q) := fun k hk =>
    (hu k hk).files { t with status := .completed }
      (.inr ⟨t.id, (Manager.transaction?_keep _ _ _).trans (if_pos rfl)⟩) _
      (Manager.mem_filesOf.2 (.inl rfl))
  -- first the transaction is saved
  obtain ⟨fs₁, hout, -, rfl, rfl⟩ := Manager.complete_saved ht hrun
  obtain ⟨⟨e, he⟩, -⟩ | ⟨-, text, htext, hwritten⟩ := Store.saveTransaction_written hs hroot hout
  · cases he
  have hsaved := hwritten.saved hs hname hfile
  obtain ⟨k, hwide, hrefiled⟩ := hsaved.refiled
  -- and then the oldest make room
  obtain ⟨older, newer, hexcess, hperm, hsorted, hlength⟩ :=
    (m.keep { t with status := .completed }).exists_excess
  have hvalues : ∀ u, u ∈ older ++ newer ↔
      (m.keep { t with status := .completed }).transaction? u.id = some u := fun u =>
    hperm.mem_iff.trans hkeep.mem_values
  have htrimmed := (Manager.purgeEach_trimmed hkeep hrefiled.sound hroot
    ((hu k hwide).refiled hroot hwide.sound hkeep hrefiled)
    (m.keep { t with status := .completed }).excess).congr fun j v _ =>
      and_congr_left' (hexcess ▸ List.mem_map)
  simp only [Manager.enforceLimit, run_bind, run_pure]
  refine ⟨fs₁, older, newer, ?_, hsorted, ?_, ?_, fun hfree => ?_⟩
  · refine hperm.trans ?_
    rw [hnew, Index.values, List.map_append]
    exact List.perm_append_comm
  · rw [hlength, hnew, List.length_append]
    rfl
  · exact Manager.retained hm hroot ht hu hout htext hsaved
      (fun u hu => (hvalues u).1 (List.mem_append_left _ hu)) htrimmed _
  · refine (htrimmed.length_le fun j v hv hnot => ?_).trans (hlength ▸ Nat.min_le_left _ _)
    obtain rfl := hkeep.keyed j v hv
    rcases List.mem_append.1 ((hvalues v).2 hv) with hmem | hmem
    · exact absurd ⟨⟨v, hmem, rfl⟩, hfree v hmem⟩ hnot
    · exact List.mem_map_of_mem hmem

namespace Sample

def newest : Transaction := { underWay with status := .completed }

theorem aged_excess : (aged.keep newest).excess = ["a"] := by
  have hsorted : (aged.keep newest).history.values.mergeSort Manager.olderFirst =
      (aged.keep newest).history.values := List.mergeSort_of_pairwise (by decide +kernel)
  rw [Manager.excess, hsorted]
  decide +kernel

/-- Of the three only the first goes. -/
theorem oldest_of_excess {older newer : List Transaction}
    (hperm : (older ++ newer).Perm (newest :: aged.history.values))
    (hsorted : (older ++ newer).Pairwise fun t u => Manager.olderFirst t u = true)
    (hlength : newer.length = 2) : older = [dated "a" "o" 0] := by
  have hthree : (older ++ newer).length = 3 := hperm.length_eq
  rw [List.length_append, hlength] at hthree
  obtain ⟨x, rfl⟩ := List.length_eq_one_iff.1 (Nat.add_right_cancel hthree)
  rw [List.singleton_append] at hperm hsorted
  have hmem : ∀ t, t ∈ x :: newer ↔ t ∈ [newest, dated "a" "o" 0, dated "b" "q" 864000] := fun t =>
    hperm.mem_iff
  -- the first is not after any other
  have hleast : x ≠ dated "a" "o" 0 → Manager.olderFirst x (dated "a" "o" 0) = true := fun hne =>
    (List.pairwise_cons.1 hsorted).1 _
      ((List.mem_cons.1 ((hmem (dated "a" "o" 0)).2 (by simp))).resolve_left hne.symm)
  have hx := (hmem x).1 List.mem_cons_self
  simp only [List.mem_cons, List.not_mem_nil, or_false] at hx
  by_contra hne
  have hne' : x ≠ dated "a" "o" 0 := fun hc => hne (by rw [hc])
  have holder := hleast hne'
  rcases hx with rfl | rfl | rfl
  · exact absurd holder (by decide)
  · exact hne' rfl
  · exact absurd holder (by decide)

def saved (fs : FileSystem) : FileSystem := ((aged.store.saveTransaction newest).run fs).2

theorem complete_of_aged {m : Manager} {fs : FileSystem}
    (hm : m = { aged with checkpoints := m.checkpoints })
    (h : ((aged.store.saveTransaction newest).run fs).1.isOk = true) :
    m.complete.run fs =
      ((.ok "n", (((m.keep newest).purgeEach ["a"]).run (saved fs)).1.2.publish
        (.transactionCompleted "n" 1)), (((m.keep newest).purgeEach ["a"]).run (saved fs)).2) := by
  have hsave : (m.store.saveTransaction newest).run fs = (.ok (), saved fs) := by
    rw [hm, saved]
    change (aged.store.saveTransaction newest).run fs = _
    generalize (aged.store.saveTransaction newest).run fs = out at h
    obtain ⟨_ | ⟨⟩, fs'⟩ := out
    · cases h
    · rfl
  have hcurrent : m.current = some underWay := by rw [hm]; rfl
  have hexcess : (m.keep newest).excess = ["a"] := by
    rw [hm]
    exact aged_excess
  rw [Manager.complete_run hcurrent hsave, ← newest, Manager.enforceLimit, hexcess, run_bind]
  generalize ((m.keep newest).purgeEach ["a"]).run (saved fs) = out
  rfl

end Sample

theorem complete_keeps_newest_two_of_three :
    ∃ m' fs', Sample.aged.complete.run Sample.plainTree = ((.ok "n", m'), fs') ∧
      m'.history.length ≤ 2 ∧ m'.transaction? "a" = none ∧
      m'.transaction? "b" = some (Sample.dated "b" "q" 864000) ∧
      m'.transaction? "n" = some Sample.newest ∧
      Lacks fs' (Sample.aged.backups.pathFor "o") ∧
      fs'.read (Sample.aged.backups.pathFor "q") = .ok [120] ∧
      fs'.read (Sample.aged.store.checkpointPath "k") = .ok [107] := by
  have hcurrent : Sample.aged.current = some Sample.underWay := rfl
  have hkeeps : Keeps Sample.plainGrounds (Sample.aged.keep Sample.newest).store Sample.plainTree :=
    Sample.plainTree_keeps
  have hunshared : ∀ k, Widened Sample.plainTree k → Manager.Unshared
      { Sample.aged with current := none, history := Sample.aged.history.put "n" Sample.newest } k :=
    fun k hk => by
      obtain ⟨hfiles, hcheckpoints, hapart⟩ :=
        Manager.unshared_of_keeps hkeeps (Sample.aged_distinct.keep hcurrent) hk
      exact ⟨hfiles, hcheckpoints, hapart⟩
  obtain ⟨m', fs', hrun⟩ :
      ∃ m' fs', Sample.aged.complete.run Sample.plainTree = ((.ok "n", m'), fs') :=
    ⟨_, _, Sample.complete_of_aged rfl (by decide +kernel)⟩
  obtain ⟨fs₁, older, newer, hperm, hsorted, hlength, hretained, hcap⟩ :=
    complete_keeps_newest Sample.aged_distinct Sample.plainTree_keeps.sound (by decide +kernel) hcurrent
      hunshared hrun
  have hsave : (Sample.aged.store.saveTransaction Sample.newest).run Sample.plainTree = (.ok (), fs₁) :=
    hretained.run
  have hsaved : fs₁ = Sample.saved Sample.plainTree := by rw [Sample.saved, hsave]
  have hfree : fs₁.stuck (Sample.aged.store.transactionPath "a") = false ∧
      fs₁.stuck (Sample.aged.backups.pathFor "o") = false := by
    rw [hsaved]
    decide +kernel
  obtain rfl := Sample.oldest_of_excess hperm hsorted hlength
  have hreduced := hretained.reduced
  have hgone : (∃ u ∈ [Sample.dated "a" "o" 0], u.id = "a") ∧
      fs₁.stuck (Sample.aged.store.transactionPath "a") = false := ⟨⟨_, List.mem_singleton_self _, rfl⟩, hfree.1⟩
  have hnot : ∀ id, id ≠ "a" → ¬((∃ u ∈ [Sample.dated "a" "o" 0], u.id = id) ∧
      fs₁.stuck (Sample.aged.store.transactionPath id) = false) := by
    rintro id hne ⟨⟨u, hu, rfl⟩, -⟩
    rw [List.mem_singleton.1 hu] at hne
    exact hne rfl
  have hb := (hretained.history "b" (Sample.dated "b" "q" 864000)).2 ⟨.inr rfl, hnot "b" (by decide)⟩
  have hn := (hretained.history "n" Sample.newest).2 ⟨.inl ⟨rfl, rfl⟩, hnot "n" (by decide)⟩
  refine ⟨_, _, hrun, hcap fun u hu => ?_, ?_, hb, hn, ?_, ?_, ?_⟩
  · rw [List.mem_singleton.1 hu]
    exact hfree.1
  · by_contra hsome
    obtain ⟨u, hu⟩ := Option.ne_none_iff_exists'.1 hsome
    exact ((hreduced.history "a" u).1 hu).2 hgone
  · refine (hreduced.gone "a" _ rfl hgone _ (Manager.mem_filesOf.2 (.inr
      ⟨_, List.mem_singleton_self _, rfl, rfl⟩))).resolve_left ?_
    exact Bool.eq_false_iff.1 hfree.2
  · refine hretained.kept _ (.inr ⟨"b", hb⟩) _ (Manager.mem_filesOf.2 (.inr
      ⟨_, List.mem_singleton_self _, rfl, rfl⟩)) (by decide +kernel) _ (by decide +kernel)
  · exact hretained.checkpoints "k" _ rfl _ (by decide +kernel)

/-- A kept transaction whose document is a link to a backup of one that goes loses the document, and so
does a checkpoint whose document is that of a transaction that goes. -/
theorem complete_loses_linked_document :
    (Sample.aged.Distinct ∧ Sample.linkedTree.Sound ∧
      (Sample.linkedTree.read (Sample.aged.store.transactionPath "b")).isOk = true ∧
      (Sample.aged.complete.run Sample.linkedTree).1.1.isOk = true ∧
      (Sample.aged.complete.run Sample.linkedTree).1.2.history.map (·.1) = ["b", "n"] ∧
      ((Sample.aged.complete.run Sample.linkedTree).2.read
        (Sample.aged.store.transactionPath "b")).isOk = false) ∧
    Sample.joint.Distinct ∧ Sample.jointTree.Sound ∧
      (Sample.jointTree.read (Sample.joint.store.checkpointPath "a")).isOk = true ∧
      (Sample.joint.complete.run Sample.jointTree).1.1.isOk = true ∧
      (Sample.joint.complete.run Sample.jointTree).1.2.checkpoints.map (·.1) = ["a"] ∧
      ((Sample.joint.complete.run Sample.jointTree).2.read
        (Sample.joint.store.checkpointPath "a")).isOk = false := by
  rw [Sample.complete_of_aged rfl (by decide +kernel), Sample.complete_of_aged rfl (by decide +kernel)]
  exact ⟨⟨Sample.aged_distinct, by decide +kernel, by decide +kernel, rfl, by decide +kernel,
    by decide +kernel⟩, Sample.joint_distinct, by decide +kernel, by decide +kernel, rfl,
    by decide +kernel, by decide +kernel⟩

end Retrace
