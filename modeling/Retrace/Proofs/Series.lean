import Retrace.Proofs.Restoration

/-!
Transactions one after the other, each of changes that were recorded and then made (`Series`). What
is kept of them lies stacked: each began in a tree that looks like the one in which the one below it
was completed, and all backups are in place (`Series.stacked`).
-/
namespace Retrace

open FileSystem Retrace.Path Script

variable {g : Grounds} {s : Store} {fs fs₁ fs₂ fs' : FileSystem} {m m₁ m₂ m' : Manager} {w : Bytes}
  {t u : Transaction} {cs : List Change} {ok : FileSystem → FileSystem → Change → Prop}
  {xs ys : List (Operation × Option Bytes)} {now : Instant}

/-- A transaction that was started, filled with changes that were made, and completed. -/
structure Episode where
  id : String
  time : Instant
  changes : List Change
  deriving DecidableEq, Repr

/-- The ids of all changes, in their order. -/
def Episode.changeIds (es : List Episode) : List String := (es.flatMap (·.changes)).map (·.id)

theorem Episode.changeIds_snoc (es : List Episode) (e : Episode) :
    changeIds (es ++ [e]) = changeIds es ++ e.changes.map (·.id) := by
  simp [changeIds]

theorem Episode.changeIds_append (es es' : List Episode) :
    changeIds (es ++ es') = changeIds es ++ changeIds es' := by
  simp [changeIds]

/-- Transactions one after the other, with nothing else in between. Of the trees around each change
something more may be asked. -/
inductive Series (g : Grounds) (ok : FileSystem → FileSystem → Change → Prop) (m : Manager)
    (fs : FileSystem) : List Episode → Manager → FileSystem → Prop
  | nil : Series g ok m fs [] m fs
  | snoc {es : List Episode} {e : Episode} {m₁ m₂ m₃ m₄ : Manager} {fs₁ fs₂ fs₃ : FileSystem}
    {name description command : String} {metadata : Metadata} (h : Series g ok m fs es m₁ fs₁)
    (hstart : m₁.start e.id e.time name description command metadata = (.ok e.id, m₂))
    (hrecorded : Recorded g ok m₂ fs₁ e.changes m₃ fs₂)
    (hcomplete : m₃.complete.run fs₂ = ((.ok e.id, m₄), fs₃)) :
    Series g ok m fs (es ++ [e]) m₄ fs₃

/-! ### Changes without room -/

/-- A change is made at the place of its path alone, unless it moves something. -/
theorem Mutation.Fits.edit_or_moved {μ : Mutation} {root p : Path} (h : μ.Fits g fs root p)
    (hs : fs.Sound) (hroot : root.isAbsolute = true) (hmade : μ.perform fs root p = .ok fs') :
    ((∀ q, μ ≠ move q) ∧ ∃ o, Edit fs (spelled root p) o fs') ∨
      ∃ q v c w d e, μ = move q ∧ spelled root q = v :: c ∧ spelled root p = w :: d ∧
        Moved fs c v d w e fs' := by
  obtain ⟨w, d, hwd, hl, hd⟩ := h.place.exists_cons
  have hn : ∀ u ∈ w :: d, IsName u := hwd ▸ isName_of_mem_spelled
  have hp : root.normalize p = ofNames true (w :: d) := by rw [normalize_eq hroot, hwd]
  have hmeant := h.meant
  rw [hwd] at hmeant ⊢
  cases μ with
  | create mode content | copy mode content =>
    rw [Mutation.perform, hp] at hmade
    exact .inl ⟨by simp, _, (writeFile_ok hs hn hd (.inl hmeant) hmade).2.1⟩
  | update mode content =>
    rw [Mutation.perform, hp] at hmade
    exact .inl ⟨by simp, _, (writeFile_ok hs hn hd hmeant hmade).2.1⟩
  | delete =>
    rw [Mutation.perform, hp] at hmade
    obtain ⟨n, b, hmeant⟩ := hmeant
    exact .inl ⟨by simp, _, (removeFile_ok hs hn hd hmeant hmade).2.1⟩
  | symlink target =>
    rw [Mutation.perform, hp] at hmade
    exact .inl ⟨by simp, _, (makeLink_ok hs hn hd hmeant hmade).2.1⟩
  | directoryCreate =>
    rw [Mutation.perform, hp] at hmade
    exact .inl ⟨by simp, _, (makeDirectory_ok hs hn hd hmeant hmade).2.1⟩
  | chmod mode =>
    rw [Mutation.perform, hp] at hmade
    obtain ⟨e, he, hlink⟩ := hmeant
    exact .inl ⟨by simp, _, (setMode_ok hs hn hd he hlink hmade).2⟩
  | move q =>
    rw [Mutation.perform, hp] at hmade
    obtain ⟨hsource, hsome⟩ := h.source q rfl
    obtain ⟨v, c, hvc, -, hc⟩ := hsource.exists_cons
    have hq : root.normalize q = ofNames true (v :: c) := by rw [normalize_eq hroot, hvc]
    rw [hvc] at hsome
    obtain ⟨e, he⟩ := Option.isSome_iff_exists.1 hsome
    rw [hq] at hmade
    exact .inr ⟨q, v, c, w, d, e, rfl, hvc, rfl,
      rename_ok hs (hvc ▸ isName_of_mem_spelled) hc hn hd hmeant he hmade⟩

theorem Mutation.Fits.undisturbed {μ : Mutation} {root p : Path} (h : μ.Fits g fs root p)
    (hs : fs.Sound) (hroot : root.isAbsolute = true) (hmade : μ.perform fs root p = .ok fs') :
    Undisturbed g fs fs' := by
  have hplace := h.place.apart
  rcases h.edit_or_moved hs hroot hmade with ⟨-, o, he⟩ | ⟨q, v, c, w, d, e, hμ, hq, hp, hm⟩
  · exact .of_edit hplace he
  · have hsource := (h.source q hμ).1.apart
    rw [hq] at hsource
    rw [hp] at hplace
    rw [hm.relocated]
    exact .of_relocate hs hm.movable hm.target.directory hsource hplace

theorem Bracket.passed {c : Change} (h : Bracket g m fs c m' fs₁ fs') (hk : Keeps g m.store fs)
    (hroot : m.root.isAbsolute = true) (hid : Plain c.id) :
    ∃ t op, m.current = some t ∧ m' = m.append t op ∧ op.id = c.id ∧ Keeps g m.store fs' ∧
      ∀ w, w ≠ backupName c.id → fs'.at (w :: g.backups) = fs.at (w :: g.backups) := by
  obtain ⟨-, t, previous, hadd⟩ := Manager.add_ok h.recorded
  have ht := hadd.tended hk hid
  have hund := (h.fits.tended ht).undisturbed ht.sound hroot h.made
  refine ⟨t, _, hadd.current, hadd.appended, rfl, hund.keeps (ht.keeps hk), fun w hw => ?_⟩
  rw [hund.at_eq _ (.inl (Grounds.within_cons (by simp [Grounds.folders]) w))]
  rcases hadd.backed hk hid with ⟨-, hsame⟩ | ⟨b, -, -, he, -⟩
  · rw [hsame]
  · exact he.at_of_ne fun heq => hw (List.cons.inj heq).1

theorem Recorded.passed (h : Recorded g ok m fs cs m' fs') (hk : Keeps g m.store fs)
    (hroot : m.root.isAbsolute = true) (hids : ∀ c ∈ cs, Plain c.id) (ht : m.current = some t) :
    ∃ ops, Recorded.Noted m t ops m' ∧ ops.map (·.id) = cs.map (·.id) ∧ Keeps g m.store fs' ∧
      ∀ w, (∀ c ∈ cs, w ≠ backupName c.id) → fs'.at (w :: g.backups) = fs.at (w :: g.backups) := by
  induction h with
  | nil => exact ⟨[], ⟨by simp [ht], rfl⟩, rfl, hk, fun _ _ => rfl⟩
  | @snoc cs c m₁ m₂ fs₁ fs₂ fs₃ h hc hok ih =>
    obtain ⟨ops, hnoted, hsame, hk₁, hbackups⟩ := ih fun c hc => hids c (by simp [hc])
    have hstore : m₁.store = m.store := by rw [hnoted.manager]
    have hroot' : m₁.root = m.root := by rw [hnoted.manager]
    obtain ⟨t', op, ht', hm₂, hid, hk₂, hbackups'⟩ :=
      hc.passed (hstore ▸ hk₁) (hroot' ▸ hroot) (hids c (by simp))
    rw [hnoted.current, Option.some.injEq] at ht'
    refine ⟨ops ++ [op], ⟨?_, ?_⟩, by simp [hsame, hid], hstore ▸ hk₂, fun w hw => ?_⟩
    · rw [hm₂, ← ht']
      simp [Manager.append]
    · rw [hm₂, Manager.append, hnoted.manager]
    · rw [hbackups' w (hw c (by simp)), hbackups w fun c hc => hw c (by simp [hc])]

theorem Manager.complete_of_few (hc : m.current = some t)
    (hsaved : (m.store.saveTransaction { t with status := .completed }).run fs = (.ok (), fs'))
    (hfew : (m.keep { t with status := .completed }).history.length ≤ m.settings.maxTransactions) :
    m.complete.run fs = ((.ok t.id, (m.keep { t with status := .completed }).publish
      (.transactionCompleted t.id t.operations.length)), fs') := by
  have hnone : (m.keep { t with status := .completed }).excess = [] := by
    have hlength : (m.keep { t with status := .completed }).history.length -
      (m.keep { t with status := .completed }).settings.maxTransactions = 0 := Nat.sub_eq_zero_of_le hfew
    simp [excess, Index.values, hlength]
  simp only [complete, hc, run_bind, hsaved, enforceLimit, hnone, purgeEach, run_pure]

/-! ### What one transaction leaves -/

structure Carries (g : Grounds) (m m' : Manager) (fs' : FileSystem) : Prop where
  root : m'.root = m.root
  store : m'.store = m.store
  keeps : Keeps g m.store fs'
  plainIds : Manager.PlainIds m'

structure Passed (g : Grounds) (m : Manager) (fs : FileSystem) (e : Episode) (m' : Manager)
    (fs' : FileSystem) : Prop extends Carries g m m' fs' where
  kept : ∀ j u, m'.transaction? j = some u →
    j = e.id ∧ u.operations.map (·.id) = e.changes.map (·.id) ∨ j ≠ e.id ∧ m.transaction? j = some u
  backups : ∀ w, fs'.at (w :: g.backups) = fs.at (w :: g.backups) ∨
    (∃ c ∈ e.changes, w = backupName c.id) ∨
    ∃ j u op, m.transaction? j = some u ∧ m'.transaction? j = none ∧ op ∈ u.operations ∧
      w = backupName op.id

theorem start_ok {id name description command : String} {metadata : Metadata}
    (h : m.start id now name description command metadata = (.ok id, m')) :
    m'.root = m.root ∧ m'.store = m.store ∧ m'.history = m.history ∧
      m'.current = some (.start id now name description command metadata) := by
  cases hcurrent : m.current with
  | some t => simp [Manager.start, hcurrent] at h
  | none =>
    simp only [Manager.start, hcurrent, Prod.mk.injEq, true_and] at h
    rw [← h]
    exact ⟨rfl, rfl, rfl, rfl⟩

theorem transaction?_noted {ops : List Operation} (hm₁ : m₁.history = m.history)
    (h : Recorded.Noted m₁ t ops m₂) (j : String) : m₂.transaction? j = m.transaction? j := by
  rw [Manager.transaction?, h.manager, hm₁]; rfl

theorem plainIds_congr (hp : Manager.PlainIds m)
    (h : ∀ j, m'.transaction? j = m.transaction? j) : Manager.PlainIds m' :=
  ⟨fun j t ht => hp.transaction j t (h j ▸ ht), fun j t ht => hp.operation j t (h j ▸ ht)⟩

section Step

variable {e : Episode} {m₃ : Manager} {fs₃ : FileSystem} {name description command : String}
  {metadata : Metadata} {ids : List String}

/-- One transaction after the other leaves what the next one needs. -/
theorem passed_of_complete (hk : Keeps g m.store fs) (hroot : m.root.isAbsolute = true)
    (hp : Manager.PlainIds m) (hid : Plain e.id) (hids : ∀ c ∈ e.changes, Plain c.id)
    (hstart : m.start e.id e.time name description command metadata = (.ok e.id, m₁))
    (hrecorded : Recorded g ok m₁ fs e.changes m₂ fs₂)
    (hcomplete : m₂.complete.run fs₂ = ((.ok e.id, m₃), fs₃)) : Passed g m fs e m₃ fs₃ := by
  obtain ⟨hroot₁, hstore₁, hhistory₁, hcurrent₁⟩ := start_ok hstart
  obtain ⟨ops, hnoted, hsame, hk₂, hbackups⟩ :=
    hrecorded.passed (hstore₁ ▸ hk) (hroot₁ ▸ hroot) hids hcurrent₁
  have hstore₂ : m₂.store = m₁.store := by rw [hnoted.manager]
  have hkept₂ := transaction?_noted hhistory₁ hnoted
  have hplain : ∀ op ∈ ops, Plain op.id := fun op hop => by
    have hmem : op.id ∈ e.changes.map (·.id) := hsame ▸ List.mem_map_of_mem hop
    obtain ⟨c, hc, heq⟩ := List.mem_map.1 hmem
    exact heq ▸ hids c hc
  have hp₂ := plainIds_congr hp hkept₂
  obtain ⟨-, text, fs', m', hdone, rfl⟩ := Manager.complete_ok hcomplete (hstore₂ ▸ hk₂) hp₂
    hnoted.current hid (by simpa [Transaction.start] using hplain)
  have hk₂' : Keeps g m₂.store fs₂ := hstore₂ ▸ hk₂
  have htended := (hk₂'.tended_edit (by simp [Grounds.folders]) (by simp) hdone.saved).trans
    hdone.pruned.tended
  have hkeep : ∀ j u, m'.transaction? j = some u →
      j = e.id ∧ u.operations.map (·.id) = e.changes.map (·.id) ∨
        j ≠ e.id ∧ m.transaction? j = some u := by
    intro j u hu
    have hu' := hdone.pruned.kept j u hu
    rw [Manager.transaction?_keep] at hu'
    split at hu'
    · next hj =>
      obtain rfl := Option.some.inj hu'
      exact .inl ⟨hj, by simpa [Transaction.start] using hsame⟩
    · next hj => exact .inr ⟨hj, hkept₂ j ▸ hu'⟩
  have hunsaved : ∀ w, fs'.at (w :: g.backups) = fs₂.at (w :: g.backups) := fun w =>
    hdone.saved.at_of_ne fun heq => hk.transactions_ne_backups (List.cons.inj heq).2.symm
  have hroot₂ : m₂.root = m₁.root := by rw [hnoted.manager]
  have hmanager : m'.root = m₂.root ∧ m'.store = m₂.store := by
    rw [hdone.pruned.manager]; exact ⟨rfl, rfl⟩
  refine
    { root := (hmanager.1.trans hroot₂).trans hroot₁
      store := (hmanager.2.trans hstore₂).trans hstore₁
      keeps := by rw [← hstore₁, ← hstore₂]; exact htended.keeps hk₂'
      plainIds := plainIds_congr
        (hdone.pruned.plainIds (hp₂.keep hid (by simpa [Transaction.start] using hplain))) fun _ => rfl
      kept := hkeep
      backups := fun w => ?_ }
  rcases hdone.pruned.backups w with hw | ⟨j, u, op, hu, hgone, hop, rfl⟩
  · rw [hw, hunsaved]
    by_cases hc : ∃ c ∈ e.changes, w = backupName c.id
    · exact .inr (.inl hc)
    · exact .inl (hbackups w fun c hmem heq => hc ⟨c, hmem, heq⟩)
  · rw [Manager.transaction?_keep] at hu
    split at hu
    · obtain rfl := Option.some.inj hu
      have hmem : op.id ∈ e.changes.map (·.id) := by
        rw [← hsame]
        exact List.mem_map_of_mem (by simpa [Transaction.start] using hop)
      obtain ⟨c, hc, heq⟩ := List.mem_map.1 hmem
      exact .inr (.inl ⟨c, hc, by rw [heq]⟩)
    · exact .inr (.inr ⟨j, u, op, hkept₂ j ▸ hu, hgone, hop, rfl⟩)

theorem Fresh.passed (h : Fresh m (e.changes.map (·.id) ++ ids)) (hp : Passed g m fs e m' fs') :
    Fresh m' ids where
  plain i hi := h.plain i (List.mem_append_right _ hi)
  nodup := (List.nodup_append.1 h.nodup).2.1
  unused j u hu op hop hi := by
    rcases hp.kept j u hu with ⟨-, hsame⟩ | ⟨-, hu'⟩
    · have hmem : op.id ∈ e.changes.map (·.id) := hsame ▸ List.mem_map_of_mem hop
      exact (List.nodup_append.1 h.nodup).2.2 _ hmem _ hi rfl
    · exact h.unused j u hu' op hop (List.mem_append_right _ hi)

theorem Fresh.mono {new : List String} (h : Fresh m (ids ++ new)) : Fresh m ids where
  plain i hi := h.plain i (List.mem_append_left _ hi)
  nodup := (List.nodup_append.1 h.nodup).1
  unused j u hu op hop hi := h.unused j u hu op hop (List.mem_append_left _ hi)

theorem Fresh.plain_change (h : Fresh m (cs.map (·.id) ++ ids)) : ∀ c ∈ cs, Plain c.id :=
  fun _ hc => h.mono.plain _ (List.mem_map_of_mem hc)

end Step

theorem Series.passed {es : List Episode} {ids : List String} (h : Series g ok m fs es m' fs')
    (hk : Keeps g m.store fs) (hroot : m.root.isAbsolute = true) (hp : Manager.PlainIds m)
    (hes : ∀ e ∈ es, Plain e.id) (hfresh : Fresh m (Episode.changeIds es ++ ids)) :
    Carries g m m' fs' ∧ Fresh m' ids := by
  induction h generalizing ids with
  | nil => exact ⟨⟨rfl, rfl, hk, hp⟩, hfresh⟩
  | @snoc es e m₁ m₂ m₃ m₄ fs₁ fs₂ fs₃ _ _ _ _ h hstart hrecorded hcomplete ih =>
    rw [Episode.changeIds_snoc, List.append_assoc] at hfresh
    obtain ⟨hc, hfresh₁⟩ := ih (fun e he => hes e (by simp [he])) hfresh
    have hpassed := passed_of_complete (hc.store ▸ hc.keeps) (hc.root ▸ hroot) hc.plainIds
      (hes e (by simp)) hfresh₁.plain_change hstart hrecorded hcomplete
    exact ⟨⟨hpassed.root.trans hc.root, hpassed.store.trans hc.store, hc.store ▸ hpassed.keeps,
      hpassed.plainIds⟩, hfresh₁.passed hpassed⟩

/-! ### What lies on top of each other -/

def Alone (m : Manager) (t : Transaction) : Prop :=
  ∀ j u, m.transaction? j = some u → j ≠ t.id → ∀ op ∈ t.operations, ∀ op' ∈ u.operations,
    op'.id ≠ op.id

structure Standing (g : Grounds) (m : Manager) (fs : FileSystem) (t : Transaction)
    (xs : List (Operation × Option Bytes)) : Prop extends Held g m fs t xs where
  alone : Alone m t

theorem Held.congr (h : Held g m fs t xs) (hstore : m'.store = m.store) (hk : Keeps g m.store fs')
    (hkept : m'.transaction? t.id = some t)
    (hbackups : ∀ op ∈ t.operations,
      fs'.at (backupName op.id :: g.backups) = fs.at (backupName op.id :: g.backups))
    (hroom : Room fs' m.store.transactionsDirectory g.transactions) : Held g m' fs' t xs where
  keeps := hstore ▸ hk
  kept := hkept
  completed := h.completed
  operations := h.operations
  plain := h.plain
  plain_operations := h.plain_operations
  text := h.text
  secured x hx := by
    rw [hstore]
    exact (h.secured x hx).congr hk (hbackups _ (h.operations ▸ List.mem_map_of_mem hx))
  room := hstore ▸ hroom
  aims := by rw [hstore]; exact h.aims.of_leads hk.transactions

theorem Standing.passed {e : Episode} (h : Standing g m fs t xs) (hp : Passed g m fs e m' fs')
    (hfresh : Fresh m (e.changes.map (·.id))) (hne : t.id ≠ e.id)
    (hkept : (m'.transaction? t.id).isSome)
    (hroom : Room fs' m.store.transactionsDirectory g.transactions) : Standing g m' fs' t xs := by
  have hstays : ∀ j u, m'.transaction? j = some u → j ≠ e.id → m.transaction? j = some u :=
    fun j u hu hj => ((hp.kept j u hu).resolve_left fun hc => hj hc.1).2
  have hkept' : m'.transaction? t.id = some t := by
    obtain ⟨u, hu⟩ := Option.isSome_iff_exists.1 hkept
    rw [hu, ← hstays _ _ hu hne, h.kept]
  refine { h.toHeld.congr hp.store hp.keeps hkept' (fun op hop => ?_) hroom with alone := ?_ }
  · rcases hp.backups (backupName op.id) with heq | ⟨c, hc, heq⟩ | ⟨j, u, op', hu, hgone, hop', heq⟩
    · exact heq
    · exact absurd (backupName_inj heq ▸ List.mem_map_of_mem hc)
        (hfresh.unused t.id t h.kept op hop)
    · have hj : j ≠ t.id := fun hj => by rw [hj, hkept'] at hgone; cases hgone
      exact absurd (backupName_inj heq).symm (h.alone j u hu hj op hop op' hop')
  · intro j u hu hj op hop op' hop' heq
    rcases hp.kept j u hu with ⟨-, hsame⟩ | ⟨-, hu'⟩
    · have hmem : op'.id ∈ e.changes.map (·.id) := hsame ▸ List.mem_map_of_mem hop'
      exact hfresh.unused t.id t h.kept op hop (heq ▸ hmem)
    · exact h.alone j u hu' hj op hop op' hop' heq

theorem Standing.rolledBack {r : Rollback.Result} (h : Standing g m fs t xs) (hne : t.id ≠ u.id)
    (hu : m.transaction? u.id = some u) (hr : RolledBack g m now u fs r m' fs') :
    Standing g m' fs' t xs := by
  have hstore : m'.store = m.store := by rw [hr.manager]
  have hget : ∀ j, m'.transaction? j = if j = u.id then some (u.reverted now) else m.transaction? j :=
    fun j => by rw [Manager.transaction?, hr.manager]; exact Index.get?_put _ _ _ _
  have hroom : Room fs' m.store.transactionsDirectory g.transactions :=
    h.room.congr (hr.folders _ (by simp [Grounds.folders])) fun i => by
      rw [hr.transactions _ fun heq => documentName_ne_temporary _ i heq.symm]
  have hkept : m'.transaction? t.id = some t := by rw [hget, if_neg hne, h.kept]
  refine { h.toHeld.congr hstore hr.keeps hkept (fun op hop => ?_) hroom with alone := ?_ }
  · refine (hr.backups _).resolve_right ?_
    rintro ⟨op', hop', heq⟩
    exact h.alone _ u hu hne.symm op hop op' hop' (backupName_inj heq).symm
  · intro j v hv hj op hop op' hop'
    rw [hget] at hv
    split at hv
    · next heq =>
      obtain rfl := Option.some.inj hv
      exact h.alone j u (heq ▸ hu) hj op hop op' hop'
    · exact h.alone j v hv hj op hop op' hop'

abbrev Layer := Transaction × List (Operation × Option Bytes)

/-- Transactions on top of each other, the newest first: each leads from a tree that looks like the
one in which the next one was completed. -/
inductive Stacked (g : Grounds) (s : Store) (origin : FileSystem) : List Layer → FileSystem → Prop
  | nil {fs : FileSystem} (h : Alike g origin fs) : Stacked g s origin [] fs
  | cons {t : Transaction} {xs : List (Operation × Option Bytes)}
    {ls : List Layer} {fs₁ fs₂ fs : FileSystem}
    (h : Stacked g s origin ls fs₁) (htrail : Trail g s fs₁ xs fs₂) (halike : Alike g fs₂ fs) :
    Stacked g s origin ((t, xs) :: ls) fs

variable {origin : FileSystem} {ls : List Layer}

theorem Stacked.congr (h : Stacked g s origin ls fs) (hfs : Alike g fs fs') :
    Stacked g s origin ls fs' := by
  cases h with
  | nil h => exact .nil (h.trans hfs)
  | cons h htrail halike => exact .cons h htrail (halike.trans hfs)

/-- All transactions of a series, while they are kept, lie on top of each other and can be rolled
back. -/
theorem Series.stacked {es : List Episode} {ids : List String}
    (h : Series g (fun fs fs' c => c.Roomy fs fs' m.root) m fs es m' fs') (hk : Keeps g m.store fs)
    (hroot : m.root.isAbsolute = true) (hp : Manager.PlainIds m) (hes : ∀ e ∈ es, Plain e.id)
    (hnodup : (es.map (·.id)).Nodup) (hfresh : Fresh m (Episode.changeIds es ++ ids))
    (hkept : ∀ e ∈ es, (m'.transaction? e.id).isSome) :
    ∃ ls, Stacked g m.store fs ls fs' ∧ (∀ l ∈ ls, Standing g m' fs' l.1 l.2) ∧
      ls.map (fun l => (l.1.id, l.1.timestamp, l.1.operations.length)) =
        es.reverse.map fun e => (e.id, e.time, e.changes.length) := by
  generalize hok : (fun fs fs' c => Change.Roomy fs fs' m.root c) = ok at h
  induction h generalizing ids with
  | nil => exact ⟨[], .nil (Alike.refl g fs), by simp, rfl⟩
  | @snoc es e m₁ m₂ m₃ m₄ fs₁ fs₂ fs₃ name description command metadata h hstart hrecorded
      hcomplete ih =>
    rw [Episode.changeIds_snoc, List.append_assoc] at hfresh
    have hes' : ∀ e ∈ es, Plain e.id := fun e he => hes e (by simp [he])
    obtain ⟨hc, hfresh₁⟩ := h.passed hk hroot hp hes' hfresh
    have hk₁ : Keeps g m₁.store fs₁ := hc.store ▸ hc.keeps
    have hroot' : m₁.root.isAbsolute = true := hc.root ▸ hroot
    have hpassed := passed_of_complete hk₁ hroot' hc.plainIds (hes e (by simp))
      hfresh₁.plain_change hstart hrecorded hcomplete
    rw [List.map_append, List.nodup_append] at hnodup
    have hne : ∀ e' ∈ es, e'.id ≠ e.id := fun e' he' =>
      hnodup.2.2 _ (List.mem_map_of_mem he') _ (by simp)
    have hkept₁ : ∀ e' ∈ es, (m₁.transaction? e'.id).isSome := fun e' he' => by
      obtain ⟨u, hu⟩ := Option.isSome_iff_exists.1 (hkept e' (by simp [he']))
      exact Option.isSome_iff_exists.2
        ⟨u, ((hpassed.kept _ u hu).resolve_left fun hc => hne e' he' hc.1).2⟩
    obtain ⟨ls, hstacked, hstanding, hls⟩ := ih hes' hnodup.1 hfresh hkept₁
    -- the newest transaction comes on top
    obtain ⟨hroot₁, hstore₁, hhistory₁, hcurrent₁⟩ := start_ok hstart
    have hrecorded' : Recorded g (fun fs fs' c => c.Roomy fs fs' m₂.root) m₂ fs₁ e.changes m₃ fs₂ := by
      rw [hroot₁, hc.root, hok]; exact hrecorded
    obtain ⟨xs, htrail, hsame, hnoted⟩ := hrecorded'.trail (hstore₁ ▸ hk₁) (hroot₁ ▸ hroot')
      hfresh₁.plain_change hcurrent₁
    have hstore₃ : m₃.store = m₂.store := by rw [hnoted.manager]
    have hkept₃ := transaction?_noted hhistory₁ hnoted
    have hfresh₃ : Fresh m₃ (xs.map (·.1.id)) := by
      rw [hsame]
      exact ⟨hfresh₁.mono.plain, hfresh₁.mono.nodup, fun j t ht => hfresh₁.mono.unused j t (hkept₃ j ▸ ht)⟩
    have hk₃ : Keeps g m₃.store fs₂ := by rw [hstore₃]; exact htrail.keeps (hstore₁ ▸ hk₁)
    rw [← hstore₃] at htrail
    obtain ⟨hstore₄, hheld, halike⟩ := held_of_complete htrail hk₃ (plainIds_congr hc.plainIds hkept₃)
      hnoted.current (by simp [Transaction.start]) (hes e (by simp)) hfresh₃ hcomplete
      (hkept e (by simp))
    set t : Transaction := { (Transaction.start e.id e.time name description command metadata) with
      operations := [] ++ xs.map (·.1), status := .completed } with ht
    have hstore₄' : m₄.store = m.store := hpassed.store.trans hc.store
    have halone : Alone m₄ t := by
      intro j u hu hj op hop op' hop' heq
      obtain ⟨-, hu'⟩ := (hpassed.kept j u hu).resolve_left fun hc => hj hc.1
      refine hfresh₁.mono.unused j u hu' op' hop' ?_
      rw [heq, ← hsame]
      obtain ⟨x, hx, rfl⟩ := List.mem_map.1 (show op ∈ xs.map (·.1) from hop)
      exact List.mem_map_of_mem hx
    have hroom : Room fs₃ m₁.store.transactionsDirectory g.transactions := by
      rw [← hpassed.store]; exact hheld.room
    refine ⟨(t, xs) :: ls, .cons hstacked ?_ halike, ?_, ?_⟩
    · rw [← hstore₄', hstore₄]; exact htrail
    · intro l hl
      rcases List.mem_cons.1 hl with rfl | hl
      · exact { hheld with alone := halone }
      · have hmem : (l.1.id, l.1.timestamp, l.1.operations.length) ∈
            es.reverse.map fun e => (e.id, e.time, e.changes.length) :=
          hls ▸ List.mem_map_of_mem (f := fun l => (l.1.id, l.1.timestamp, l.1.operations.length)) hl
        obtain ⟨e', he', heq⟩ := List.mem_map.1 hmem
        have he' : e' ∈ es := by simpa using he'
        have hid : e'.id = l.1.id := (Prod.mk.inj heq).1
        exact (hstanding l hl).passed hpassed hfresh₁.mono (hid ▸ hne e' he')
          (hid ▸ hkept e' (by simp [he'])) hroom
    · have hlength := congrArg List.length hsame
      simp only [List.length_map] at hlength
      simp [hls, ht, Transaction.start, hlength]

end Retrace
