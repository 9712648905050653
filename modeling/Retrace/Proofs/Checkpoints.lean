import Retrace.Manager.Checkpoints
import Retrace.Proofs.Series
import Retrace.Proofs.Time.Order

/-!
Rolling back a checkpoint. Its members are undone newest first, in whatever order and however often
they were named (`membersOf_eq`), and where they were made one after the other the project is as it
was before the oldest of them (`checkpoint_rollback_restores`).
-/
namespace Retrace

open FileSystem Retrace.Path Script
open Rollback (Options Result)

variable {g : Grounds} {fs fs₁ fs₂ fs₃ fs' origin : FileSystem} {m m₁ m₂ m₃ m' : Manager}
  {t : Transaction} {xs : List (Operation × Option Bytes)} {ls : List Layer} {now later : Instant}
  {options : Options}

/-! ### Members -/

theorem Checkpoint.mem_firsts (seen ids : List String) (i : String) :
    i ∈ firsts seen ids ↔ i ∈ ids ∧ i ∉ seen := by
  induction ids generalizing seen with
  | nil => simp [firsts]
  | cons j ids ih =>
    simp only [firsts]
    split
    · next hj =>
      rw [ih, List.mem_cons]
      exact ⟨fun h => ⟨.inr h.1, h.2⟩,
        fun h => ⟨h.1.resolve_left fun heq => h.2 (heq ▸ hj), h.2⟩⟩
    · next hj =>
      rw [List.mem_cons, ih, List.mem_cons, List.mem_cons]
      by_cases hi : i = j
      · simp [hi, hj]
      · simp [hi]

/-- The members of a checkpoint over transactions that are kept and differ in age are all of them,
newest first. -/
theorem membersOf_eq {c : Checkpoint} {ts : List Transaction} (hc : c.transactionIds.Nodup)
    (hmem : ∀ i, i ∈ c.transactionIds ↔ i ∈ ts.map (·.id)) (hnodup : (ts.map (·.id)).Nodup)
    (hkept : ∀ t ∈ ts, m.transaction? t.id = some t)
    (htimes : ts.Pairwise fun t u => u.timestamp.lt t.timestamp = true) : m.membersOf c = ts := by
  let before : Transaction → Transaction → Bool := fun t u => !u.timestamp.lt t.timestamp
  have hsorted : ((c.transactionIds.filterMap m.transaction?).mergeSort before).Pairwise
      fun t u => before t u = true :=
    @List.pairwise_mergeSort Transaction before (fun _ _ _ => Instant.not_lt_trans)
      (fun t u => Instant.not_lt_total t.timestamp u.timestamp) _
  have hsorted' : ts.reverse.Pairwise fun t u => before t u = true :=
    List.pairwise_reverse.2 (htimes.imp fun h => Instant.not_lt_iff.2 (.inl h))
  have hnamed : (ts.map (·.id)).filterMap m.transaction? = ts := by
    rw [List.filterMap_map]
    exact (List.filterMap_congr hkept).trans List.filterMap_some
  have hperm : ((c.transactionIds.filterMap m.transaction?).mergeSort before).Perm ts.reverse := by
    have hsame := ((List.perm_ext_iff_of_nodup hc hnodup).2 hmem).filterMap m.transaction?
    rw [hnamed] at hsame
    exact ((List.mergeSort_perm _ _).trans hsame).trans (List.reverse_perm ts).symm
  have hages : (ts.map (·.timestamp)).Nodup :=
    List.pairwise_map.2 <| htimes.imp fun h heq => by
      rw [heq, Instant.lt_iff] at h
      omega
  have hsame : ∀ t u, t ∈ (c.transactionIds.filterMap m.transaction?).mergeSort before →
      u ∈ ts.reverse → before t u = true → before u t = true → t = u := fun t u ht hu htu hut =>
    List.inj_on_of_nodup_map hages (List.mem_reverse.1 (hperm.mem_iff.1 ht)) (List.mem_reverse.1 hu)
      (Instant.not_lt_antisymm htu hut)
  rw [Manager.membersOf, hperm.eq_of_pairwise hsame hsorted hsorted', List.reverse_reverse]

/-! ### Making a checkpoint -/

theorem createCheckpoint_ok {id name description : String} {chosen : List String}
    {metadata : Metadata} (hk : Keeps g m.store fs) (hid : Plain id)
    (h : (m.createCheckpoint id now name description (some chosen) metadata).run fs =
      ((.ok id, m'), fs')) :
    m' = { m with
      checkpoints := m.checkpoints.put id (.create id now name description chosen metadata) } ∧
    ∃ o : Entry, (∃ b, o = .file 0o600 b) ∧
      Edit fs (documentName id :: g.checkpoints) (some o) fs' := by
  rw [Manager.createCheckpoint] at h
  cases hs : m.selection (some chosen) with
  | error e => simp [hs] at h
  | ok ids =>
    obtain rfl : ids = chosen := by
      rw [Manager.selection] at hs
      split at hs
      · cases hs
      · exact (Except.ok.inj hs).symm
    simp only [hs, run_bind] at h
    have hmeets : Meets (m.store.saveCheckpoint
        (Checkpoint.create id now name description ids metadata)) fs _
        (Stored fs m.store.checkpointsDirectory g.checkpoints (documentName id) _) :=
      save_meets hk (by simp [Grounds.folders]) hk.firm_checkpoints (isName_documentName hid)
    rcases hmeets.result with ⟨hr, hedit, -, -⟩ | ⟨⟨e, hr⟩, -⟩
    · rw [hr] at h
      simp only [run_pure, Prod.mk.injEq, true_and] at h
      obtain ⟨rfl, rfl⟩ := h
      exact ⟨rfl, _, ⟨_, rfl⟩, hedit⟩
    · rw [hr] at h
      simp at h

theorem Standing.checkpointed {x : Index Checkpoint} {w : Bytes} {b : Bytes}
    (h : Standing g m fs t xs)
    (he : Edit fs (w :: g.checkpoints) (some (.file 0o600 b)) fs') :
    Standing g { m with checkpoints := x } fs' t xs := by
  have hk := h.keeps
  have ht := hk.tended_edit (by simp [Grounds.folders]) (by simp) he
  have hheld : Held g { m with checkpoints := x } fs' t xs := by
    refine h.toHeld.congr rfl (ht.keeps hk) h.kept (fun op _ => ?_) ?_
    · exact he.at_of_ne fun heq => hk.checkpoints_ne_backups (List.cons.inj heq).2.symm
    · refine h.room.congr (ht.beyond _ (hk.folder_not_within (by simp [Grounds.folders]))) fun i => ?_
      rw [he.at_of_ne fun heq => hk.transactions_ne_checkpoints (List.cons.inj heq).2]
  exact { hheld with alone := h.alone }

/-! ### Rolling back -/

/-- Transactions on top of each other, rolled back one after the other, lead back to where the lowest
one began. -/
theorem rollbackInTurn_run (h : Stacked g m.store origin ls fs)
    (hall : ∀ l ∈ ls, Standing g m fs l.1 l.2) (hnodup : (ls.map (·.1.id)).Nodup)
    (hdry : options.dryRun = false) (now : Instant) :
    ∃ rs m' fs', (m.rollbackInTurn now options (ls.map (·.1))).run fs = ((rs, m'), fs') ∧
      rs.map (fun r => (r.transactionId, r.success, r.rolledBackOperations, r.errors,
        r.skippedOperations)) =
        ls.map (fun l => (l.1.id, true, l.1.operations.length, [], [])) ∧
      Alike g origin fs' := by
  induction ls generalizing m fs with
  | nil =>
    cases h with
    | nil h => exact ⟨[], m, fs, rfl, rfl, h⟩
  | cons l ls ih =>
    cases h with
    | @cons t xs _ fs₁ fs₂ _ h htrail halike =>
      have htop := hall (t, xs) List.mem_cons_self
      obtain ⟨r, m₁, R, hrun, hback, hrolled⟩ :=
        rollback_run htop.toHeld htrail halike hdry now
      rw [List.map_cons, List.nodup_cons] at hnodup
      have hstore : m₁.store = m.store := by rw [hrolled.manager]
      obtain ⟨rs, m', fs', hrest, hrs, horigin⟩ := ih (m := m₁) (hstore ▸ h.congr hback)
        (fun l hl => (hall l (List.mem_cons_of_mem _ hl)).rolledBack
          (fun heq => hnodup.1 (heq ▸ List.mem_map_of_mem hl)) htop.kept hrolled) hnodup.2
      refine ⟨r :: rs, m', fs', ?_, ?_, horigin⟩
      · simp only [List.map_cons, Manager.rollbackInTurn, run_bind, hrun, hrolled.success,
          Bool.not_true, Bool.false_and, Bool.false_eq_true, if_false, hrest, run_pure]
      · rw [List.map_cons, List.map_cons, hrs, hrolled.id, hrolled.success, hrolled.errors,
          hrolled.skipped, hrolled.count]

/-- Rolling back a checkpoint of transactions that were made one after the other, each change recorded
and then made, restores the project to what it was before the oldest of them, wherever what was
overwritten or removed can be put back beside its place. All checkpoints that name the same
transactions are rolled back in the same way. -/
theorem checkpoint_rollback_restores {earlier last : List Episode} {chosen : List String}
    {id name description : String} {metadata : Metadata} (hk : Keeps g m.store fs)
    (hroot : m.root.isAbsolute = true) (hp : Manager.PlainIds m)
    (hids : ∀ e ∈ earlier ++ last, Plain e.id)
    (hfresh : Fresh m (Episode.changeIds (earlier ++ last)))
    (hearlier : Series g (fun _ _ _ => True) m fs earlier m₁ fs₁)
    (hlast : Series g (fun fs fs' c => c.Roomy fs fs' m.root) m₁ fs₁ last m₂ fs₂)
    (hnodup : (last.map (·.id)).Nodup)
    (htimes : last.Pairwise fun e e' => e.time.lt e'.time = true)
    (hkept : ∀ e ∈ last, (m₂.transaction? e.id).isSome)
    (hchosen : ∀ i, i ∈ chosen ↔ i ∈ last.map (·.id)) (hid : Plain id)
    (hcheckpoint : (m₂.createCheckpoint id now name description (some chosen) metadata).run fs₂ =
      ((.ok id, m₃), fs₃)) :
    (∃ rs m' fs', (m₃.rollbackCheckpoint later {} id).run fs₃ = ((.ok rs, m'), fs') ∧
      rs.map (fun r => (r.transactionId, r.success, r.rolledBackOperations, r.errors,
        r.skippedOperations)) =
        last.reverse.map (fun e => (e.id, true, e.changes.length, [], [])) ∧
      Alike g fs₁ fs') ∧
    ∀ j c, m₃.checkpoint? j = some c → c.transactionIds.Nodup →
      (∀ i, i ∈ c.transactionIds ↔ i ∈ last.map (·.id)) →
      m₃.rollbackCheckpoint later {} j = m₃.rollbackCheckpoint later {} id := by
  rw [Episode.changeIds_append] at hfresh
  obtain ⟨hc, hfresh₁⟩ := hearlier.passed hk hroot hp (fun e he => hids e (by simp [he])) hfresh
  have hids' : ∀ e ∈ last, Plain e.id := fun e he => hids e (by simp [he])
  have hk₁ : Keeps g m₁.store fs₁ := hc.store ▸ hc.keeps
  rw [← hc.root] at hlast
  have hfresh₁' : Fresh m₁ (Episode.changeIds last ++ []) := by rwa [List.append_nil]
  obtain ⟨hc₂, -⟩ := hlast.passed hk₁ (hc.root ▸ hroot) hc.plainIds hids' hfresh₁'
  obtain ⟨ls, hstacked, hstanding, hls⟩ :=
    hlast.stacked hk₁ (hc.root ▸ hroot) hc.plainIds hids' hnodup hfresh₁' hkept
  obtain ⟨rfl, _, ⟨b, rfl⟩, hedit⟩ := createCheckpoint_ok (hc₂.store ▸ hc₂.keeps) hid hcheckpoint
  have hnames : ls.map (·.1.id) = last.reverse.map (·.id) := by
    simpa [List.map_map, Function.comp_def] using congrArg (List.map (·.1)) hls
  have hages : ls.map (·.1.timestamp) = last.reverse.map (·.time) := by
    simpa [List.map_map, Function.comp_def] using congrArg (List.map (·.2.1)) hls
  have hlengths : ls.map (fun l => (l.1.id, l.1.operations.length)) =
      last.reverse.map fun e => (e.id, e.changes.length) := by
    simpa [List.map_map, Function.comp_def] using congrArg (List.map fun x => (x.1, x.2.2)) hls
  have hdistinct : (ls.map (·.1.id)).Nodup := by
    rw [hnames, List.map_reverse]
    exact List.nodup_reverse.2 hnodup
  set m₃ : Manager := { m₂ with
    checkpoints := m₂.checkpoints.put id (.create id now name description chosen metadata) } with hm₃
  -- whatever names these transactions has them as members, newest first
  have hmembers : ∀ c : Checkpoint, c.transactionIds.Nodup →
      (∀ i, i ∈ c.transactionIds ↔ i ∈ last.map (·.id)) → m₃.membersOf c = ls.map (·.1) := by
    intro c hnodup hmem
    refine membersOf_eq hnodup (fun i => ?_) (by rw [List.map_map]; exact hdistinct) ?_ ?_
    · rw [hmem, List.map_map]
      change _ ↔ i ∈ ls.map (·.1.id)
      rw [hnames, List.map_reverse, List.mem_reverse]
    · intro t ht
      obtain ⟨l, hl, rfl⟩ := List.mem_map.1 ht
      exact (hstanding l hl).kept
    · have htimes' : (ls.map (·.1.timestamp)).Pairwise fun x y => y.lt x = true := by
        rw [hages, List.pairwise_map, List.pairwise_reverse]
        exact htimes
      rw [List.pairwise_map] at htimes' ⊢
      exact htimes'
  have hrollback : ∀ j c, m₃.checkpoint? j = some c → c.transactionIds.Nodup →
      (∀ i, i ∈ c.transactionIds ↔ i ∈ last.map (·.id)) →
      m₃.rollbackCheckpoint later {} j = do
        let out ← m₃.rollbackInTurn later {} (ls.map (·.1))
        return (.ok out.1, out.2) := by
    intro j c hj hnodup hmem
    simp only [Manager.rollbackCheckpoint, hj, hmembers c hnodup hmem]
    rfl
  have hget : m₃.checkpoint? id = some (Checkpoint.create id now name description chosen metadata) := by
    rw [Manager.checkpoint?, hm₃]
    simp [Index.get?_put]
  have hown := hrollback id _ hget (Checkpoint.nodup_firsts _ _) fun i => by
    rw [Checkpoint.create, Checkpoint.mem_firsts]
    simpa using hchosen i
  refine ⟨?_, fun j c hj hnodup hmem => by rw [hrollback j c hj hnodup hmem, hown]⟩
  have hstore₃ : m₃.store = m₁.store := hc₂.store
  have hafter := (hc₂.store ▸ hc₂.keeps : Keeps g m₂.store fs₂).tended_edit
    (by simp [Grounds.folders]) (by simp) hedit
  obtain ⟨rs, m', fs', hrun, hrs, horigin⟩ := rollbackInTurn_run (m := m₃)
    (hstore₃ ▸ hstacked.congr hafter.alike) (fun l hl => (hstanding l hl).checkpointed hedit)
    hdistinct (show ({} : Options).dryRun = false from rfl) later
  refine ⟨rs, m', fs', ?_, ?_, horigin⟩
  · rw [hown, run_bind, hrun, run_pure]
  · rw [hrs]
    simpa [List.map_map, Function.comp_def] using
      congrArg (List.map fun x => (x.1, true, x.2, ([] : List String), ([] : List String))) hlengths

namespace Sample

def episodes : List Episode := [] ++ [⟨"t", ⟨0, 0⟩, [] ++ [overwrite]⟩] ++ [⟨"u", ⟨1, 0⟩, [] ++ [rename]⟩]

def firstCompleted : (Except Error String × Manager) × FileSystem :=
  overwritten.1.complete.run overwritten.2.2

def secondStarted : Manager := (firstCompleted.1.2.start "u" ⟨1, 0⟩ "" "" "" []).2

def renamedLater : Manager × FileSystem × FileSystem :=
  (rename.make? secondStarted firstCompleted.2).get (by decide +kernel)

def second : Transaction := renamedLater.1.current.get (by decide +kernel)

def secondSaved : Except Error Unit × FileSystem :=
  (renamedLater.1.store.saveTransaction { second with status := .completed }).run renamedLater.2.2

def secondCompleted : Manager :=
  (renamedLater.1.keep { second with status := .completed }).publish
    (.transactionCompleted second.id second.operations.length)

def checkpointed : (Except Error String × Manager) × FileSystem :=
  (secondCompleted.createCheckpoint "c" ⟨2, 0⟩ "" "" (some ["u", "t", "u"]) []).run secondSaved.2

theorem mem_chosen (i : String) : i ∈ ["u", "t", "u"] ↔ i ∈ episodes.map (·.id) := by
  simp [episodes]
  tauto

def checkpointedInside : (Except Error String × Manager) × FileSystem :=
  (completedInside.1.2.createCheckpoint "c" ⟨2, 0⟩ "" "" (some ["t"]) []).run completedInside.2

end Sample

theorem checkpoint_rollback_restores_two_transactions :
    (∃ rs m' fs', (Sample.checkpointed.1.2.rollbackCheckpoint ⟨3, 0⟩ {} "c").run
        Sample.checkpointed.2 = ((.ok rs, m'), fs') ∧
      rs.map (fun r => (r.transactionId, r.success, r.rolledBackOperations, r.errors,
        r.skippedOperations)) =
        Sample.episodes.reverse.map (fun e => (e.id, true, e.changes.length, [], [])) ∧
      Alike Sample.grounds Sample.tree fs') ∧
    ∀ j c, Sample.checkpointed.1.2.checkpoint? j = some c → c.transactionIds.Nodup →
      (∀ i, i ∈ c.transactionIds ↔ i ∈ Sample.episodes.map (·.id)) →
      Sample.checkpointed.1.2.rollbackCheckpoint ⟨3, 0⟩ {} j =
        Sample.checkpointed.1.2.rollbackCheckpoint ⟨3, 0⟩ {} "c" := by
  have hoverwrite : Sample.overwrite.make? Sample.started Sample.tree = some Sample.overwritten :=
    (Option.some_get _).symm
  have hrename : Sample.rename.make? Sample.secondStarted Sample.firstCompleted.2 =
      some Sample.renamedLater := (Option.some_get _).symm
  have hroom : Sample.overwrite.Roomy Sample.tree Sample.overwritten.2.2 Sample.manager.root := by
    decide +kernel
  have hfirst : Recorded Sample.grounds (fun fs fs' c => c.Roomy fs fs' Sample.manager.root)
      Sample.started Sample.tree ([] ++ [Sample.overwrite]) Sample.overwritten.1
      Sample.overwritten.2.2 :=
    .snoc .nil (.of_make? (by decide +kernel) hoverwrite) hroom
  have hsecond : Recorded Sample.grounds (fun fs fs' c => c.Roomy fs fs' Sample.manager.root)
      Sample.secondStarted Sample.firstCompleted.2 ([] ++ [Sample.rename]) Sample.renamedLater.1
      Sample.renamedLater.2.2 :=
    .snoc .nil (.of_make? (by decide +kernel) hrename) trivial
  have hended : (Sample.firstCompleted.1.1 = .ok "t" ∧
        Sample.firstCompleted.1.2.current.isNone = true) ∧
      Sample.second.id = "u" ∧ Sample.secondSaved.1 = .ok () ∧
      (Sample.renamedLater.1.keep { Sample.second with status := .completed }).history.length ≤
        Sample.renamedLater.1.settings.maxTransactions ∧
      Sample.checkpointed.1.1 = .ok "c" := by decide +kernel
  obtain ⟨⟨hok, hidle⟩, hid, hwritten, hfew, hnamed⟩ := hended
  have hfirstCompleted : Sample.overwritten.1.complete.run Sample.overwritten.2.2 =
      ((.ok "t", Sample.firstCompleted.1.2), Sample.firstCompleted.2) := by
    rw [← hok, ← Sample.firstCompleted]
  have hstart : Sample.firstCompleted.1.2.start "u" ⟨1, 0⟩ "" "" "" [] =
      (.ok "u", Sample.secondStarted) := by
    rw [Sample.secondStarted, Manager.start, Option.isNone_iff_eq_none.1 hidle]
  have hcurrent : Sample.renamedLater.1.current = some Sample.second := (Option.some_get _).symm
  have hsaved : (Sample.renamedLater.1.store.saveTransaction
      { Sample.second with status := .completed }).run Sample.renamedLater.2.2 =
        (.ok (), Sample.secondSaved.2) := by
    rw [← hwritten, ← Sample.secondSaved]
  have hsecondCompleted : Sample.renamedLater.1.complete.run Sample.renamedLater.2.2 =
      ((.ok "u", Sample.secondCompleted), Sample.secondSaved.2) := by
    rw [← hid, Manager.complete_of_few hcurrent hsaved hfew, Sample.secondCompleted]
  have hcheckpointed : (Sample.secondCompleted.createCheckpoint "c" ⟨2, 0⟩ "" ""
      (some ["u", "t", "u"]) []).run Sample.secondSaved.2 =
        ((.ok "c", Sample.checkpointed.1.2), Sample.checkpointed.2) := by
    rw [← hnamed, ← Sample.checkpointed]
  have hseries : Series Sample.grounds (fun fs fs' c => c.Roomy fs fs' Sample.manager.root)
      Sample.manager Sample.tree Sample.episodes Sample.secondCompleted Sample.secondSaved.2 :=
    .snoc (.snoc .nil rfl hfirst hfirstCompleted) hstart hsecond hsecondCompleted
  have hfresh : Fresh Sample.manager (Episode.changeIds ([] ++ Sample.episodes)) :=
    ⟨by decide +kernel, by decide +kernel, fun _ _ h => by cases h⟩
  exact checkpoint_rollback_restores Sample.keeps (by decide +kernel) Sample.plainIds
    (by decide +kernel) hfresh .nil hseries (by decide +kernel) (by decide +kernel)
    (by decide +kernel) Sample.mem_chosen (by decide +kernel)
    hcheckpointed

/-- Without room beside it, what was overwritten in a transaction of a checkpoint is not put back. -/
theorem checkpoint_rollback_in_closed_directory :
    Keeps Sample.grounds Sample.manager.store Sample.tree ∧
      Series Sample.grounds (fun _ _ _ => True) Sample.manager Sample.tree
        [⟨"t", ⟨0, 0⟩, [Sample.overwriteInside]⟩] Sample.completedInside.1.2 Sample.completedInside.2 ∧
      (Sample.completedInside.1.2.transaction? "t").isSome ∧
      Sample.checkpointedInside.1.1 = .ok "c" ∧
      ((Sample.checkpointedInside.1.2.rollbackCheckpoint ⟨3, 0⟩ {} "c").run
        Sample.checkpointedInside.2).1.1.toOption.map (·.map (·.success)) = some [false] := by
  have hchange : Sample.overwriteInside.make? Sample.started Sample.tree =
      some Sample.overwrittenInside := (Option.some_get _).symm
  have hbracket : Bracket Sample.grounds Sample.started Sample.tree Sample.overwriteInside
      Sample.overwrittenInside.1 Sample.overwrittenInside.2.1 Sample.overwrittenInside.2.2 :=
    .of_make? (by decide +kernel) hchange
  have hended : Sample.completedInside.1.1 = .ok "t" ∧
      (Sample.completedInside.1.2.transaction? "t").isSome ∧
      Sample.checkpointedInside.1.1 = .ok "c" ∧
      ((Sample.checkpointedInside.1.2.rollbackCheckpoint ⟨3, 0⟩ {} "c").run
        Sample.checkpointedInside.2).1.1.toOption.map (·.map (·.success)) = some [false] := by
    decide +kernel
  have hid := hended.1
  have hcompleted : Sample.overwrittenInside.1.complete.run Sample.overwrittenInside.2.2 =
      ((.ok "t", Sample.completedInside.1.2), Sample.completedInside.2) := by
    rw [← hid, ← Sample.completedInside]
  have hseries : Series Sample.grounds (fun _ _ _ => True) Sample.manager Sample.tree
      ([] ++ [⟨"t", ⟨0, 0⟩, [] ++ [Sample.overwriteInside]⟩]) Sample.completedInside.1.2
      Sample.completedInside.2 :=
    .snoc .nil rfl (.snoc .nil hbracket trivial) hcompleted
  exact ⟨Sample.keeps, hseries, hended.2⟩

end Retrace
