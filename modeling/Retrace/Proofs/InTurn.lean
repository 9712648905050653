import Retrace.Proofs.BackupLedger
import Retrace.Proofs.Bounds
import Retrace.Proofs.DryRun
import Retrace.Proofs.Time.Order

/-!
Rolling back a checkpoint one transaction after the other. The newest goes first (`TurnOrder`), each
is rolled back as it would be by itself (`rollbackEach`), the first failure ends it all unless forced
(`Stops`), and what belongs to the others stays (`checkpoint_rolled_back_in_turn`).
-/
namespace Retrace

open FileSystem Retrace.Path Script
open Rollback (Options Result Pending)

namespace Manager

variable {m : Manager} {g : Grounds} {fs fs' : FileSystem} {now : Instant} {options : Options}
  {id : String} {ids : List String} {t : Transaction} {c : Checkpoint} {l : Location}

/-! ### The order -/

/-- The order in which the transactions of a checkpoint are rolled back: all that are kept, the newest
first, and of equal times the one that is named last. -/
structure TurnOrder (m : Manager) (c : Checkpoint) (ids : List String) : Prop where
  kept : ids.Perm (c.transactionIds.filter fun id => (m.transaction? id).isSome)
  newer : ids.Pairwise fun i j => ∀ t u, m.transaction? i = some t → m.transaction? j = some u →
    u.timestamp.lt t.timestamp = true ∨
      t.timestamp = u.timestamp ∧ [j, i].Sublist c.transactionIds

theorem not_sublist_swap {α : Type} {xs : List α} {a b : α} (hxs : xs.Nodup)
    (h : [a, b].Sublist xs) : ¬[b, a].Sublist xs := by
  induction xs with
  | nil => cases h
  | cons x xs ih =>
    obtain ⟨hx, hxs⟩ := List.nodup_cons.1 hxs
    intro h'
    cases h with
    | cons _ h =>
      cases h' with
      | cons _ h' => exact ih hxs h h'
      | cons_cons _ h' => exact hx (h.subset (by simp))
    | cons_cons _ h =>
      cases h' with
      | cons _ h' => exact hx (h'.subset (by simp))
      | cons_cons _ h' => exact hx (h.subset (by simp))

theorem membersOf_turnOrder (hkeyed : Keyed m) (hc : c.transactionIds.Nodup) :
    m.TurnOrder c ((m.membersOf c).map (·.id)) := by
  let before : Transaction → Transaction → Bool := fun t u => !u.timestamp.lt t.timestamp
  obtain ⟨ts, hts⟩ : ∃ ts, ts = c.transactionIds.filterMap m.transaction? := ⟨_, rfl⟩
  have hids : ts.map (·.id) = c.transactionIds.filter fun id => (m.transaction? id).isSome :=
    hts ▸ ids_of_named hkeyed c.transactionIds
  have hkept : ∀ t ∈ ts, m.transaction? t.id = some t := fun t ht => by
    obtain ⟨id, -, hid⟩ := List.mem_filterMap.1 (hts ▸ ht)
    rw [hkeyed id t hid, hid]
  have hperm : (ts.mergeSort before).Perm ts := List.mergeSort_perm ts before
  have hnodup : (ts.mergeSort before).Nodup :=
    hperm.nodup_iff.2 (List.Nodup.of_map _ (hids ▸ hc.filter _))
  have hsorted : (ts.mergeSort before).Pairwise fun t u => before t u = true :=
    @List.pairwise_mergeSort Transaction before (fun _ _ _ => Instant.not_lt_trans)
      (fun t u => Instant.not_lt_total t.timestamp u.timestamp) _
  have hnamed : (ts.mergeSort before).Pairwise fun t u => [t, u].Sublist ts ∨ [u, t].Sublist ts :=
    (hperm.pairwise_iff fun h => h.symm).2 (List.pairwise_iff_forall_sublist.2 .inl)
  rw [membersOf, ← hts]
  refine ⟨hids ▸ ((List.reverse_perm _).trans hperm).map _, ?_⟩
  rw [List.pairwise_map, List.pairwise_reverse]
  refine List.pairwise_iff_forall_sublist.2 fun {u t} hpair t' u' ht' hu' => ?_
  have hmem : ∀ v ∈ [u, t], m.transaction? v.id = some v := fun v hv =>
    hkept v (hperm.subset (hpair.subset hv))
  obtain rfl := Option.some.inj (ht'.symm.trans (hmem t (by simp)))
  obtain rfl := Option.some.inj (hu'.symm.trans (hmem u (by simp)))
  refine (Instant.not_lt_iff.1 (List.pairwise_iff_forall_sublist.1 hsorted hpair)).imp_right
    fun htime => ⟨htime.symm, ?_⟩
  -- sorting is stable: the later of two with equal times was named later
  have hsub : [u', t'].Sublist ts := by
    refine (List.pairwise_iff_forall_sublist.1 hnamed hpair).resolve_right fun hswap => ?_
    refine not_sublist_swap hnodup hpair (List.pair_sublist_mergeSort
      (fun _ _ _ => Instant.not_lt_trans)
      (fun t u => Instant.not_lt_total t.timestamp u.timestamp) ?_ hswap)
    exact Instant.not_lt_iff.2 (.inr htime.symm)
  have hnames : [u'.id, t'.id].Sublist (ts.map (·.id)) := hsub.map _
  exact (hids ▸ hnames).trans List.filter_sublist

/-! ### Where it stops -/

/-- Rollbacks one after the other, whatever comes of them. -/
def rollbackEach (m : Manager) (now : Instant) (options : Options) :
    List String → Script (List Result × Manager)
  | [] => return ([], m)
  | id :: ids => do
    let (r, m) ← m.rollback now options id
    let (rs, m) ← m.rollbackEach now options ids
    return (r :: rs, m)

/-- How many are done, with what results: all of them, or else, without force, up to the first that
is no success. -/
structure Stops (options : Options) (ids done : List String) (rs : List Result) : Prop where
  front : done <+: ids
  about : rs.map (·.transactionId) = done
  earlier : options.force = false → ∀ r ∈ rs.dropLast, r.success = true
  last : done ≠ ids → options.force = false ∧ ∃ r ∈ rs.getLast?, r.success = false

theorem Stops.cons {done : List String} {rs : List Result} {r : Result}
    (h : Stops options ids done rs) (hgo : options.force = false → r.success = true) :
    Stops options (r.transactionId :: ids) (r.transactionId :: done) (r :: rs) where
  front := (List.prefix_cons_inj _).2 h.front
  about := by rw [List.map_cons, h.about]
  earlier hforce r' hr' := by
    cases rs with
    | nil => cases hr'
    | cons _ _ =>
      rcases List.mem_cons.1 hr' with rfl | hr'
      · exact hgo hforce
      · exact h.earlier hforce r' hr'
  last hne := by
    obtain ⟨hforce, r', hr', hfailed⟩ := h.last fun heq => hne (by rw [heq])
    refine ⟨hforce, r', ?_, hfailed⟩
    rw [Option.mem_def] at hr' ⊢
    rw [List.getLast?_cons, hr', Option.getD_some]

theorem Stops.failed {r : Result} (hforce : options.force = false) (hfailed : r.success = false) :
    Stops options (r.transactionId :: ids) [r.transactionId] [r] where
  front := (List.prefix_cons_inj _).2 List.nil_prefix
  about := rfl
  earlier _ _ hr := nomatch hr
  last _ := ⟨hforce, r, rfl, hfailed⟩

theorem rollback_id (hkeyed : Keyed m) (now : Instant) (options : Options) (id : String)
    (fs : FileSystem) : ((m.rollback now options id).run fs).1.1.transactionId = id := by
  cases ht : m.transaction? id with
  | none => rw [rollback_none ht]; rfl
  | some t =>
    obtain rfl := hkeyed id t ht
    have hready : Ready (m.announcing t) ((m.execute options t).run fs).1 := execute_ready ht
    rw [rollback_some ht, run_bind]
    exact (finalize_rolled hready).1.trans execute_id

theorem rollbackEach_cons (m : Manager) (now : Instant) (options : Options) (id : String)
    (ids : List String) (fs : FileSystem) :
    let out := (m.rollback now options id).run fs
    let rest := out.1.2.rollbackEach now options ids
    (m.rollbackEach now options (id :: ids)).run fs =
        ((out.1.1 :: (rest.run out.2).1.1, (rest.run out.2).1.2), (rest.run out.2).2) ∧
      (m.rollbackEach now options (id :: ids)).calls fs =
        (m.rollback now options id).calls fs ++ rest.calls out.2 := by
  simp only [rollbackEach, run_bind, calls_bind]
  exact ⟨rfl, congrArg _ (List.append_nil _)⟩

/-- Going up to the first failure is rolling back that many, with the same calls. -/
theorem rollbackInTurn_stops (hkeyed : Keyed m) (now : Instant) (options : Options)
    (ts : List Transaction) (fs : FileSystem) :
    ∃ done, Stops options (ts.map (·.id)) done ((m.rollbackEach now options done).run fs).1.1 ∧
      (m.rollbackInTurn now options ts).run fs = (m.rollbackEach now options done).run fs ∧
      (m.rollbackInTurn now options ts).calls fs = (m.rollbackEach now options done).calls fs := by
  induction ts generalizing m fs with
  | nil => exact ⟨[], ⟨List.prefix_rfl, rfl, fun _ _ => nofun, absurd rfl⟩, rfl, rfl⟩
  | cons t ts ih =>
    have hid := rollback_id hkeyed now options t.id fs
    have hrolled : Rolled m options.dryRun [((m.rollback now options t.id).run fs).1.1]
        ((m.rollback now options t.id).run fs).1.2 := rollback_rolled (hkeyed t.id)
    have heach := fun ids => rollbackEach_cons m now options t.id ids fs
    rw [rollbackInTurn, run_bind, calls_bind, List.map_cons]
    generalize (m.rollback now options t.id).run fs = out at hid hrolled heach ⊢
    obtain ⟨⟨r, m₁⟩, fs₁⟩ := out
    dsimp only at hid hrolled heach ⊢
    by_cases hstop : (!r.success && !options.force) = true
    · obtain ⟨hfailed, hforce⟩ : r.success = false ∧ options.force = false := by simpa using hstop
      refine ⟨[t.id], ?_⟩
      rw [(heach []).1, (heach []).2, if_pos hstop, ← hid]
      exact ⟨Stops.failed hforce hfailed, rfl, rfl⟩
    · have hgo : options.force = false → r.success = true := fun hforce => by
        simpa [hforce] using hstop
      obtain ⟨done, hstops, hrun, hcalls⟩ := ih (hrolled.keyed hkeyed) fs₁
      refine ⟨t.id :: done, ?_⟩
      rw [(heach done).1, (heach done).2, if_neg hstop, run_bind, calls_bind, hrun, hcalls, ← hid]
      exact ⟨hstops.cons hgo, rfl, congrArg _ (List.append_nil _)⟩

/-! ### What stays -/

/-- A rollback of a transaction, with the manager and the tree that it finds. -/
structure Round where
  manager : Manager
  id : String
  tree : FileSystem

/-- The rollbacks of transactions one after the other. -/
def rounds (m : Manager) (now : Instant) (options : Options) : List String → FileSystem → List Round
  | [], _ => []
  | id :: ids, fs =>
    let out := (m.rollback now options id).run fs
    ⟨m, id, fs⟩ :: out.1.2.rounds now options ids out.2

/-- The places that an operation reaches where it is reverted. -/
def Round.Disturbs (options : Options) (x : Round) (l : Location) : Prop :=
  ∃ t, x.manager.transaction? x.id = some t ∧
    Rollback.Disturbs x.manager.backups x.manager.settings.verifyChecksums options t.reversed x.tree l

/-- The places of the document and of the backups, and what a link there leads to. -/
def Round.Records (now : Instant) (options : Options) (x : Round) (l : Location) : Prop :=
  ∃ t, x.manager.transaction? x.id = some t ∧
    ∃ y ∈ (x.manager.rollback now options x.id).calls x.tree,
      x.manager.Owns t y.2 l ∨ Files.Beyond y.2 (x.manager.store.transactionPath t.id) l

theorem round_spares (now : Instant) (options : Options) (hs : fs.Sound)
    (hroot : m.store.root.isAbsolute = true) (hkeyed : Keyed m)
    (hops : ∀ t, m.transaction? id = some t → ∀ op ∈ t.operations, op.IsRooted) :
    let x : Round := ⟨m, id, fs⟩
    Spares fs (fun l => x.Disturbs options l ∨ x.Records now options l)
      ((m.rollback now options id).run fs).2 := by
  intro x
  cases ht : m.transaction? id with
  | none => rw [rollback_none ht]; exact Spares.refl hs
  | some t =>
    obtain rfl := hkeyed id t ht
    have hexecute : Spares fs (Rollback.Disturbs m.backups m.settings.verifyChecksums options
        t.reversed fs) ((m.execute options t).run fs).2 := execute_spares hs (hops t ht)
    have hwithin : ((m.announcing t).finalize now options ((m.execute options t).run fs).1).Within
        _ _ := within_finalize hexecute.sound hroot (execute_owes m options t fs) ht
    have hfinalize := spares_calls
      (T := fun k l => m.Owns t k l ∨ Files.Beyond k (m.store.transactionPath t.id) l)
      hexecute.sound (hwithin.mono fun k l h => h.imp .inl fun h => h.imp_left .inr)
    rw [rollback_some ht, run_bind]
    refine (hexecute.mono fun l _ hl => .inl ⟨t, ht, hl⟩).trans (hfinalize.mono fun l _ hl => ?_)
    obtain ⟨y, hy, hl⟩ := hl
    refine .inr ⟨t, ht, y, ?_, hl⟩
    rw [rollback_some ht]
    exact (mem_calls_bind _ _ fs y).2 (.inr hy)

theorem rollbackEach_spares (now : Instant) (options : Options) (hs : fs.Sound)
    (hroot : m.store.root.isAbsolute = true) (hkeyed : Keyed m)
    (hops : ∀ j ∈ ids, ∀ t, m.transaction? j = some t → ∀ op ∈ t.operations, op.IsRooted) :
    Spares fs (fun l => ∃ x ∈ m.rounds now options ids fs,
      x.Disturbs options l ∨ x.Records now options l) ((m.rollbackEach now options ids).run fs).2 := by
  induction ids generalizing m fs with
  | nil => exact Spares.refl hs
  | cons id ids ih =>
    have hfirst := round_spares now options hs hroot hkeyed (hops id List.mem_cons_self)
    have hrolled : Rolled m options.dryRun [((m.rollback now options id).run fs).1.1]
        ((m.rollback now options id).run fs).1.2 := rollback_rolled (hkeyed id)
    rw [(rollbackEach_cons m now options id ids fs).1, rounds]
    generalize (m.rollback now options id).run fs = out at hfirst hrolled ⊢
    dsimp only
    have hrest := ih hfirst.sound (hrolled.store ▸ hroot) (hrolled.keyed hkeyed) fun j hj t' ht' => by
      obtain ⟨t, ht, hb⟩ := hrolled.earlier ht'
      rw [hb.record]
      exact hops j (List.mem_cons_of_mem _ hj) t ht
    refine (hfirst.mono fun l _ hl => ⟨_, List.mem_cons_self, hl⟩).trans (hrest.mono fun l _ hl => ?_)
    obtain ⟨x, hx, hl⟩ := hl
    exact ⟨x, List.mem_cons_of_mem _ hx, hl⟩

theorem rollback_others (hkeyed : Keyed m) (now : Instant) (options : Options) (fs : FileSystem)
    {j : String} (hj : j ≠ id) :
    ((m.rollback now options id).run fs).1.2.transaction? j = m.transaction? j := by
  cases ht : m.transaction? id with
  | none => rw [rollback_none ht]; rfl
  | some t =>
    rw [rollback_some ht, run_bind]
    exact (finalize_others (m := m.announcing t) (execute_id.trans (hkeyed id t ht)) ht).1 j hj

theorem rollbackEach_others (hkeyed : Keyed m) {j : String} (hj : j ∉ ids) :
    ((m.rollbackEach now options ids).run fs).1.2.transaction? j = m.transaction? j := by
  induction ids generalizing m fs with
  | nil => rfl
  | cons id ids ih =>
    obtain ⟨hne, hj⟩ := not_or.1 (mt List.mem_cons.2 hj)
    have hfirst := rollback_others hkeyed now options fs hne
    have hrolled : Rolled m options.dryRun [((m.rollback now options id).run fs).1.1]
        ((m.rollback now options id).run fs).1.2 := rollback_rolled (hkeyed id)
    rw [(rollbackEach_cons m now options id ids fs).1]
    exact (ih (hrolled.keyed hkeyed) hj).trans hfirst

/-! ### The files of the state -/

/-- Where the directories of the state are in place and no operation reaches a place in or above them,
a rollback changes in them what its transaction holds there. -/
theorem round_spares_files (now : Instant) {T : Location → Prop} {k : FileSystem}
    (hk : Keeps g m.store fs) (hp : PlainIds m) (hkeyed : Keyed m) (hroot : m.store.root.isAbsolute = true)
    (hops : ∀ t, m.transaction? id = some t → ∀ op ∈ t.operations, op.IsRooted)
    (hdoc : (fs.at (documentName id :: g.transactions)).isSome) (hways : ∀ l ∈ g.ways, ¬T l)
    (hoff : ¬T (documentName id :: g.transactions))
    (hreach : ∀ l, Round.Disturbs options ⟨m, id, k⟩ l → T l) (hstart : Spares fs T k) :
    Spares fs (fun l => T l ∨ ∃ t, m.transaction? id = some t ∧ g.Holds t l)
      ((m.rollback now options id).run k).2 := by
  cases ht : m.transaction? id with
  | none => rw [rollback_none ht]; exact hstart.mono fun l _ => .inl
  | some t =>
    obtain rfl := hkeyed id t ht
    have hexecute : Spares fs T ((m.execute options t).run k).2 :=
      hstart.trans ((execute_spares hstart.sound (hops t ht)).mono fun l _ hl => hreach l ⟨t, ht, hl⟩)
    have hfinalize : Spares fs (fun l => T l ∨ g.Holds t l) (((m.announcing t).finalize now options
        ((m.execute options t).run k).1).run ((m.execute options t).run k).2).2 :=
      hk.finalize_spares_also (m := m.announcing t) ⟨hp.transaction, hp.operation⟩ hroot ht
        (execute_owes m options t k) hdoc hways hoff hexecute
    rw [rollback_some ht, run_bind]
    exact hfinalize.mono fun l _ => Or.imp_right fun hl => ⟨t, rfl, hl⟩

theorem not_holds_document (hk : Keeps g m.store fs) {j : String} (hj : j ≠ t.id) :
    ¬g.Holds t (documentName j :: g.transactions) := by
  rintro (heq | ⟨op, -, -, heq⟩)
  · exact hj (documentName_inj (List.cons.inj heq).1)
  · exact hk.transactions_ne_backups (List.cons.inj heq).2

theorem not_holds_of_apart (hk : Keeps g m.store fs) {u : Transaction} (hid : u.id ≠ t.id)
    (hown : ∀ op ∈ t.operations, ∀ op' ∈ u.operations, op.id ≠ op'.id) (hu : g.Holds u l) :
    ¬g.Holds t l := by
  rcases hu with rfl | ⟨op', hop', -, rfl⟩
  · exact not_holds_document hk hid
  · rintro (heq | ⟨op, hop, -, heq⟩)
    · exact hk.transactions_ne_backups (List.cons.inj heq).2.symm
    · exact hown op hop op' hop' (backupName_inj (List.cons.inj heq).1).symm

theorem rollbackEach_spares_files {T : Location → Prop} {k : FileSystem} (hk : Keeps g m.store fs)
    (hp : PlainIds m) (hkeyed : Keyed m) (hroot : m.store.root.isAbsolute = true) (hids : ids.Nodup)
    (hops : ∀ j ∈ ids, ∀ t, m.transaction? j = some t → ∀ op ∈ t.operations, op.IsRooted)
    (hdocs : ∀ j ∈ ids, (fs.at (documentName j :: g.transactions)).isSome)
    (hways : ∀ l ∈ g.ways, ¬T l) (hoff : ∀ j ∈ ids, ¬T (documentName j :: g.transactions))
    (hreach : ∀ x ∈ m.rounds now options ids k, ∀ l, x.Disturbs options l → T l)
    (hstart : Spares fs T k) :
    Spares fs (fun l => T l ∨ ∃ j ∈ ids, ∃ t, m.transaction? j = some t ∧ g.Holds t l)
      ((m.rollbackEach now options ids).run k).2 := by
  induction ids generalizing m k T with
  | nil => exact hstart.mono fun l _ => .inl
  | cons id ids ih =>
    obtain ⟨hid, hids⟩ := List.nodup_cons.1 hids
    have hfirst := round_spares_files now hk hp hkeyed hroot (hops id List.mem_cons_self)
      (hdocs id List.mem_cons_self) hways (hoff id List.mem_cons_self)
      (hreach _ List.mem_cons_self) hstart
    have hrolled : Rolled m options.dryRun [((m.rollback now options id).run k).1.1]
        ((m.rollback now options id).run k).1.2 := rollback_rolled (hkeyed id)
    have hothers : ∀ j ∈ ids, ((m.rollback now options id).run k).1.2.transaction? j =
        m.transaction? j := fun j hj => rollback_others hkeyed now options k fun heq => hid (heq ▸ hj)
    have hlater : ∀ x ∈ Manager.rounds _ now options ids _, _ := fun x hx =>
      hreach x (List.mem_cons_of_mem _ hx)
    rw [(rollbackEach_cons m now options id ids k).1]
    generalize (m.rollback now options id).run k = out at hfirst hrolled hothers hlater ⊢
    have hrest := ih (T := fun l => T l ∨ ∃ t, m.transaction? id = some t ∧ g.Holds t l)
      (hrolled.store ▸ hk) (hrolled.plainIds hp) (hrolled.keyed hkeyed) (hrolled.store ▸ hroot) hids
      (fun j hj t ht => hops j (List.mem_cons_of_mem _ hj) t (hothers j hj ▸ ht))
      (fun j hj => hdocs j (List.mem_cons_of_mem _ hj)) ?_ ?_ (fun x hx l hl => .inl (hlater x hx l hl))
      hfirst
    · refine hrest.mono fun l _ hl => ?_
      rcases hl with (hl | ⟨t, ht, hl⟩) | ⟨j, hj, t, ht, hl⟩
      · exact .inl hl
      · exact .inr ⟨id, List.mem_cons_self, t, ht, hl⟩
      · exact .inr ⟨j, List.mem_cons_of_mem _ hj, t, hothers j hj ▸ ht, hl⟩
    · rintro l hl (h | ⟨t, -, h⟩)
      · exact hways l hl h
      · exact hk.open_ways l hl h.within
    · rintro j hj (h | ⟨t, ht, h⟩)
      · exact hoff j (List.mem_cons_of_mem _ hj) h
      · exact not_holds_document hk (fun heq => hid (by rwa [← hkeyed id t ht, ← heq])) h

theorem rollbackCheckpoint_inTurn (hc : m.checkpoint? id = some c) (hturns : atOnce options = false)
    (now : Instant) (fs : FileSystem) :
    (m.rollbackCheckpoint now options id).run fs =
        (let out := (m.rollbackInTurn now options (m.membersOf c)).run fs
        ((.ok out.1.1, out.1.2), out.2)) ∧
      (m.rollbackCheckpoint now options id).calls fs =
        (m.rollbackInTurn now options (m.membersOf c)).calls fs := by
  rw [rollbackCheckpoint_some hc, rollbackMembers, if_neg (by simp [hturns]), run_bind, calls_bind]
  exact ⟨rfl, List.append_nil _⟩

end Manager

open Manager (Keyed PlainIds TurnOrder Stops)

variable {m : Manager} {c : Checkpoint} {options : Options} {id : String} {t : Transaction}
  {l : Location}

/-- A checkpoint, which names no transaction twice, is rolled back one transaction after the other:
those that are kept, newest first, up to the first failure unless forced, each as by itself, with no
call but those. Of all that stands only that changes which an operation reaches where it is reverted,
or where the document or a backup of what is rolled back is found. Where the directories of the state
are in place and no operation reaches a place in or above them, any other transaction keeps its
document, and its backups if it shares none. -/
theorem checkpoint_rolled_back_in_turn (hc : m.checkpoint? id = some c)
    (hnodup : c.transactionIds.Nodup) (hkeyed : Keyed m) (hturns : Manager.atOnce options = false)
    (now : Instant) (fs : FileSystem) :
    ∃ ids done, TurnOrder m c ids ∧
      Stops options ids done ((m.rollbackEach now options done).run fs).1.1 ∧
      (∀ r ∈ ((m.rollbackEach now options done).run fs).1.1,
        (m.transaction? r.transactionId).isSome) ∧
      (m.rollbackCheckpoint now options id).run fs =
        (let out := (m.rollbackEach now options done).run fs
        ((.ok out.1.1, out.1.2), out.2)) ∧
      (m.rollbackCheckpoint now options id).calls fs = (m.rollbackEach now options done).calls fs ∧
      (∀ j, j ∉ done →
        ((m.rollbackEach now options done).run fs).1.2.transaction? j = m.transaction? j) ∧
      (fs.Sound → m.store.root.isAbsolute = true →
        (∀ j ∈ done, ∀ t, m.transaction? j = some t → ∀ op ∈ t.operations, op.IsRooted) →
        Spares fs (fun l => ∃ x ∈ m.rounds now options done fs,
          x.Disturbs options l ∨ x.Records now options l) ((m.rollbackEach now options done).run fs).2 ∧
        ∀ g, Keeps g m.store fs → PlainIds m →
          (∀ j ∈ done, (fs.at (documentName j :: g.transactions)).isSome) →
          (∀ x ∈ m.rounds now options done fs, ∀ l, x.Disturbs options l → g.Apart l) →
          ∀ u, u.id ∉ done →
            (∀ j ∈ done, ∀ t, m.transaction? j = some t → ∀ op ∈ t.operations,
              ∀ op' ∈ u.operations, op.id ≠ op'.id) →
            ∀ l e, g.Holds u l → fs.at l = some e →
              ((m.rollbackEach now options done).run fs).2.at l = some e) := by
  have horder := Manager.membersOf_turnOrder hkeyed hnodup
  obtain ⟨done, hstops, hrun, hcalls⟩ :=
    Manager.rollbackInTurn_stops hkeyed now options (m.membersOf c) fs
  obtain ⟨hrun', hcalls'⟩ := Manager.rollbackCheckpoint_inTurn hc hturns now fs
  have hdone : done.Nodup := hstops.front.sublist.nodup (horder.kept.nodup_iff.2 (hnodup.filter _))
  have hknown : ∀ r ∈ ((m.rollbackEach now options done).run fs).1.1,
      (m.transaction? r.transactionId).isSome := fun r hr => by
    have hmem : r.transactionId ∈ done := hstops.about ▸ List.mem_map_of_mem hr
    exact (List.mem_filter.1 (horder.kept.subset (hstops.front.subset hmem))).2
  refine ⟨_, done, horder, hstops, hknown, by rw [hrun', hrun], hcalls'.trans hcalls,
    fun j hj => Manager.rollbackEach_others hkeyed hj, fun hs hroot hops => ⟨?_, ?_⟩⟩
  · exact Manager.rollbackEach_spares now options hs hroot hkeyed hops
  · intro g hk hp hdocs hapart u hu hown l e hl he
    have hwithin : ∀ l, g.Within l → ¬g.Apart l := fun l hl h =>
      h.not_within (List.suffix_refl l) hl
    have hspares := Manager.rollbackEach_spares_files (T := g.Apart) hk hp hkeyed hroot hdone hops
      hdocs (fun l hl h => h.not_suffix_way hl (List.suffix_refl l))
      (fun j _ => hwithin _ (g.within_cons (by simp [Grounds.folders]) _)) hapart (Spares.refl hs)
    refine hspares.at_eq l e he ?_
    rintro (h | ⟨j, hj, t, ht, h⟩)
    · exact hwithin l hl.within h
    · exact Manager.not_holds_of_apart hk (fun heq => hu (by rw [heq, hkeyed j t ht]; exact hj))
        (hown j hj t ht) hl h

namespace Sample

def createdDirectory : Operation := { created with id := "d", path := .ofString "/p/d" }

def updated (path : String) : Operation :=
  { created with
    id := "v", kind := .update, path := .ofString path, previousContent := some "x" }

def finished (id : String) (ops : List Operation) : Transaction :=
  ⟨id, "", "", "", ops, ⟨0, 0⟩, .completed, none, []⟩

def stuck : Transaction := finished "t" [createdDirectory, created]

def waiting : Transaction := finished "u" [updated "/p/d/f"]

def halting : Manager :=
  { manager with
    history := .ofValues Transaction.id [stuck, waiting]
    checkpoints := [("c", .create "c" ⟨1, 0⟩ "" "" ["u", "t"] [])] }

theorem halting_kept (h : halting.transaction? id = some t) : (t = stuck ∨ t = waiting) ∧ t.id = id := by
  obtain ⟨hmem, hid⟩ := Index.mem_of_get?_ofValues h
  exact ⟨by simpa using hmem, hid⟩

theorem halting_plainIds : PlainIds halting := by
  refine ⟨fun id t ht => ?_, fun id t ht => ?_⟩
  · rw [← (halting_kept ht).2]
    rcases (halting_kept ht).1 with rfl | rfl <;> decide +kernel
  · rcases (halting_kept ht).1 with rfl | rfl <;> decide +kernel

theorem membersOf_even {ts : List Transaction}
    (hts : c.transactionIds.filterMap m.transaction? = ts.reverse)
    (heven : ts.reverse.Pairwise fun t u => (!u.timestamp.lt t.timestamp) = true) :
    m.membersOf c = ts := by
  rw [Manager.membersOf, hts, List.mergeSort_of_pairwise heven, List.reverse_reverse]

def inner : Location := [Utf8.encode "f", Utf8.encode "d", Utf8.encode "p"]

theorem halting_disturbs {x : Manager.Round} (hx : x ∈ halting.rounds ⟨2, 0⟩ {} ["t"] filed)
    (hl : x.Disturbs {} l) : filedGrounds.Apart l ∧ l ≠ inner := by
  have hreached : ∀ x ∈ Rollback.reached halting.backups true {} stuck.reversed filed,
      x.1.kind = .create ∧ ∀ y ∈ (Rollback.revert halting.backups true false x.1).calls x.2,
        ∀ l ∈ y.2.spot? x.1.path, filedGrounds.Apart l ∧ l ≠ inner := by decide +kernel
  rw [Manager.rounds, Manager.rounds, List.mem_singleton] at hx
  subst hx
  obtain ⟨t, ht, x, hx, y, hy, hl⟩ := hl
  obtain rfl := Option.some.inj ht
  obtain ⟨hkind, hspot⟩ := hreached x hx
  simp only [Operation.Reaches, hkind] at hl
  exact hspot y hy l hl

theorem halting_records {x : Manager.Round} (hx : x ∈ halting.rounds ⟨2, 0⟩ {} ["t"] filed) :
    ¬x.Records ⟨2, 0⟩ {} inner := by
  have hcalls : ∀ y ∈ (halting.rollback ⟨2, 0⟩ {} "t").calls filed, ¬halting.Owns stuck y.2 inner ∧
      (y.2.linkStatus (halting.store.transactionPath "t")).toOption ≠ some .link := by
    decide +kernel
  rw [Manager.rounds, Manager.rounds, List.mem_singleton] at hx
  subst hx
  rintro ⟨t, ht, y, hy, h⟩
  obtain rfl := Option.some.inj ht
  rcases h with h | h
  · exact (hcalls y hy).1 h
  · exact (hcalls y hy).2 (congrArg Except.toOption h.1)

def crossingMembers : List Transaction :=
  [finished "t" [updated "/p/f"],
    finished "u" [createdDirectory,
      { created with id := "w", path := .ofString "/p/.xaheen/transactions/w.json" }],
    finished "w" [updated "/p/d/f"]]

def crossing : Manager :=
  { manager with
    history := .ofValues Transaction.id crossingMembers
    checkpoints := [("c", .create "c" ⟨1, 0⟩ "" "" ["w", "u", "t"] [])] }

def crossed : FileSystem :=
  { filed with
    entries := filed.entries ++
      [(documentName "w" :: filedGrounds.transactions, .file 0o600 [4])] }

end Sample

theorem checkpoint_rolled_back_in_turn_to_the_first :
    ∃ r m' fs', (Sample.halting.rollbackCheckpoint ⟨2, 0⟩ {} "c").run Sample.filed =
        ((.ok [r], m'), fs') ∧
      r.transactionId = "t" ∧ r.success = false ∧ r.rolledBackOperations = 1 ∧
      m'.transaction? "u" = some Sample.waiting ∧
      fs'.at [Utf8.encode "f", Utf8.encode "p"] = none ∧
      fs'.at Sample.inner = some (.file 0o644 [120]) ∧
      fs'.at (documentName "u" :: Sample.filedGrounds.transactions) = some (.file 0o600 [2]) ∧
      fs'.at (backupName "v" :: Sample.filedGrounds.backups) = some (.file 0o600 [3]) := by
  have hc : Sample.halting.checkpoint? "c" = some (.create "c" ⟨1, 0⟩ "" "" ["u", "t"] []) := rfl
  have hturns : Manager.atOnce ({} : Options) = false := rfl
  have hmembers : Sample.halting.membersOf (.create "c" ⟨1, 0⟩ "" "" ["u", "t"] []) =
      [Sample.stuck, Sample.waiting] := Sample.membersOf_even rfl (by decide +kernel)
  obtain ⟨ids, done, -, hstops, -, hrun, -, hothers, hstay⟩ := checkpoint_rolled_back_in_turn hc
    (Checkpoint.nodup_firsts _ _) (fun _ _ ht => (Sample.halting_kept ht).2) hturns ⟨2, 0⟩ Sample.filed
  have hdone : done = ["t"] := by
    have hrun' := (Manager.rollbackCheckpoint_inTurn hc hturns ⟨2, 0⟩ Sample.filed).1
    rw [hmembers] at hrun'
    have hresults := Except.ok.inj (congrArg (·.1.1) (hrun.symm.trans hrun'))
    rw [← hstops.about, hresults]
    decide +kernel
  subst hdone
  have hkept : ∀ {j t}, j ∈ ["t"] → Sample.halting.transaction? j = some t → t = Sample.stuck := by
    intro j t hj ht
    rw [List.mem_singleton.1 hj] at ht
    exact (Option.some.inj ht).symm
  obtain ⟨hspares, hfiles⟩ := hstay Sample.filed_keeps.sound (by decide +kernel) fun j hj t ht => by
    obtain rfl := hkept hj ht
    simp only [Sample.stuck, Sample.finished, List.mem_cons, List.not_mem_nil, or_false]
    rintro op (rfl | rfl) <;> exact ⟨by decide +kernel, nofun⟩
  have hinner := hspares.at_eq Sample.inner (.file 0o644 [120]) (by decide +kernel) <| by
    rintro ⟨x, hx, h | h⟩
    · exact (Sample.halting_disturbs hx h).2 rfl
    · exact Sample.halting_records hx h
  have hheld := hfiles Sample.filedGrounds Sample.filed_keeps Sample.halting_plainIds
    (by decide +kernel) (fun x hx l hl => (Sample.halting_disturbs hx hl).1) Sample.waiting (by decide)
    fun j hj t ht => by obtain rfl := hkept hj ht; decide +kernel
  have hdocument := hheld _ (.file 0o600 [2]) (.inl rfl) (by decide +kernel)
  have hbackup := hheld _ (.file 0o600 [3])
    (.inr ⟨Sample.updated "/p/d/f", List.mem_singleton_self _, by decide +kernel, rfl⟩)
    (by decide +kernel)
  have hresults : ((Sample.halting.rollbackEach ⟨2, 0⟩ {} ["t"]).run Sample.filed).1.1.map
      (fun r => (r.transactionId, r.success, r.rolledBackOperations)) = [("t", false, 1)] := by
    decide +kernel
  have hgone : ((Sample.halting.rollbackEach ⟨2, 0⟩ {} ["t"]).run Sample.filed).2.at
      [Utf8.encode "f", Utf8.encode "p"] = none := by decide +kernel
  have hother := hothers "u" (by decide)
  generalize (Sample.halting.rollbackEach ⟨2, 0⟩ {} ["t"]).run Sample.filed = out at *
  obtain ⟨⟨rs, m'⟩, fs'⟩ := out
  obtain ⟨r, rfl, hr⟩ := List.map_eq_singleton_iff.1 hresults
  obtain ⟨hid, hsuccess, hcount⟩ : r.transactionId = "t" ∧ r.success = false ∧
    r.rolledBackOperations = 1 := by simpa using hr
  exact ⟨r, m', fs', hrun, hid, hsuccess, hcount, hother, hgone, hinner, hdocument, hbackup⟩

/-- The last of three transactions is not rolled back, and keeps neither its document nor its backup. -/
theorem checkpoint_rollback_takes_files_of_another :
    ∃ r r' m' fs', (Sample.crossing.rollbackCheckpoint ⟨2, 0⟩ {} "c").run Sample.crossed =
        ((.ok [r, r'], m'), fs') ∧
      r.transactionId = "t" ∧ r.success = true ∧ r'.transactionId = "u" ∧ r'.success = false ∧
      (m'.transaction? "w").map (·.status) = some .completed ∧
      Sample.crossed.at (documentName "w" :: Sample.filedGrounds.transactions) =
        some (.file 0o600 [4]) ∧
      fs'.at (documentName "w" :: Sample.filedGrounds.transactions) = none ∧
      Sample.crossed.at (backupName "v" :: Sample.filedGrounds.backups) = some (.file 0o600 [3]) ∧
      fs'.at (backupName "v" :: Sample.filedGrounds.backups) = none := by
  have hc : Sample.crossing.checkpoint? "c" =
      some (.create "c" ⟨1, 0⟩ "" "" ["w", "u", "t"] []) := rfl
  have hmembers : Sample.crossing.membersOf (.create "c" ⟨1, 0⟩ "" "" ["w", "u", "t"] []) =
      Sample.crossingMembers := Sample.membersOf_even rfl (by decide +kernel)
  have hturns : Manager.atOnce ({} : Options) = false := rfl
  have hrun := (Manager.rollbackCheckpoint_inTurn hc hturns ⟨2, 0⟩ Sample.crossed).1
  rw [hmembers] at hrun
  have hresults : ((Sample.crossing.rollbackInTurn ⟨2, 0⟩ {} Sample.crossingMembers).run
      Sample.crossed).1.1.map (fun r => (r.transactionId, r.success)) =
      [("t", true), ("u", false)] := by decide +kernel
  have hkept : (((Sample.crossing.rollbackInTurn ⟨2, 0⟩ {} Sample.crossingMembers).run
      Sample.crossed).1.2.transaction? "w").map (·.status) = some .completed := by decide +kernel
  have hdocument : ((Sample.crossing.rollbackInTurn ⟨2, 0⟩ {} Sample.crossingMembers).run
      Sample.crossed).2.at (documentName "w" :: Sample.filedGrounds.transactions) = none := by
    decide +kernel
  have hbackup : ((Sample.crossing.rollbackInTurn ⟨2, 0⟩ {} Sample.crossingMembers).run
      Sample.crossed).2.at (backupName "v" :: Sample.filedGrounds.backups) = none := by
    decide +kernel
  generalize (Sample.crossing.rollbackInTurn ⟨2, 0⟩ {} Sample.crossingMembers).run
    Sample.crossed = out at *
  obtain ⟨⟨rs, m'⟩, fs'⟩ := out
  obtain ⟨r, rs, rfl, hr, hrs⟩ := List.map_eq_cons_iff.1 hresults
  obtain ⟨r', rfl, hr'⟩ := List.map_eq_singleton_iff.1 hrs
  obtain ⟨hid, hsuccess⟩ : r.transactionId = "t" ∧ r.success = true := by simpa using hr
  obtain ⟨hid', hsuccess'⟩ : r'.transactionId = "u" ∧ r'.success = false := by simpa using hr'
  exact ⟨r, r', m', fs', hrun, hid, hsuccess, hid', hsuccess', hkept, by decide +kernel, hdocument,
    by decide +kernel, hbackup⟩

end Retrace
