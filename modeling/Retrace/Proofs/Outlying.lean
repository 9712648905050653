import Retrace.Proofs.Arrivals
import Retrace.Proofs.LifeCycle
import Retrace.Proofs.Preview
import Retrace.Proofs.Removal

/-!
Operations on paths outside the store. To revert one of them leaves the files of the store alone, at
every stage, and so does all that a rollback does before it is recorded (`execute_unmoved`). A rollback
that undid everything has used every backup there was (`execute_consumed`).
-/
namespace Retrace

open FileSystem Script
open Rollback (Options Result Pending Outcome Attempt)

variable {g : Grounds} {s : Store} {fs fs' fs'' : FileSystem} {op : Operation} {ops : List Operation}
  {verify force : Bool} {options : Options} {o : Outcome} {b : Backups}
  {C : Call → FileSystem → Prop} {P : FileSystem → Prop}

/-- The directories of a store are in place, and the files in them are as they were. -/
structure Spared (g : Grounds) (s : Store) (fs fs' : FileSystem) : Prop where
  keeps : Keeps g s fs'
  at_eq : ∀ k, g.Within k → fs'.at k = fs.at k

theorem Spared.refl (hk : Keeps g s fs) : Spared g s fs fs := ⟨hk, fun _ _ => rfl⟩

theorem Spared.trans (h : Spared g s fs fs') (h' : Spared g s fs' fs'') : Spared g s fs fs'' :=
  ⟨h'.keeps, fun k hk => (h'.at_eq k hk).trans (h.at_eq k hk)⟩

theorem Undisturbed.spared (h : Undisturbed g fs fs') (hk : Keeps g s fs) : Spared g s fs fs' :=
  ⟨h.keeps hk, fun k hk => h.at_eq k (.inl hk)⟩

/-- The directories of a store are in place, and neither they nor the files in them have changed. -/
structure Untouched (g : Grounds) (s : Store) (fs fs' : FileSystem) : Prop extends
    Spared g s fs fs' where
  folders : ∀ d ∈ g.folders, fs'.at d = fs.at d

theorem FileSystem.Leads.occupied (h : Leads fs f d) (hs : fs.Sound) :
    ∀ k ∈ fs.way f, ∃ e, fs.at k = some e ∧ e.kind ≠ .file := by
  intro k hk
  obtain ⟨m, b, hwalk⟩ := h.walk
  obtain ⟨e, he, hfile⟩ := (walks_of_walk hwalk).occupied hs rfl ⟨_, at_nil fs⟩ rfl k hk
  exact ⟨e, he, fun hkind => by rw [hfile hkind] at hkind; cases hkind⟩

theorem Stands.occupied (hk : Stands g s fs) :
    ∀ k ∈ g.folders ++ g.ways, ∃ e, fs.at k = some e ∧ e.kind ≠ .file := by
  intro k hmem
  rcases List.mem_append.1 hmem with hd | hw
  · obtain ⟨m, hm⟩ := hk.directory hd
    exact ⟨_, hm, nofun⟩
  · rw [← hk.ways] at hw
    rcases List.mem_append.1 hw with hw | hw
    · rcases List.mem_append.1 hw with hw | hw
      · exact hk.transactions.occupied hk.sound k hw
      · exact hk.backups.occupied hk.sound k hw
    · exact hk.checkpoints.occupied hk.sound k hw

/-! ### Calls outside the store -/

structure Unmoved (g : Grounds) (s : Store) (fs fs' : FileSystem) : Prop where
  stands : Stands g s fs'
  at_eq : ∀ k, g.Within k → fs'.at k = fs.at k
  folders : ∀ d ∈ g.folders, fs'.at d = fs.at d

namespace Unmoved

theorem refl (hk : Stands g s fs) : Unmoved g s fs fs := ⟨hk, fun _ _ => rfl, fun _ _ => rfl⟩

theorem trans (h : Unmoved g s fs fs') (h' : Unmoved g s fs' fs'') : Unmoved g s fs fs'' :=
  ⟨h'.stands, fun k hk => (h'.at_eq k hk).trans (h.at_eq k hk),
    fun d hd => (h'.folders d hd).trans (h.folders d hd)⟩

/-- A call that hits nothing but what is apart from the store, and brings nothing into it. -/
theorem perform {c : Call} (hk : Stands g s fs) (h : Unmoved g s fs fs') (hc : c.IsRooted)
    (hhits : ∀ l, c.Hits fs' l → g.Apart l ∨ fs.at l = none)
    (hbrings : ∀ l, c.Brings fs' l → ¬g.Within l) : Unmoved g s fs (c.perform fs').2 := by
  have hspares := Call.perform_spares h.stands.sound hc
  have hsame : ∀ l e e', fs.at l = some e → ¬g.Apart l → fs'.at l = some e' →
      (c.perform fs').2.at l = some e' := fun l e e' he hnot he' =>
    hspares.at_eq l e' he' fun hhit => (hhits l hhit).elim hnot fun hnone => by rw [he] at hnone; cases hnone
  refine ⟨h.stands.congr hspares.sound fun l hl => ?_, fun l hl => ?_, fun d hd => ?_⟩
  · obtain ⟨e, he, -⟩ := hk.occupied l (List.mem_append_right _ hl)
    obtain ⟨e', he', -⟩ := h.stands.occupied l (List.mem_append_right _ hl)
    rw [he']
    exact hsame l e e' he (fun hc => hc.not_suffix_way hl (List.suffix_refl l)) he'
  · have hl' := h.at_eq l hl
    cases he : fs.at l with
    | some e =>
      exact hsame l e e he (fun hc => hc.not_within (List.suffix_refl l) hl) (hl'.trans he)
    | none =>
      by_contra hsome
      exact hbrings l (Call.perform_brings h.stands.sound hc (hl'.trans he)
        (Option.isSome_iff_ne_none.2 hsome)) hl
  · obtain ⟨m, hm⟩ := hk.directory hd
    rw [hm]
    exact hsame d _ _ hm (fun hc => hc.2 d hd (List.suffix_refl d)) ((h.folders d hd).trans hm)

theorem stages {α : Type} {x : Script α} (hk : Stands g s fs) (h : Unmoved g s fs fs')
    (hw : x.Within (fun _ l => g.Apart l ∨ fs.at l = none) fs') (hp : x.Puts (fun _ l => ¬g.Within l) fs') :
    ∀ k ∈ x.stages fs', Unmoved g s fs k := by
  induction x generalizing fs' with
  | done a =>
    intro k hmem
    rw [List.mem_singleton.1 hmem]
    exact h
  | call c next ih =>
    intro k hmem
    rcases List.mem_cons.1 hmem with rfl | hmem
    · exact h
    · obtain ⟨hc, hhits⟩ := hw (c, fs') List.mem_cons_self
      exact ih _ (h.perform hk hc hhits (hp (c, fs') List.mem_cons_self))
        (fun y hy => hw y (List.mem_cons_of_mem _ hy)) (fun y hy => hp y (List.mem_cons_of_mem _ hy)) k hmem

theorem untouched (h : Unmoved g s fs fs') (hk : Keeps g s fs) : Untouched g s fs fs' where
  keeps :=
    { toStands := h.stands, open_ways := hk.open_ways, distinct := hk.distinct
      files := fun d hd w e he => hk.files d hd w e ((h.at_eq _ (Grounds.within_cons hd w)).symm.trans he) }
  at_eq := h.at_eq
  folders := h.folders

end Unmoved

/-! ### Paths outside the store -/

/-- The paths of an operation lead to places apart from the directories of a store, and all that is
above the path at which something is put back lies outside them. -/
structure Operation.Outlying (g : Grounds) (k : FileSystem) (op : Operation) : Prop where
  rooted : op.IsRooted
  ends : ∀ l, op.Reaches k l → g.Apart l
  inner : ∀ p ∈ op.restored?, p.parent?.isSome
  above : ∀ p ∈ op.restored?, ∀ f, f.Above p → ∀ l, k.spot? f = some l ∨ k.goal? f = some l → g.Outside l

section Decidable

variable {f p : Path} {k : FileSystem} {l : Location}

def Operation.targets (op : Operation) (k : FileSystem) : List Location :=
  match op.kind with
  | .create | .copy | .symlink | .directoryCreate => (k.spot? op.path).toList
  | .update | .delete => (k.spot? op.path).toList ++ (k.realLocation op.path).toOption.toList
  | .chmod => (k.goal? op.path).toList
  | .move => (k.spot? op.path).toList ++
      op.previousPath.toList.flatMap fun q => (k.spot? q).toList ++ (k.goal? q).toList
  | .envVariable | .packageInstall => []

theorem Operation.targets_spec (op : Operation) (k : FileSystem) :
    (∀ j ∈ op.targets k, op.Reaches k j) ∧ ∀ l, op.Reaches k l → ∃ j ∈ op.targets k, j <:+ l := by
  have hok : ∀ l, (k.realLocation op.path).toOption = some l ↔ k.realLocation op.path = .ok l := fun l => by
    cases k.realLocation op.path <;> simp [Except.toOption]
  rw [targets]
  cases hkind : op.kind with
  | move =>
    simp only [Reaches, hkind, List.mem_append, List.mem_flatMap, Option.mem_toList, Option.mem_def]
    refine ⟨?_, ?_⟩
    · rintro j (hj | ⟨q, hq, hj⟩)
      · exact .inl ⟨j, hj, List.suffix_refl j⟩
      · exact .inr ⟨q, hq, hj⟩
    · rintro l (⟨j, hj, hl⟩ | ⟨q, hq, hl⟩)
      · exact ⟨j, .inl hj, hl⟩
      · exact ⟨l, .inr ⟨q, hq, hl⟩, List.suffix_refl l⟩
  | update | delete =>
    simp only [Reaches, hkind, List.mem_append, Option.mem_toList, hok]
    exact ⟨fun _ h => h, fun l h => ⟨l, h, List.suffix_refl l⟩⟩
  | envVariable | packageInstall => simp [Reaches, hkind]
  | _ =>
    simp only [Reaches, hkind, Option.mem_toList]
    exact ⟨fun _ h => h, fun l h => ⟨l, h, List.suffix_refl l⟩⟩

instance (g : Grounds) (k : FileSystem) (op : Operation) : Decidable (op.Outlying g k) :=
  decidable_of_iff (op.IsRooted ∧ (∀ j ∈ op.targets k, g.Apart j) ∧
      ∀ p ∈ op.restored?, p.parent?.isSome ∧ ∀ f ∈ p.tops,
        (∀ l ∈ k.spot? f, g.Outside l) ∧ ∀ l ∈ k.goal? f, g.Outside l) <| by
    obtain ⟨htargets, hreaches⟩ := op.targets_spec k
    constructor
    · rintro ⟨hop, hends, hrestored⟩
      refine ⟨hop, fun l hl => ?_, fun p hp => (hrestored p hp).1, fun p hp f hf l hl => ?_⟩
      · obtain ⟨j, hj, hjl⟩ := hreaches l hl
        exact (hends j hj).below hjl
      · obtain ⟨hspot, hgoal⟩ := (hrestored p hp).2 f ((Path.mem_tops (hop.restored hp)).2 hf)
        exact hl.elim (hspot l) (hgoal l)
    · intro h
      refine ⟨h.rooted, fun j hj => h.ends j (htargets j hj), fun p hp => ⟨h.inner p hp, fun f hf => ?_⟩⟩
      have habove := (Path.mem_tops (h.rooted.restored hp)).1 hf
      exact ⟨fun l hl => h.above p hp f habove l (.inl hl), fun l hl => h.above p hp f habove l (.inr hl)⟩

end Decidable

theorem Operation.Gains.not_within {l : Location} (h : op.Gains fs fs' l) (hout : op.Outlying g fs)
    (hout' : op.Outlying g fs') : ¬g.Within l := by
  cases h with
  | above hrestored habove hplace =>
    rcases hplace with hspot | hgoal
    · exact (hout'.above _ hrestored _ habove l (.inl hspot)).not_within
    · have houtside := hout'.above _ hrestored _ habove l.tail (.inr hgoal)
      cases l with
      | nil => exact houtside.not_within
      | cons w d => exact houtside.child w
  | @ending j hplace hnear =>
    have hapart : g.Apart j := hplace.elim (hout'.ends j) (hout.ends j)
    rcases hnear with hbelow | hbeside
    · exact hapart.not_within hbelow
    · obtain ⟨v, d, rfl⟩ := List.exists_cons_of_ne_nil hapart.ne_nil
      cases l with
      | nil => exact hapart.above_not_within List.nil_suffix
      | cons w d' =>
        obtain rfl : d' = d := hbeside
        exact hapart.sibling_not_within w
  | top hrestored hnothing =>
    have := hout.inner _ hrestored
    rw [hnothing] at this
    cases this

theorem Rollback.revert_unmoved (hk : Stands g s fs)
    (hout : ∀ k ∈ (revert ⟨s.backupsDirectory⟩ verify force op).stages fs, op.Outlying g k) :
    ∀ k ∈ (revert ⟨s.backupsDirectory⟩ verify force op).stages fs, Unmoved g s fs k := by
  have hstart := hout fs (mem_stages_self _ fs)
  refine Unmoved.stages hk (.refl hk) (fun x hx => ?_) fun x hx l hl => ?_
  · obtain ⟨hrooted, hhits⟩ := Rollback.within_revert hk.sound hstart.rooted x hx
    refine ⟨hrooted, fun l hl => ?_⟩
    rcases hhits l hl with h | h | h
    · exact .inl ((hout x.2 (mem_stages_of_mem_calls hx)).ends l h)
    · exact .inl (hstart.ends l h)
    · exact .inr h
  · exact (Rollback.puts_revert hk.sound hstart.rooted x hx l hl).not_within hstart
      (hout x.2 (mem_stages_of_mem_calls hx))

/-! ### Looking -/

theorem looks_inspect (b : Backups) (verify : Bool) (op : Operation) : Looks (b.inspect verify op) := by
  have hpresent : Looks (do if ← b.present op.id then return .intact else return .missing :
      Script Backups.Condition) :=
    (Files.looks_present _).bind fun r => by cases r <;> exact Looks.pure _
  rw [Backups.inspect.eq_def]
  by_cases hreq : op.requiresBackup = true
  · simp only [hreq, Bool.not_true, Bool.false_eq_true, if_false]
    split
    · refine Looks.bind ?_ fun r => ?_
      · refine (Looks.ask fun _ => rfl).bind fun r => ?_
        cases r with
        | ok c => exact Looks.pure _
        | error e => dsimp only; split <;> exact Looks.pure _
      · split
        · split <;> exact Looks.pure _
        · exact Looks.pure _
        · exact Looks.pure _
    · exact hpresent
  · simp only [hreq, Bool.not_false, if_true]
    exact Looks.pure _

theorem looks_assess (b : Backups) (verify : Bool) (op : Operation) :
    Looks (Preview.assess b verify op) := by
  rw [Preview.assess]
  cases op.kind with
  | update | delete => exact (looks_inspect b verify op).map _
  | move =>
    dsimp only
    split
    · exact Looks.pure _
    · exact (Files.looks_present _).map _
  | chmod =>
    dsimp only
    split <;> exact Looks.pure _
  | _ => exact Looks.pure _

theorem looks_assessEach (b : Backups) (verify : Bool) (ops : List Operation) :
    Looks (Preview.assessEach b verify ops) := by
  induction ops with
  | nil => exact Looks.pure _
  | cons op ops ih => exact (looks_assess b verify op).bind fun _ => ih.bind fun _ => Looks.pure _

theorem Manager.looks_previewOf (m : Manager) (t : Transaction) : Looks (m.previewOf t) :=
  (looks_assessEach _ _ _).map _

/-! ### Reverting -/

/-- What holds at first and at every stage of reverting an operation holds at every stage of reverting
them all. -/
theorem revertEach_stages {J : FileSystem → Prop} (hJ : J fs)
    (hgo : Goes C P (Rollback.revertEach b verify options o ops) fs)
    (hstep : ∀ k, J k → ∀ op ∈ ops, Goes C P (Rollback.revert b verify options.force op) k →
      ∀ k' ∈ (Rollback.revert b verify options.force op).stages k, J k') :
    ∀ k ∈ (Rollback.revertEach b verify options o ops).stages fs, J k := by
  induction ops generalizing fs o with
  | nil =>
    intro k hmem
    rw [List.mem_singleton.1 hmem]
    exact hJ
  | cons op ops ih =>
    have hstep' : ∀ k, J k → ∀ op ∈ ops, Goes C P (Rollback.revert b verify options.force op) k →
        ∀ k' ∈ (Rollback.revert b verify options.force op).stages k, J k' :=
      fun k hk op h => hstep k hk op (List.mem_cons_of_mem _ h)
    rw [Rollback.revertEach] at hgo ⊢
    split at hgo
    · next hdry =>
      rw [if_pos hdry]
      exact ih hJ hgo hstep'
    · next hdry =>
      rw [if_neg hdry]
      obtain ⟨hgo₁, hgo₂⟩ := hgo.bind
      have hone := hstep fs hJ op List.mem_cons_self hgo₁
      have hend := hone _ (mem_stages_run _ fs)
      intro k hmem
      rcases (mem_stages_bind _ _ _ _).1 hmem with hmem | hmem
      · exact hone k hmem
      generalize (Rollback.revert b verify options.force op).run fs = out at hgo₂ hend hmem
      obtain ⟨a, fs₁⟩ := out
      cases hv : a.verdict with
      | ok v =>
        simp only [hv] at hgo₂ hmem
        exact ih hend hgo₂ hstep' k hmem
      | error e =>
        cases hf : options.force with
        | true =>
          simp only [hv, hf] at hgo₂ hmem
          exact ih hend hgo₂ hstep' k hmem
        | false =>
          simp only [hv, hf, stages_pure, List.mem_singleton] at hmem
          rw [hmem]
          exact hend

namespace Manager

variable {m m' : Manager} {t : Transaction} {p : Pending} {now : Instant}

/-- What holds at first and at every stage of reverting an operation holds at every stage of reverting
a transaction. -/
theorem execute_stages {J : FileSystem → Prop} (hJ : J fs) (hgo : Goes C P (m.execute options t) fs)
    (hstep : ∀ k, J k → ∀ op ∈ t.operations,
      Goes C P (Rollback.revert m.backups m.settings.verifyChecksums options.force op) k →
      ∀ k' ∈ (Rollback.revert m.backups m.settings.verifyChecksums options.force op).stages k, J k') :
    ∀ k ∈ (m.execute options t).stages fs, J k := by
  have hstay : ∀ k ∈ [fs], J k := fun k hmem => by rw [List.mem_singleton.1 hmem]; exact hJ
  rw [execute] at hgo ⊢
  cases hs : t.status with
  | completed =>
    simp only [hs] at hgo
    obtain ⟨-, hgo₂⟩ := hgo.bind
    intro k hmem
    rcases (mem_stages_bind _ _ _ _).1 hmem with hmem | hmem
    · rw [looks_previewOf m t fs k hmem]
      exact hJ
    rw [(looks_previewOf m t).run fs] at hgo₂ hmem
    dsimp only at hgo₂ hmem
    split at hmem
    · exact hstay k hmem
    · next hgo' =>
      rw [if_neg hgo'] at hgo₂
      have hall := revertEach_stages hJ hgo₂.bind.1
        fun k hk op hop => hstep k hk op (by simpa [Transaction.reversed] using hop)
      rcases (mem_stages_bind _ _ _ _).1 hmem with hmem | hmem
      · exact hall k hmem
      · rw [List.mem_singleton.1 hmem]
        exact hall _ (mem_stages_run _ fs)
  | _ => exact hstay

/-- Reverting a transaction leaves the store alone, as long as its paths lie outside. -/
theorem execute_unmoved (hk : Stands g m.store fs) (hgo : Goes C P (m.execute options t) fs)
    (hout : ∀ k, P k → ∀ op ∈ t.operations, op.Outlying g k) :
    ∀ k ∈ (m.execute options t).stages fs, Unmoved g m.store fs k :=
  execute_stages (Unmoved.refl hk) hgo fun _ hu op hop hgo k' hmem =>
    hu.trans (Rollback.revert_unmoved hu.stands (fun k hk => hout k (hgo.stages k hk) op hop) k' hmem)

theorem execute_untouched (hk : Keeps g m.store fs) (hgo : Goes C P (m.execute options t) fs)
    (hout : ∀ k, P k → ∀ op ∈ t.operations, op.Outlying g k) :
    ∀ k ∈ (m.execute options t).stages fs, Untouched g m.store fs k := fun k hmem =>
  (execute_unmoved hk.toStands hgo hout k hmem).untouched hk

end Manager

/-! ### Using backups -/

namespace Rollback

/-- Work on files failed, or an operation cannot be reverted as it was recorded. -/
def IsPlain (e : Error) : Prop := (∃ cause, e = .io cause) ∨ ∃ reason, e = .invalidOperation reason

/-- An attempt that used no backup, and did not fail for want of one. -/
structure Attempt.Plain (a : Attempt) : Prop where
  consumed : a.consumed = false
  failure : ∀ e, a.verdict = .error e → IsPlain e

theorem plain_skipped (warnings : List String) : Attempt.Plain { Attempt.skipped with warnings } :=
  ⟨rfl, nofun⟩

theorem plain_failed {e : Error} (h : IsPlain e) : (Attempt.failed e).Plain :=
  ⟨rfl, fun e' he => by obtain rfl : e = e' := Except.error.inj he; exact h⟩

theorem plain_invalid (reason : String) : (Attempt.failed (.invalidOperation reason)).Plain :=
  plain_failed (.inr ⟨reason, rfl⟩)

theorem plain_ofResult (r : Except OsError Unit) : (Attempt.ofResult r).Plain := by
  cases r with
  | ok u => exact ⟨rfl, nofun⟩
  | error e => exact plain_failed (.inl ⟨e, rfl⟩)

theorem plain_ofRemoval (r : Except OsError Bool) : (Attempt.ofRemoval r).Plain := by
  rcases r with e | _ | _
  · exact plain_failed (.inl ⟨e, rfl⟩)
  · exact plain_skipped []
  · exact ⟨rfl, nofun⟩

theorem plain_moveBack (force : Bool) (op : Operation) (fs : FileSystem) :
    ((moveBack force op).run fs).1.Plain := by
  rw [moveBack]
  split
  · exact plain_invalid _
  · simp only [run_bind]
    split
    · split
      · exact plain_skipped []
      · exact plain_invalid _
    · split
      · exact plain_invalid _
      · rw [run_bind]; exact plain_ofResult _

theorem plain_removeLink (p : Path) (fs : FileSystem) : ((removeLink p).run fs).1.Plain := by
  rw [removeLink, run_bind]
  split
  · rw [run_bind]; exact plain_ofResult _
  · exact plain_invalid _
  · next e _ =>
    split
    · exact plain_skipped []
    · exact plain_failed (.inl ⟨e, rfl⟩)

theorem plain_removeDirectory (p : Path) (fs : FileSystem) :
    ((removeDirectory p).run fs).1.Plain := by
  rw [removeDirectory, run_bind]
  split
  · exact plain_skipped []
  · rw [run_bind]
    split
    · next e _ => exact plain_failed (.inl ⟨e, rfl⟩)
    · rw [run_bind]; exact plain_ofResult _
    · exact plain_skipped _

theorem plain_restoreMode (op : Operation) (fs : FileSystem) : ((restoreMode op).run fs).1.Plain := by
  rw [restoreMode]
  split
  · exact plain_skipped []
  · rw [run_bind]
    split
    · rw [run_bind]; exact plain_ofResult _
    · exact plain_skipped []

theorem plain_removeCreated (p : Path) (fs : FileSystem) : ((removeCreated p).run fs).1.Plain := by
  rw [removeCreated, run_bind]; exact plain_ofRemoval _

theorem plain_restoreKnown (op : Operation) (fs : FileSystem) : ((restoreKnown op).run fs).1.Plain := by
  rw [restoreKnown]
  split
  · rw [run_bind]; exact plain_ofResult _
  · split
    · exact plain_removeCreated _ _
    · exact plain_skipped []

theorem plain_revert (b : Backups) (verify force : Bool) (fs : FileSystem)
    (hreq : op.requiresBackup = false) : ((revert b verify force op).run fs).1.Plain := by
  rw [revert]
  cases op.kind with
  | update | delete => rw [hreq]; exact plain_restoreKnown _ _
  | create | copy => exact plain_removeCreated _ _
  | move => exact plain_moveBack _ _ _
  | symlink => exact plain_removeLink _ _
  | directoryCreate => exact plain_removeDirectory _ _
  | chmod => exact plain_restoreMode _ _
  | envVariable | packageInstall => exact plain_skipped _

theorem revert_of_requiresBackup (b : Backups) (verify force : Bool) (hreq : op.requiresBackup = true) :
    revert b verify force op = restoreBackup b verify force op := by
  have hkind : op.kind.needsBackup = true := by
    rw [Operation.requiresBackup, Bool.and_eq_true] at hreq; exact hreq.1
  rw [revert]
  cases hk : op.kind with
  | update | delete => exact if_pos hreq
  | _ => rw [hk] at hkind; cases hkind

theorem consumed_restoreBackup (b : Backups) (verify force : Bool) (op : Operation) (fs : FileSystem)
    (h : ∀ e, ((restoreBackup b verify force op).run fs).1.verdict ≠ .error e) :
    ((restoreBackup b verify force op).run fs).1.consumed = true := by
  rw [restoreBackup, run_bind] at h ⊢
  generalize (b.read op.id).run fs = out at h ⊢
  obtain ⟨r, fs₁⟩ := out
  rcases r with e | _ | content
  · exact absurd rfl (h _)
  · exact absurd rfl (h _)
  · dsimp only at h ⊢
    split at h
    · exact absurd rfl (h _)
    · next hgo =>
      rw [if_neg hgo, run_bind]
      rw [run_bind] at h
      generalize (Files.writeAtomic op.path content).run.run fs₁ = out at h ⊢
      obtain ⟨r, fs₂⟩ := out
      cases r with
      | ok _ => rfl
      | error e => exact absurd rfl (h _)

theorem revert_consumed (b : Backups) (verify force : Bool) (op : Operation) (fs : FileSystem) :
    (((revert b verify force op).run fs).1.consumed = true → op.requiresBackup = true) ∧
      (op.requiresBackup = true → (∀ e, ((revert b verify force op).run fs).1.verdict ≠ .error e) →
        ((revert b verify force op).run fs).1.consumed = true) := by
  cases hreq : op.requiresBackup with
  | true =>
    rw [revert_of_requiresBackup b verify force hreq]
    exact ⟨fun _ => rfl, fun _ h => consumed_restoreBackup b verify force op fs h⟩
  | false =>
    refine ⟨fun h => ?_, nofun⟩
    rw [(plain_revert b verify force fs hreq).consumed] at h
    cases h

theorem errors_add (o : Outcome) (op : Operation) (a : Attempt) :
    ∃ es, (o.add op a).errors = o.errors ++ es ∧ (es = [] ↔ ∀ e, a.verdict ≠ .error e) := by
  rcases hv : a.verdict with e | _ | _
  · exact ⟨[op.kind.name ++ " " ++ op.path.display ++ ": " ++ e.message],
      by simp only [Outcome.add, hv], by simp⟩
  · exact ⟨[], by simp [Outcome.add, hv], by simp⟩
  · exact ⟨[], by simp [Outcome.add, hv], by simp⟩

theorem consumed_add (o : Outcome) (op : Operation) (a : Attempt) :
    (o.add op a).consumedBackups = o.consumedBackups ++ if a.consumed then [op.id] else [] := by
  rcases hv : a.verdict with e | _ | _ <;> simp only [Outcome.add, hv]

/-- What an outcome says after some more operations were reverted. -/
structure Outcome.Follows (o : Outcome) (ops : List Operation) (dry : Bool) (o' : Outcome) : Prop where
  errors : o.errors <+: o'.errors
  earlier : o.consumedBackups <+: o'.consumedBackups
  used : ∀ id ∈ o'.consumedBackups, id ∈ o.consumedBackups ∨
    ∃ op ∈ ops, op.requiresBackup = true ∧ id = op.id
  all : dry = false → o'.errors = [] →
    ∀ op ∈ ops, op.requiresBackup = true → op.id ∈ o'.consumedBackups

theorem revertEach_follows (b : Backups) (verify : Bool) (options : Options) (o : Outcome)
    (ops : List Operation) (fs : FileSystem) :
    Outcome.Follows o ops options.dryRun ((revertEach b verify options o ops).run fs).1 := by
  induction ops generalizing o fs with
  | nil => exact ⟨List.prefix_rfl, List.prefix_rfl, fun id h => .inl h, by simp⟩
  | cons op ops ih =>
    rw [revertEach]
    by_cases hdry : options.dryRun = true
    · rw [if_pos hdry]
      obtain ⟨h₁, h₂, h₃, -⟩ := ih { o with rolledBack := o.rolledBack + 1 } fs
      refine ⟨h₁, h₂, fun id hid => (h₃ id hid).imp_right ?_, fun h => ?_⟩
      · rintro ⟨u, hu, h⟩
        exact ⟨u, List.mem_cons_of_mem _ hu, h⟩
      · rw [hdry] at h; cases h
    · rw [if_neg hdry, run_bind]
      obtain ⟨hneed, hdone⟩ := revert_consumed b verify options.force op fs
      generalize (revert b verify options.force op).run fs = out at hneed hdone
      obtain ⟨a, fs₁⟩ := out
      obtain ⟨es, hes, hok⟩ := errors_add o op a
      -- the outcome after this operation, whether or not others follow
      have hone : Outcome.Follows o [op] options.dryRun (o.add op a) := by
        refine ⟨⟨es, hes.symm⟩, ⟨_, (consumed_add o op a).symm⟩, fun id hid => ?_, fun _ herr u hu hreq => ?_⟩
        · rw [consumed_add, List.mem_append] at hid
          refine hid.imp_right fun hid => ?_
          split at hid
          · next hc => exact ⟨op, List.mem_cons_self, hneed hc, by simpa using hid⟩
          · cases hid
        · rw [List.mem_singleton.1 hu] at hreq ⊢
          rw [hes, List.append_eq_nil_iff] at herr
          rw [consumed_add, if_pos (hdone hreq (hok.1 herr.2))]
          simp
      have hmore : ∀ {o'}, Outcome.Follows (o.add op a) ops options.dryRun o' →
          Outcome.Follows o (op :: ops) options.dryRun o' := by
        intro o' h
        refine ⟨hone.errors.trans h.errors, hone.earlier.trans h.earlier, fun id hid => ?_,
          fun hd herr u hu hreq => ?_⟩
        · rcases h.used id hid with hid | ⟨u, hu, h⟩
          · rcases hone.used id hid with hid | ⟨u, hu, h⟩
            · exact .inl hid
            · exact .inr ⟨u, by rw [List.mem_singleton.1 hu]; exact List.mem_cons_self, h⟩
          · exact .inr ⟨u, List.mem_cons_of_mem _ hu, h⟩
        · rcases List.mem_cons.1 hu with rfl | hu
          · have hnone : (o.add u a).errors = [] := List.prefix_nil.1 (herr ▸ h.errors)
            exact h.earlier.subset (hone.all hd hnone u List.mem_cons_self hreq)
          · exact h.all hd herr u hu hreq
      dsimp only
      cases hv : a.verdict with
      | ok v => exact hmore (ih _ fs₁)
      | error e =>
        cases hf : options.force with
        | true => exact hmore (ih _ fs₁)
        | false =>
          refine ⟨hone.errors, hone.earlier, fun id hid => (hone.used id hid).imp_right ?_,
            fun _ herr => ?_⟩
          · rintro ⟨u, hu, h⟩
            exact ⟨u, by rw [List.mem_singleton.1 hu]; exact List.mem_cons_self, h⟩
          · rw [run_pure, hes, List.append_eq_nil_iff] at herr
            exact absurd hv (hok.1 herr.2 e)

end Rollback

namespace Manager

variable {m m' : Manager} {t : Transaction} {p : Pending} {now : Instant}

/-- The backups that a pending result has used: those of operations of its transaction, and all of
them where it is to be recorded. -/
structure Owes (t : Transaction) (options : Options) (p : Pending) : Prop where
  id : p.result.transactionId = t.id
  used : ∀ i ∈ p.consumedBackups, ∃ op ∈ t.operations, op.requiresBackup = true ∧ i = op.id
  all : p.result.success = false → p.result.errors = [] → options.dryRun = false →
    ∀ op ∈ t.operations, op.requiresBackup = true → op.id ∈ p.consumedBackups

theorem execute_owes (m : Manager) (options : Options) (t : Transaction) (fs : FileSystem) :
    Owes t options ((m.execute options t).run fs).1 := by
  have hreversed : ∀ op, op ∈ t.reversed ↔ op ∈ t.operations := fun op => List.mem_reverse
  have hid : ((m.execute options t).run fs).1.result.transactionId = t.id := execute_id
  rw [execute] at hid ⊢
  cases hs : t.status with
  | completed =>
    simp only [hs, run_bind] at hid ⊢
    split at hid
    · next hgo =>
      rw [if_pos hgo]
      exact ⟨rfl, by simp, by simp⟩
    · next hgo =>
      rw [if_neg hgo, run_bind]
      have hfollows := Rollback.revertEach_follows m.backups m.settings.verifyChecksums options {}
        t.reversed ((m.previewOf t).run fs).2
      refine ⟨rfl, fun i hi => ?_, fun _ herr hdry op hop hreq => ?_⟩
      · obtain ⟨op, hop, h⟩ := (hfollows.used i hi).resolve_left List.not_mem_nil
        exact ⟨op, (hreversed op).1 hop, h⟩
      · exact hfollows.all hdry herr op ((hreversed op).2 hop) hreq
  | _ => exact ⟨rfl, by simp, by simp⟩

end Manager
end Retrace
