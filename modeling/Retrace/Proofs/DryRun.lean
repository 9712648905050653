import Retrace.Proofs.LifeCycle
import Retrace.Proofs.Outlying
import Retrace.Proofs.Preview
import Retrace.Proofs.Touch

/-!
Dry runs: they change neither the tree nor what is kept, and foretell what a rollback would do
(`dry_run_inert`).
-/
namespace Retrace

open Script
open Rollback (Options Result Pending Outcome)

/-! ### Reverting -/

namespace Rollback

theorem looks_revertEach {options : Options} (hdry : options.dryRun = true) (b : Backups)
    (verify : Bool) (o : Outcome) (ops : List Operation) : Looks (revertEach b verify options o ops) := by
  induction ops generalizing o with
  | nil => exact Looks.pure _
  | cons op ops ih =>
    rw [revertEach, if_pos hdry]
    exact ih _

theorem revertAll_dry {options : Options} (hdry : options.dryRun = true) (b : Backups) (verify : Bool)
    (t : Transaction) (fs : FileSystem) :
    (revertAll b verify options t).run fs = ({ rolledBack := t.operations.length }, fs) := by
  rw [revertAll, (revertEach_dry hdry {} t.reversed fs).2, Transaction.reversed, List.length_reverse,
    Nat.zero_add]

end Rollback

namespace Manager

variable {m m' : Manager} {fs : FileSystem} {options : Options} {t : Transaction} {id : String}

/-- A rollback of the transaction goes on to its operations: it is completed, and it has the backups
that it needs or is forced. -/
def Proceeds (m : Manager) (fs : FileSystem) (options : Options) (t : Transaction) : Prop :=
  t.status = .completed ∧ (((m.previewOf t).run fs).1.canProceed = true ∨ options.force = true)

theorem execute_of_not_proceeds (h : ¬m.Proceeds fs options t) (dry : Bool) :
    (m.execute { options with dryRun := dry } t).run fs = (m.execute options t).run fs ∧
      (((m.execute options t).run fs).1.result.success = true ∨
        ((m.execute options t).run fs).1.result.errors ≠ []) := by
  cases hs : t.status with
  | completed =>
    have hno : (!((m.previewOf t).run fs).1.canProceed && !options.force) = true := by
      simpa [Proceeds, hs] using h
    simp only [execute, hs, run_bind, hno, if_true, run_pure]
    exact ⟨trivial, .inr (List.cons_ne_nil _ _)⟩
  | rolledBack => exact ⟨by simp only [execute, hs], .inl (by simp [execute, hs])⟩
  | pending | failed => exact ⟨by simp only [execute, hs], .inr (by simp [execute, hs])⟩

theorem execute_of_proceeds (h : m.Proceeds fs options t) :
    let p := ((m.previewOf t).run fs).1
    let out := (Rollback.revertAll m.backups m.settings.verifyChecksums options t).run fs
    (m.execute options t).run fs = (⟨{
      transactionId := t.id
      rolledBackOperations := out.1.rolledBack
      errors := out.1.errors
      warnings := p.warnings ++ out.1.warnings
      skippedOperations := out.1.skipped
      risk := p.risk }, out.1.consumedBackups⟩, out.2) := by
  obtain ⟨hs, hgo⟩ := h
  have hgo : ¬(!((m.previewOf t).run fs).1.canProceed && !options.force) = true := by
    rcases hgo with hgo | hgo <;> simp [hgo]
  simp only [execute, hs, run_bind, if_neg hgo, run_pure, (m.looks_previewOf t).run fs]

theorem execute_dry (hdry : options.dryRun = true) (h : m.Proceeds fs options t) :
    ((m.execute options t).run fs).1.result.errors = [] ∧
      ((m.execute options t).run fs).1.result.rolledBackOperations = t.operations.length ∧
      ((m.execute options t).run fs).1.result.skippedOperations = [] := by
  simp only [execute_of_proceeds h, Rollback.revertAll_dry hdry, and_self]

theorem looks_execute (hdry : options.dryRun = true) (m : Manager) (t : Transaction) :
    Looks (m.execute options t) := by
  rw [execute]
  cases t.status with
  | completed =>
    refine (m.looks_previewOf t).bind fun p => ?_
    dsimp only
    split
    · exact Looks.pure _
    · exact (Rollback.looks_revertEach hdry _ _ _ _).bind fun _ => Looks.pure _
  | _ => exact Looks.pure _

theorem execute_idle (h : ¬m.Proceeds fs options t) : ((m.execute options t).run fs).2 = fs := by
  rw [← (execute_of_not_proceeds h true).1, (looks_execute rfl m t).run fs]

theorem execute_congr (hstore : m'.store = m.store) (hset : m'.settings = m.settings) :
    m'.execute options t = m.execute options t := by
  simp only [execute, previewOf, backups, hstore, hset]

/-! ### Recording -/

/-- The managers are the same but for the events and the two counters of rollbacks. -/
def Inert (m m' : Manager) : Prop :=
  m' = { m with
    events := m'.events
    counters := { m.counters with
      rollbacksAttempted := m'.counters.rollbacksAttempted
      rollbacksSucceeded := m'.counters.rollbacksSucceeded } }

theorem Inert.trans {m'' : Manager} (h : Inert m m') (h' : Inert m' m'') : Inert m m'' := by
  rw [Inert, h', h]

theorem settle_inert (hdry : options.dryRun = true) (m : Manager) (r : Result) :
    Inert m (m.settle options r).2 := by
  rw [Inert]
  simp only [settle, hdry, if_true, publish]
  split <;> rfl

theorem finalize_dry (hdry : options.dryRun = true) (m : Manager) (now : Instant) (p : Pending) :
    m.finalize now options p = pure (m.settle options p.result) := by
  rw [finalize, hdry, Bool.or_true, if_pos rfl]

def announcing (m : Manager) (t : Transaction) : Manager :=
  m.attempted.publish (.rollbackStarted t.id)

theorem announcing_inert (m : Manager) (t : Transaction) : Inert m (m.announcing t) := rfl

/-- The result for a transaction, of which only what was found is used. -/
def verdict (m : Manager) (fs : FileSystem) (options : Options) (t : Transaction) : Result :=
  let r := ((m.execute options t).run fs).1.result
  { r with success := r.errors.isEmpty }

theorem Inert.verdict_eq (h : Inert m m') :
    m'.verdict fs options = m.verdict fs options := by
  funext t
  have hsame : m'.execute options t = m.execute options t := execute_congr (by rw [h]) (by rw [h])
  rw [verdict, verdict, hsame]

theorem Inert.transaction?_eq (h : Inert m m') (id : String) :
    m'.transaction? id = m.transaction? id := by
  rw [h]
  rfl

/-! ### One transaction -/

theorem rollback_none (ht : m.transaction? id = none) (now : Instant) :
    m.rollback now options id =
      pure (.failed id (Error.transactionNotFound id).message, m.attempted) := by
  have ht : m.attempted.transaction? id = none := ht
  rw [rollback, ht]

theorem rollback_some (ht : m.transaction? id = some t) (now : Instant) :
    m.rollback now options id = (do
      let p ← m.execute options t
      (m.announcing t).finalize now options p) := by
  have ht : m.attempted.transaction? id = some t := ht
  rw [rollback, ht]
  rfl

theorem rollback_dry (hdry : options.dryRun = true) (m : Manager) (now : Instant) (id : String)
    (fs : FileSystem) :
    Looks (m.rollback now options id) ∧ Inert m ((m.rollback now options id).run fs).1.2 ∧
      ∀ t, m.transaction? id = some t →
        ((m.rollback now options id).run fs).1.1 = m.verdict fs options t := by
  cases ht : m.transaction? id with
  | none =>
    rw [rollback_none ht]
    exact ⟨Looks.pure _, rfl, nofun⟩
  | some t =>
    rw [rollback_some ht]
    simp only [finalize_dry hdry, run_bind, run_pure]
    refine ⟨(looks_execute hdry m t).bind fun _ => Looks.pure _,
      (m.announcing_inert t).trans (settle_inert hdry _ _), fun u hu => ?_⟩
    cases hu
    rfl

/-- What a dry run answers: it foretells a success for a transaction that can be reverted, and
otherwise answers as the rollback itself would. -/
structure Foretold (m : Manager) (now : Instant) (options : Options) (fs : FileSystem) (id : String)
    (r : Result) : Prop where
  proceeds : ∀ t, m.transaction? id = some t → m.Proceeds fs options t →
    r.success = true ∧ r.rolledBackOperations = t.operations.length ∧ r.errors = [] ∧
      r.skippedOperations = []
  otherwise : (∀ t, m.transaction? id = some t → ¬m.Proceeds fs options t) →
    r = ((m.rollback now { options with dryRun := false } id).run fs).1.1

theorem rollback_of_not_proceeds (ht : m.transaction? id = some t)
    (h : ¬m.Proceeds fs options t) (now : Instant) :
    ((m.rollback now { options with dryRun := false } id).run fs).1.1 = m.verdict fs options t := by
  obtain ⟨hsame, hend⟩ := execute_of_not_proceeds h false
  rw [rollback_some ht, run_bind, hsame, finalize, if_pos, run_pure, settle_fst, verdict]
  simpa using hend

theorem rollback_foretold (hdry : options.dryRun = true) (m : Manager) (now : Instant) (id : String)
    (fs : FileSystem) : m.Foretold now options fs id ((m.rollback now options id).run fs).1.1 where
  proceeds t ht h := by
    obtain ⟨herrors, hcount, hskipped⟩ := execute_dry hdry h
    rw [(rollback_dry hdry m now id fs).2.2 t ht]
    exact ⟨by rw [verdict, herrors]; rfl, hcount, herrors, hskipped⟩
  otherwise h := by
    cases ht : m.transaction? id with
    | none => rw [rollback_none ht, rollback_none ht]
    | some t =>
      rw [(rollback_dry hdry m now id fs).2.2 t ht, rollback_of_not_proceeds ht (h t ht)]

/-! ### Checkpoints -/

def upToFailure : List Result → List Result
  | [] => []
  | r :: rs => if r.success then r :: upToFailure rs else [r]

/-- The results that are given where rollbacks go one after the other. -/
def inTurn (options : Options) (rs : List Result) : List Result :=
  if options.force then rs else upToFailure rs

theorem inTurn_cons (options : Options) (r : Result) (rs : List Result) :
    inTurn options (r :: rs) =
      if !r.success && !options.force then [r] else r :: inTurn options rs := by
  rw [inTurn, inTurn, upToFailure]
  cases options.force <;> cases r.success <;> simp

theorem rollbackInTurn_dry (hdry : options.dryRun = true) (now : Instant) (ts : List Transaction)
    (m : Manager) : Looks (m.rollbackInTurn now options ts) ∧
      ∀ fs, Inert m ((m.rollbackInTurn now options ts).run fs).1.2 ∧
        ((∀ t ∈ ts, m.transaction? t.id = some t) →
          ((m.rollbackInTurn now options ts).run fs).1.1 =
            inTurn options (ts.map (m.verdict fs options))) := by
  induction ts generalizing m with
  | nil =>
    refine ⟨Looks.pure _, fun fs => ⟨rfl, fun _ => ?_⟩⟩
    rw [List.map_nil, inTurn, upToFailure, ite_self]
    rfl
  | cons t ts ih =>
    refine ⟨(rollback_dry hdry m now t.id .empty).1.bind fun out => ?_, fun fs => ?_⟩
    · dsimp only
      split
      · exact Looks.pure _
      · exact (ih _).1.bind fun _ => Looks.pure _
    obtain ⟨hlooks, hinert, hresult⟩ := rollback_dry hdry m now t.id fs
    obtain ⟨hrest, hresults⟩ := (ih ((m.rollback now options t.id).run fs).1.2).2 fs
    rw [rollbackInTurn, run_bind, hlooks.run fs]
    generalize ((m.rollback now options t.id).run fs).1 = out at *
    obtain ⟨r, m₁⟩ := out
    dsimp only at hinert hresult hrest ⊢
    simp only [hinert.verdict_eq, hinert.transaction?_eq] at hresults
    by_cases hstop : (!r.success && !options.force) = true
    · rw [if_pos hstop]
      refine ⟨hinert, fun hts => ?_⟩
      rw [List.map_cons, inTurn_cons, ← hresult t (hts t List.mem_cons_self), if_pos hstop]
      rfl
    · rw [if_neg hstop, run_bind]
      refine ⟨hinert.trans hrest, fun hts => ?_⟩
      rw [List.map_cons, inTurn_cons, ← hresult t (hts t List.mem_cons_self), if_neg hstop,
        ← hresults fun u hu => hts u (List.mem_cons_of_mem _ hu)]
      rfl

theorem executeEach_dry (hdry : options.dryRun = true) (m : Manager) (ts : List Transaction) :
    Looks (m.executeEach options ts) ∧ ∀ fs,
      ((m.executeEach options ts).run fs).1 = ts.map fun t => ((m.execute options t).run fs).1 := by
  induction ts with
  | nil => exact ⟨Looks.pure _, fun _ => rfl⟩
  | cons t ts ih =>
    have hlooks := looks_execute hdry m t
    refine ⟨hlooks.bind fun _ => ih.1.bind fun _ => Looks.pure _, fun fs => ?_⟩
    simp only [executeEach, run_bind, run_pure, hlooks.run fs, ih.2 fs, List.map_cons]

theorem finalizeEach_dry (hdry : options.dryRun = true) (now : Instant) (ps : List Pending)
    (m : Manager) : Looks (m.finalizeEach now options ps) ∧
      ∀ fs, Inert m ((m.finalizeEach now options ps).run fs).1.2 ∧
        ((m.finalizeEach now options ps).run fs).1.1 =
          ps.map fun p => { p.result with success := p.result.errors.isEmpty } := by
  induction ps generalizing m with
  | nil => exact ⟨Looks.pure _, fun _ => ⟨rfl, rfl⟩⟩
  | cons p ps ih =>
    rw [finalizeEach, finalize_dry hdry]
    refine ⟨(Looks.pure _).bind fun _ => (ih _).1.bind fun _ => Looks.pure _, fun fs => ?_⟩
    obtain ⟨hrest, hresults⟩ := (ih (m.settle options p.result).2).2 fs
    simp only [run_bind, run_pure, List.map_cons, hresults]
    exact ⟨(settle_inert hdry m p.result).trans hrest, by rw [settle_fst]⟩

theorem foldl_announcing_inert (m : Manager) (ts : List Transaction) :
    Inert m (ts.foldl announcing m) := by
  induction ts generalizing m with
  | nil => rfl
  | cons t ts ih => exact (m.announcing_inert t).trans (ih _)

theorem rollbackTogether_eq (m : Manager) (now : Instant) (options : Options)
    (ts : List Transaction) : m.rollbackTogether now options ts = (do
      let pending ← (ts.foldl announcing m).executeEach options ts
      (ts.foldl announcing m).finalizeEach now options pending) := rfl

theorem rollbackTogether_dry (hdry : options.dryRun = true) (m : Manager) (now : Instant)
    (ts : List Transaction) : Looks (m.rollbackTogether now options ts) ∧
      ∀ fs, Inert m ((m.rollbackTogether now options ts).run fs).1.2 ∧
        ((m.rollbackTogether now options ts).run fs).1.1 = ts.map (m.verdict fs options) := by
  have hannounced := foldl_announcing_inert m ts
  obtain ⟨hlooks, hpending⟩ := executeEach_dry hdry (ts.foldl announcing m) ts
  rw [rollbackTogether_eq]
  refine ⟨hlooks.bind fun _ => (finalizeEach_dry hdry now _ _).1, fun fs => ?_⟩
  obtain ⟨hinert, hresults⟩ := (finalizeEach_dry hdry now
    (((ts.foldl announcing m).executeEach options ts).run fs).1 (ts.foldl announcing m)).2 fs
  rw [run_bind, hlooks.run fs]
  refine ⟨hannounced.trans hinert, ?_⟩
  rw [hresults, hpending, List.map_map, ← hannounced.verdict_eq]
  rfl

/-- Whether the transactions of a checkpoint are rolled back at the same time. -/
def atOnce (options : Options) : Bool := options.parallel && !options.interactive

def rollbackMembers (m : Manager) (now : Instant) (options : Options) (ts : List Transaction) :
    Script (List Result × Manager) :=
  if atOnce options then m.rollbackTogether now options ts else m.rollbackInTurn now options ts

theorem rollbackCheckpoint_none (hc : m.checkpoint? id = none) (now : Instant) (options : Options) :
    m.rollbackCheckpoint now options id = pure (.error (.checkpointNotFound id), m) := by
  rw [rollbackCheckpoint, hc]

theorem rollbackCheckpoint_some {c : Checkpoint} (hc : m.checkpoint? id = some c) (now : Instant)
    (options : Options) : m.rollbackCheckpoint now options id =
      m.rollbackMembers now options (m.membersOf c) >>= fun out => pure (.ok out.1, out.2) := by
  rw [rollbackCheckpoint, hc, rollbackMembers, atOnce]
  dsimp only
  split <;> rfl

theorem rollbackMembers_dry (hdry : options.dryRun = true) (m : Manager) (now : Instant)
    (ts : List Transaction) : Looks (m.rollbackMembers now options ts) ∧
      ∀ fs, Inert m ((m.rollbackMembers now options ts).run fs).1.2 ∧
        ((∀ t ∈ ts, m.transaction? t.id = some t) →
          ((m.rollbackMembers now options ts).run fs).1.1 =
            if atOnce options then ts.map (m.verdict fs options)
            else inTurn options (ts.map (m.verdict fs options))) := by
  rw [rollbackMembers]
  split
  · obtain ⟨hlooks, hrest⟩ := rollbackTogether_dry hdry m now ts
    exact ⟨hlooks, fun fs => ⟨(hrest fs).1, fun _ => (hrest fs).2⟩⟩
  · exact rollbackInTurn_dry hdry now ts m

theorem rollbackCheckpoint_dry (hdry : options.dryRun = true) (m : Manager) (now : Instant)
    (id : String) : Looks (m.rollbackCheckpoint now options id) ∧
      ∀ fs, Inert m ((m.rollbackCheckpoint now options id).run fs).1.2 := by
  cases hc : m.checkpoint? id with
  | none =>
    rw [rollbackCheckpoint_none hc]
    exact ⟨Looks.pure _, fun _ => rfl⟩
  | some c =>
    obtain ⟨hlooks, hrest⟩ := rollbackMembers_dry hdry m now (m.membersOf c)
    rw [rollbackCheckpoint_some hc]
    exact ⟨hlooks.bind fun _ => Looks.pure _, fun fs => by rw [run_bind]; exact (hrest fs).1⟩

theorem rollbackCheckpoint_members (hdry : options.dryRun = true) (hk : Keyed m) (now : Instant)
    {c : Checkpoint} (hc : m.checkpoint? id = some c) (fs : FileSystem) :
    let rs := (m.membersOf c).map fun t => ((m.rollback now options t.id).run fs).1.1
    ((m.rollbackCheckpoint now options id).run fs).1.1 =
      .ok (if atOnce options then rs else inTurn options rs) := by
  have hkept : ∀ t ∈ m.membersOf c, m.transaction? t.id = some t := fun t ht =>
    hk.transaction?_of_member ht
  have hverdicts : (m.membersOf c).map (m.verdict fs options) =
      (m.membersOf c).map fun t => ((m.rollback now options t.id).run fs).1.1 :=
    List.map_congr_left fun t ht => ((rollback_dry hdry m now t.id fs).2.2 t (hkept t ht)).symm
  have hresults := ((rollbackMembers_dry hdry m now (m.membersOf c)).2 fs).2 hkept
  rw [hverdicts] at hresults
  intro rs
  rw [rollbackCheckpoint_some hc, run_bind, run_pure, hresults]

end Manager

/-- A dry run, of a transaction or of a checkpoint, never touches the tree, and of the manager it
changes the events and two counters only. For a transaction it foretells a success where that can be
reverted, and answers as the rollback itself would otherwise. For a checkpoint it answers so for each
transaction, up to the first failure where they would go one after the other without force. -/
theorem dry_run_inert {m : Manager} {options : Options} (hdry : options.dryRun = true)
    (hk : m.Keyed) (now : Instant) (fs : FileSystem) :
    (∀ id, (∀ fs' ∈ (m.rollback now options id).stages fs, fs' = fs) ∧
      m.Inert ((m.rollback now options id).run fs).1.2 ∧
      m.Foretold now options fs id ((m.rollback now options id).run fs).1.1) ∧
    ∀ id, (∀ fs' ∈ (m.rollbackCheckpoint now options id).stages fs, fs' = fs) ∧
      m.Inert ((m.rollbackCheckpoint now options id).run fs).1.2 ∧
      (m.checkpoint? id = none → ((m.rollbackCheckpoint now options id).run fs).1.1 =
        ((m.rollbackCheckpoint now { options with dryRun := false } id).run fs).1.1) ∧
      ∀ c, m.checkpoint? id = some c → ∃ rs,
        List.Forall₂ (fun t r => m.Foretold now options fs t.id r) (m.membersOf c) rs ∧
        ((m.rollbackCheckpoint now options id).run fs).1.1 =
          .ok (if Manager.atOnce options then rs else Manager.inTurn options rs) := by
  refine ⟨fun id => ?_, fun id => ?_⟩
  · obtain ⟨hlooks, hinert, -⟩ := Manager.rollback_dry hdry m now id fs
    exact ⟨hlooks fs, hinert, Manager.rollback_foretold hdry m now id fs⟩
  · obtain ⟨hlooks, hinert⟩ := Manager.rollbackCheckpoint_dry hdry m now id
    refine ⟨hlooks fs, hinert fs, fun hc => ?_, fun c hc => ⟨_, ?_,
      Manager.rollbackCheckpoint_members hdry hk now hc fs⟩⟩
    · rw [Manager.rollbackCheckpoint_none hc, Manager.rollbackCheckpoint_none hc]
    · rw [List.forall₂_map_right_iff]
      exact List.forall₂_same.2 fun t _ => Manager.rollback_foretold hdry m now t.id fs

theorem dry_run_inert_unsecured :
    ∃ r m', (Sample.unsecuredManager.rollback ⟨1, 0⟩ { dryRun := true, force := true } "t").run .empty =
        ((r, m'), .empty) ∧
      r.success = true ∧ r.rolledBackOperations = 1 ∧ r.errors = [] ∧
      m'.history = Sample.unsecuredManager.history := by
  have hkeyed : Sample.unsecuredManager.Keyed := fun id t
      (ht : (Index.ofValues Transaction.id [Sample.unsecuredTransaction]).get? id = some t) =>
    (Index.mem_of_get?_ofValues ht).2
  have hforced : ({ dryRun := true, force := true } : Options).dryRun = true := rfl
  obtain ⟨hdry, -⟩ := dry_run_inert hforced hkeyed ⟨1, 0⟩ .empty
  obtain ⟨hstages, hinert, hforetold⟩ := hdry "t"
  obtain ⟨hsuccess, hcount, herrors, -⟩ :=
    hforetold.proceeds Sample.unsecuredTransaction rfl ⟨rfl, .inr rfl⟩
  generalize hout : (Sample.unsecuredManager.rollback ⟨1, 0⟩ _ "t").run .empty = out at *
  refine ⟨out.1.1, out.1.2, Prod.ext rfl ?_, hsuccess, hcount, herrors, by rw [hinert]⟩
  exact hstages _ (hout ▸ mem_stages_run _ _)

end Retrace
