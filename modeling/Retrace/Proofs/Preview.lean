import Retrace.Manager.Rollback
import Retrace.Proofs.FileSystem.Operations
import Retrace.Proofs.Files
import Retrace.Proofs.Time.Order

/-!
Previews, rollback points and rollbacks agree on one thing, whether a backup that is needed can be
used (`LacksBackup`). A rollback that is blocked for want of backups changes nothing
(`preview_decides`).
-/
namespace Retrace

open FileSystem Script

variable {fs : FileSystem} {b : Backups} {verify : Bool} {op : Operation} {ops : List Operation}
  {t : Transaction} {m : Manager} {options : Rollback.Options}

/-- An operation that replaced content cannot have it back: its backup is not there, or it is to be
checked and cannot be read or has another digest. -/
def LacksBackup (b : Backups) (verify : Bool) (fs : FileSystem) (op : Operation) : Prop :=
  (op.kind = .update ∨ op.kind = .delete) ∧ (∃ c ∈ op.previousContent, c ≠ "") ∧
    ((fs.linkStatus (b.pathFor op.id)).isOk = false ∨
      verify = true ∧ op.checksum ≠ none ∧
        (fs.read (b.pathFor op.id)).toOption.map Sha256.hexDigest ≠ op.checksum)

instance (b : Backups) (verify : Bool) (fs : FileSystem) : DecidablePred (LacksBackup b verify fs) :=
  fun _ => inferInstanceAs (Decidable (_ ∧ _ ∧ _))

theorem requiresBackup_iff : op.requiresBackup = true ↔
    (op.kind = .update ∨ op.kind = .delete) ∧ ∃ c ∈ op.previousContent, c ≠ "" := by
  cases h : op.previousContent <;>
    simp [Operation.requiresBackup, Operation.Kind.needsBackup, h]

theorem FileSystem.isOk_linkStatus_of_read {p : Path} {c : Bytes} (h : fs.read p = .ok c) :
    (fs.linkStatus p).isOk = true := by
  have hnul := noNul_of_named h
  rw [FileSystem.read, named_of_noNul hnul] at h
  cases he : fs.entryAt true p with
  | error e => rw [he] at h; cases h
  | ok x =>
    obtain ⟨x', hx'⟩ := entryAt_unfollowed he
    rw [linkStatus, named_of_noNul hnul, hx']
    rfl

/-! ### Looking at backups -/

theorem Backups.read_eq (b : Backups) (id : String) (fs : FileSystem) :
    (b.read id).run fs =
      (match fs.read (b.pathFor id) with
        | .ok c => .ok (some c)
        | .error e => if e.isNotFound then .ok none else .error e, fs) := by
  simp only [Backups.read, run_bind, run_ask, Call.perform]
  cases fs.read (b.pathFor id) with
  | ok c => rfl
  | error e => cases h : e.isNotFound <;> simp [h]

/-- The condition of a backup is bad just where it is lacking. -/
theorem Backups.inspect_eq (b : Backups) (verify : Bool) (op : Operation) (fs : FileSystem) :
    ∃ c, (b.inspect verify op).run fs = (c, fs) ∧
      (c = .missing ∨ c = .corrupt ↔ LacksBackup b verify fs op) := by
  rw [Backups.inspect.eq_def]
  by_cases hreq : op.requiresBackup = true
  swap
  · refine ⟨.notRequired, by simp [hreq], ?_⟩
    have hno : ¬LacksBackup b verify fs op := fun h => hreq (requiresBackup_iff.2 ⟨h.1, h.2.1⟩)
    simpa using hno
  have hlacks : LacksBackup b verify fs op ↔ (fs.linkStatus (b.pathFor op.id)).isOk = false ∨
      verify = true ∧ op.checksum ≠ none ∧
        (fs.read (b.pathFor op.id)).toOption.map Sha256.hexDigest ≠ op.checksum := by
    have hboth := requiresBackup_iff.1 hreq
    exact ⟨fun h => h.2.2, fun h => ⟨hboth.1, hboth.2, h⟩⟩
  have hpresent : (verify = false ∨ op.checksum = none) →
      ∃ c, (do if ← b.present op.id then return .intact else return .missing :
          Script Condition).run fs = (c, fs) ∧
        (c = .missing ∨ c = .corrupt ↔ LacksBackup b verify fs op) := by
    intro hplain
    rw [hlacks]
    simp only [Backups.present, run_bind, Files.present_run]
    cases hs : (fs.linkStatus (b.pathFor op.id)).isOk with
    | true =>
      refine ⟨.intact, rfl, ?_⟩
      rcases hplain with hplain | hplain <;> simp [hplain]
    | false => exact ⟨.missing, rfl, by simp⟩
  simp only [hreq, Bool.not_true, Bool.false_eq_true, if_false]
  cases hv : verify with
  | false => subst hv; exact hpresent (.inl rfl)
  | true =>
    cases hsum : op.checksum with
    | none => subst hv; exact hpresent (.inr hsum)
    | some sum =>
      subst hv
      rw [hlacks, hsum]
      simp only [run_bind, Backups.read_eq]
      cases hread : fs.read (b.pathFor op.id) with
      | ok c =>
        rw [isOk_linkStatus_of_read hread]
        by_cases hc : Sha256.hexDigest c = sum
        · exact ⟨.intact, by simp [hc], by simp [Except.toOption, hc]⟩
        · exact ⟨.corrupt, by simp [hc], by simp [Except.toOption, hc]⟩
      | error e =>
        by_cases hnf : e.isNotFound = true
        · exact ⟨.missing, by simp [hnf], by simp [Except.toOption]⟩
        · exact ⟨.corrupt, by simp [hnf], by simp [Except.toOption]⟩

/-! ### Assessing operations -/

namespace Preview

theorem assessContent_bad (op : Operation) (c : Backups.Condition) :
    ((assessContent op c).hasBackup = false ↔ c = .missing ∨ c = .corrupt) ∧
      ((assessContent op c).risk = .high ↔ c = .missing ∨ c = .corrupt) := by
  cases c with
  | notRequired =>
    rw [assessContent]
    split <;> simp
  | intact | missing | corrupt => simp [assessContent]

/-- An operation is assessed as risky and as without backup just where its backup is lacking. -/
theorem assess_eq (b : Backups) (verify : Bool) (op : Operation) (fs : FileSystem) :
    ∃ a, (assess b verify op).run fs = (a, fs) ∧
      (a.hasBackup = false ↔ LacksBackup b verify fs op) ∧
      (a.risk = .high ↔ LacksBackup b verify fs op) := by
  have hkeeps : op.kind ≠ .update → op.kind ≠ .delete → ¬LacksBackup b verify fs op :=
    fun hu hd h => h.1.elim hu hd
  rw [assess]
  cases hkind : op.kind with
  | update | delete =>
    obtain ⟨c, hc, hlacks⟩ := b.inspect_eq verify op fs
    obtain ⟨hback, hrisk⟩ := assessContent_bad op c
    exact ⟨assessContent op c, by simp only [run_bind, hc, run_pure], hback.trans hlacks,
      hrisk.trans hlacks⟩
  | move =>
    have hno := hkeeps (by simp [hkind]) (by simp [hkind])
    have hmove : ∀ present, (assessMove op present).hasBackup = true ∧
        (assessMove op present).risk ≠ .high := by
      intro present
      rw [assessMove]
      split
      · cases present <;> simp
      · simp
    cases hq : op.previousPath with
    | none =>
      exact ⟨assessMove op false, by simp, by simp [hmove, hno], by simp [hmove, hno]⟩
    | some q =>
      refine ⟨assessMove op (fs.linkStatus op.path).isOk, ?_, by simp [hmove, hno], by simp [hmove, hno]⟩
      simp only [Option.isNone_some, Bool.false_eq_true, if_false, run_bind, Files.present_run, run_pure]
  | chmod =>
    have hno := hkeeps (by simp [hkind]) (by simp [hkind])
    cases hmode : op.previousMode <;> exact ⟨_, rfl, by simp [hno], by simp [hno]⟩
  | create | copy | symlink | directoryCreate | envVariable | packageInstall =>
    have hno := hkeeps (by simp [hkind]) (by simp [hkind])
    exact ⟨_, rfl, by simp [hno], by simp [hno]⟩

structure Assessed (b : Backups) (verify : Bool) (fs : FileSystem) (op : Operation) (i : Item) :
    Prop where
  path : i.path = op.path
  hasBackup : i.hasBackup = false ↔ LacksBackup b verify fs op
  risk : i.risk = .high ↔ LacksBackup b verify fs op

theorem assessEach_eq (b : Backups) (verify : Bool) (ops : List Operation) (fs : FileSystem) :
    ∃ found, (assessEach b verify ops).run fs = (found, fs) ∧
      List.Forall₂ (Assessed b verify fs) ops (found.map (·.1)) := by
  induction ops with
  | nil => exact ⟨[], rfl, .nil⟩
  | cons op ops ih =>
    obtain ⟨a, ha, hback, hrisk⟩ := assess_eq b verify op fs
    obtain ⟨found, hfound, hall⟩ := ih
    exact ⟨(itemOf op a, a.warning) :: found, by simp only [assessEach, run_bind, ha, hfound, run_pure],
      .cons ⟨rfl, hback, hrisk⟩ hall⟩

theorem exists_iff_of_assessed {is : List Item} {P : Item → Prop}
    (h : List.Forall₂ (Assessed b verify fs) ops is)
    (hP : ∀ op i, Assessed b verify fs op i → (P i ↔ LacksBackup b verify fs op)) :
    (∃ i ∈ is, P i) ↔ ∃ op ∈ ops, LacksBackup b verify fs op := by
  induction h with
  | nil => simp
  | cons h _ ih => simp [hP _ _ h, ih]

theorem map_path_of_assessed {is : List Item} (h : List.Forall₂ (Assessed b verify fs) ops is) :
    (is.filter (!·.hasBackup)).map (·.path.display) =
      (ops.filter (LacksBackup b verify fs)).map (·.path.display) := by
  induction h with
  | nil => rfl
  | @cons op i _ _ h _ ih =>
    by_cases hl : LacksBackup b verify fs op
    · rw [List.filter_cons_of_pos (by simpa using h.hasBackup.2 hl),
        List.filter_cons_of_pos (by simpa using hl), List.map_cons, List.map_cons, ih, h.path]
    · have hback : i.hasBackup = true := by simpa using fun hc => hl (h.hasBackup.1 hc)
      rw [List.filter_cons_of_neg (by simp [hback]), List.filter_cons_of_neg (by simpa using hl), ih]

theorem overall_eq_high (rs : List Risk) : Risk.overall rs = .high ↔ .high ∈ rs := by
  rw [Risk.overall]
  split
  · next h => simp [h]
  · next h =>
    split <;> simp [h]

structure Reports (b : Backups) (verify : Bool) (fs : FileSystem) (t : Transaction) (p : Preview) :
    Prop where
  blocked : p.canProceed = false ↔ ∃ op ∈ t.operations, LacksBackup b verify fs op
  items : (∃ i ∈ p.items, i.hasBackup = false) ↔ ∃ op ∈ t.operations, LacksBackup b verify fs op
  risk : p.risk = .high ↔ ∃ op ∈ t.operations, LacksBackup b verify fs op
  paths : (p.items.filter (!·.hasBackup)).map (·.path.display) =
    (t.reversed.filter (LacksBackup b verify fs)).map (·.path.display)

theorem ofTransaction_eq (b : Backups) (verify : Bool) (t : Transaction) (fs : FileSystem) :
    ∃ p, (ofTransaction b verify t).run fs = (p, fs) ∧ Reports b verify fs t p := by
  obtain ⟨found, hfound, hall⟩ := assessEach_eq b verify t.reversed fs
  have hmem : (∃ op ∈ t.reversed, LacksBackup b verify fs op) ↔
      ∃ op ∈ t.operations, LacksBackup b verify fs op := by simp [Transaction.reversed]
  have hback := exists_iff_of_assessed hall fun _ _ h => h.hasBackup
  have hrisk := exists_iff_of_assessed hall fun _ _ h => h.risk
  refine ⟨_, by simp only [ofTransaction, run_bind, hfound, run_pure]; rfl, ?_⟩
  exact
    { items := hback.trans hmem
      blocked := by
        rw [← hmem, ← hback, List.all_eq_false]
        simp
      risk := by
        rw [overall_eq_high, ← hmem, ← hrisk, List.mem_map]
      paths := map_path_of_assessed hall }

end Preview

/-! ### Points and blocked rollbacks -/

namespace Manager

theorem previewOf_eq (m : Manager) (t : Transaction) (fs : FileSystem) :
    ∃ p, (m.previewOf t).run fs = (p, fs) ∧
      Preview.Reports m.backups m.settings.verifyChecksums fs t p :=
  Preview.ofTransaction_eq _ _ _ _

theorem pointsOf_eq (m : Manager) (ts : List Transaction) (fs : FileSystem) :
    (m.pointsOf ts).run fs = (ts.map fun t => pointOf t ((m.previewOf t).run fs).1, fs) := by
  induction ts with
  | nil => rfl
  | cons t ts ih =>
    obtain ⟨p, hp, -⟩ := m.previewOf_eq t fs
    simp only [pointsOf, run_bind, hp, ih, run_pure, List.map_cons]

/-- A point shows a transaction and what its preview says of it. -/
structure Shows (m : Manager) (fs : FileSystem) (t : Transaction) (point : Rollback.Point) : Prop where
  transactionId : point.transactionId = t.id
  name : point.name = t.name
  description : point.description = t.description
  command : point.command = t.command
  timestamp : point.timestamp = t.timestamp
  operationCount : point.operationCount = t.operations.length
  preview : ∃ p, (m.previewOf t).run fs = (p, fs) ∧ point.risk = p.risk ∧ point.canProceed = p.canProceed
  blocked : point.canProceed = false ↔
    ∃ op ∈ t.operations, LacksBackup m.backups m.settings.verifyChecksums fs op
  risk : point.risk = .high ↔
    ∃ op ∈ t.operations, LacksBackup m.backups m.settings.verifyChecksums fs op

theorem shows_pointOf (m : Manager) (fs : FileSystem) (t : Transaction) :
    m.Shows fs t (pointOf t ((m.previewOf t).run fs).1) := by
  obtain ⟨p, hp, hreports⟩ := m.previewOf_eq t fs
  rw [hp]
  exact
    { transactionId := rfl
      name := rfl
      description := rfl
      command := rfl
      timestamp := rfl
      operationCount := rfl
      preview := ⟨p, hp, rfl, rfl⟩
      blocked := hreports.blocked
      risk := hreports.risk }

theorem points_eq (m : Manager) (fs : FileSystem) :
    ∃ (ts : List Transaction) (points : List Rollback.Point),
      ts.Perm (m.history.values.filter (·.status = .completed)) ∧
      ts.Pairwise (fun t u => t.timestamp.lt u.timestamp = false) ∧
      m.points.run fs = (points, fs) ∧ List.Forall₂ (m.Shows fs) ts points :=
  ⟨_, _, (List.mergeSort_perm _ _).filter _, m.transactions_sorted.filter _, m.pointsOf_eq _ fs,
    List.forall₂_map_right_iff.2 (List.forall₂_same.2 fun t _ => m.shows_pointOf fs t)⟩

theorem blocked_eq (p : Preview) : blocked p = "Rollback blocked, missing backups: " ++
    String.intercalate ", " ((p.items.filter (!·.hasBackup)).map (·.path.display)) ++
    " (use force to proceed)" := by
  unfold blocked
  extract_lets missing
  congr 1

/-- A rollback that is blocked says so and is only counted. -/
theorem rollback_blocked (now : Instant) (hforce : options.force = false) {id : String} {p : Preview}
    (ht : m.transaction? id = some t) (hs : t.status = .completed)
    (hp : (m.previewOf t).run fs = (p, fs)) (hno : p.canProceed = false) :
    ∃ r m', (m.rollback now options id).run fs = ((r, m'), fs) ∧ r.success = false ∧
      r.rolledBackOperations = 0 ∧ r.skippedOperations = [] ∧ r.errors = [blocked p] ∧
      m' = { m with events := m'.events, counters := m'.counters } := by
  let m₁ := m.attempted.publish (.rollbackStarted t.id)
  let pending : Rollback.Pending :=
    ⟨{ transactionId := t.id, risk := p.risk, warnings := p.warnings, errors := [blocked p] }, []⟩
  have hexecute : (m₁.execute options t).run fs = (pending, fs) := by
    have hp₁ : (m₁.previewOf t).run fs = (p, fs) := hp
    simp only [execute, hs, run_bind, hp₁, hno, hforce, Bool.not_false, Bool.and_self, if_true,
      run_pure]
    rfl
  have hfinal : (m₁.finalize now options pending).run fs = (m₁.settle options pending.result, fs) := rfl
  have ht₁ : m.attempted.transaction? id = some t := ht
  refine ⟨(m₁.settle options pending.result).1, (m₁.settle options pending.result).2, ?_, rfl, rfl,
    rfl, rfl, rfl⟩
  simp only [rollback, ht₁, run_bind]
  change ((m₁.finalize now options ((m₁.execute options t).run fs).1).run
    ((m₁.execute options t).run fs).2) = _
  rw [hexecute, hfinal]

end Manager

/-- A preview cannot proceed just where its risk is high, which is where an operation lacks its
backup; the points show the previews of the completed transactions, newest first; and without force
such a transaction is not rolled back: its paths without backup are named and nothing changes. -/
theorem preview_decides {id : String} (ht : m.transaction? id = some t) (fs : FileSystem) :
    ∃ p, (m.preview id).run fs = (.ok p, fs) ∧ (m.previewOf t).run fs = (p, fs) ∧
      (p.canProceed = false ↔ p.risk = .high) ∧
      (p.risk = .high ↔ ∃ i ∈ p.items, i.hasBackup = false) ∧
      ((∃ i ∈ p.items, i.hasBackup = false) ↔
        ∃ op ∈ t.operations, LacksBackup m.backups m.settings.verifyChecksums fs op) ∧
      (∃ (ts : List Transaction) (points : List Rollback.Point),
        ts.Perm (m.history.values.filter (·.status = .completed)) ∧
        ts.Pairwise (fun t u => t.timestamp.lt u.timestamp = false) ∧
        m.points.run fs = (points, fs) ∧ List.Forall₂ (m.Shows fs) ts points) ∧
      ∀ (now : Instant) (options : Rollback.Options), options.force = false →
        t.status = .completed → p.canProceed = false →
        ∃ r m', (m.rollback now options id).run fs = ((r, m'), fs) ∧ r.success = false ∧
          r.rolledBackOperations = 0 ∧ r.skippedOperations = [] ∧
          r.errors = ["Rollback blocked, missing backups: " ++ String.intercalate ", "
            ((t.operations.reverse.filter
              (LacksBackup m.backups m.settings.verifyChecksums fs)).map (·.path.display)) ++
            " (use force to proceed)"] ∧
          m'.history = m.history ∧ m'.checkpoints = m.checkpoints ∧ m'.current = m.current := by
  obtain ⟨p, hp, hreports⟩ := m.previewOf_eq t fs
  refine ⟨p, ?_, hp, hreports.blocked.trans hreports.risk.symm, hreports.risk.trans hreports.items.symm,
    hreports.items, m.points_eq fs, ?_⟩
  · simp only [Manager.preview, ht, run_bind, hp, run_pure]
  · intro now options hforce hs hno
    obtain ⟨r, m', hrun, hsuccess, hcount, hskipped, herrors, hm'⟩ :=
      Manager.rollback_blocked now hforce ht hs hp hno
    have hsame : m'.history = m.history ∧ m'.checkpoints = m.checkpoints ∧ m'.current = m.current := by
      rw [hm']
      exact ⟨rfl, rfl, rfl⟩
    have hpaths := hreports.paths
    rw [Transaction.reversed] at hpaths
    rw [Manager.blocked_eq, hpaths] at herrors
    exact ⟨r, m', hrun, hsuccess, hcount, hskipped, herrors, hsame⟩

namespace Sample

def unsecured : Operation :=
  ⟨"o", .update, .ofString "/p/f", none, some "x", none, none, none, ⟨0, 0⟩, []⟩

def unsecuredTransaction : Transaction :=
  ⟨"t", "", "", "", [unsecured], ⟨0, 0⟩, .completed, none, []⟩

def unsecuredManager : Manager :=
  { Manager.fresh (.ofString "/p") {} ⟨256, []⟩ ⟨0, 0⟩ with history := [("t", unsecuredTransaction)] }

end Sample

theorem preview_decides_unsecured :
    ∃ p, (Sample.unsecuredManager.preview "t").run .empty = (.ok p, .empty) ∧ p.canProceed = false ∧
      ∃ r m', (Sample.unsecuredManager.rollback ⟨1, 0⟩ {} "t").run .empty = ((r, m'), .empty) ∧
        r.errors =
          ["Rollback blocked, missing backups: /p/f (use force to proceed)"] := by
  have hkept : Sample.unsecuredManager.transaction? "t" = some Sample.unsecuredTransaction := rfl
  obtain ⟨p, hp, -, hrisk, hitems, hlacks, -, hblocked⟩ := preview_decides hkept .empty
  have hno : p.canProceed = false :=
    hrisk.2 (hitems.2 (hlacks.2 ⟨Sample.unsecured, List.mem_singleton.2 rfl, by decide +kernel⟩))
  obtain ⟨r, m', hrun, -, -, -, herrors, -⟩ := hblocked ⟨1, 0⟩ {} rfl rfl hno
  refine ⟨p, hp, hno, r, m', hrun, ?_⟩
  rw [herrors]
  decide +kernel

end Retrace
