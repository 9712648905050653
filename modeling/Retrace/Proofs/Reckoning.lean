import Retrace.Proofs.Outlying
import Retrace.Proofs.Touch

/-!
The reckoning of a run of operations that are reverted: which of them were handled, and what the
outcome says of each (`revertAll_reckoned`). A run goes from the last operation to the first, each on
the tree that the one before has left, and an error is the end of it unless it is forced.
-/
namespace Retrace.Rollback

open Script

variable {b : Backups} {verify force : Bool} {op : Operation} {ops : List Operation} {fs fs' : FileSystem}
  {options : Options} {o : Outcome} {a : Attempt}

namespace Attempt

def isDone (a : Attempt) : Bool :=
  match a.verdict with
  | .ok .done => true
  | _ => false

def isSkipped (a : Attempt) : Bool :=
  match a.verdict with
  | .ok .skipped => true
  | _ => false

def error? (a : Attempt) : Option Error :=
  match a.verdict with
  | .ok _ => none
  | .error e => some e

theorem isOk_verdict (a : Attempt) : a.verdict.isOk = a.error?.isNone := by
  rcases h : a.verdict with e | r <;> simp [error?, h, Except.isOk, Except.toBool]

end Attempt

/-! ### Operations that were handled -/

structure Handled where
  operation : Operation
  before : FileSystem
  attempt : Attempt
  after : FileSystem

namespace Handled

def complaint? (h : Handled) : Option String := h.attempt.error?.map (complaint h.operation)

/-- An operation that needs a backup was reverted. -/
def restored (h : Handled) : Bool := h.operation.requiresBackup && h.attempt.isDone

end Handled

/-- Operations are handled one after the other, each on the tree that the one before has left. -/
inductive Handles (b : Backups) (verify force : Bool) : FileSystem → List Handled → FileSystem → Prop
  | nil (fs : FileSystem) : Handles b verify force fs [] fs
  | cons {op : Operation} {a : Attempt} {fs fs₁ fs' : FileSystem} {hs : List Handled}
    (head : (revert b verify force op).run fs = (a, fs₁)) (rest : Handles b verify force fs₁ hs fs') :
    Handles b verify force fs (⟨op, fs, a, fs₁⟩ :: hs) fs'

variable {hs pre : List Handled} {h : Handled}

theorem Handles.run (hrun : Handles b verify force fs hs fs') (hmem : h ∈ hs) :
    (revert b verify force h.operation).run h.before = (h.attempt, h.after) := by
  induction hrun with
  | nil => cases hmem
  | cons head rest ih =>
    rcases List.mem_cons.1 hmem with rfl | hmem
    · exact head
    · exact ih hmem

/-- Each operation that was handled is counted once by an outcome, in the order in which they were
handled. -/
structure Outcome.Tallies (o : Outcome) (hs : List Handled) : Prop where
  done : o.rolledBack = hs.countP (·.attempt.isDone)
  skipped : o.skipped = (hs.filter (·.attempt.isSkipped)).map (·.operation.id)
  errors : o.errors = hs.filterMap Handled.complaint?
  warnings : o.warnings = hs.flatMap (·.attempt.warnings)
  consumed : o.consumedBackups = (hs.filter Handled.restored).map (·.operation.id)

theorem Outcome.Tallies.total (ht : o.Tallies hs) :
    o.rolledBack + o.skipped.length + o.errors.length = hs.length := by
  rw [ht.done, ht.skipped, ht.errors, List.length_map]
  clear ht
  induction hs with
  | nil => rfl
  | cons h hs ih =>
    rcases hv : h.attempt.verdict with e | _ | _ <;>
      simp [Handled.complaint?, Attempt.isDone, Attempt.isSkipped, Attempt.error?, hv] at ih ⊢ <;> omega

/-- Content came back from a backup: the file of the operation was read and its bytes were written. -/
structure Handled.FromBackup (b : Backups) (h : Handled) : Prop where
  kind : h.operation.kind = .update ∨ h.operation.kind = .delete
  reverted : h.attempt.verdict = .ok .done
  content : ∃ content, h.before.read (b.pathFor h.operation.id) = .ok content ∧
    (Files.writeAtomic h.operation.path content).run.run h.before = (.ok (), h.after)

/-- A backup that was restored was read, and its content written. -/
theorem restoreBackup_cases (b : Backups) (verify force : Bool) (op : Operation) (fs : FileSystem) :
    let out := (restoreBackup b verify force op).run fs
    out.1.isDone = true ∧ out.1.consumed = true ∧
        (∃ content, fs.read (b.pathFor op.id) = .ok content ∧
          (Files.writeAtomic op.path content).run.run fs = (.ok (), out.2)) ∨
      out.1.isDone = false ∧ out.1.consumed = false := by
  rw [restoreBackup, run_bind, b.read_eq]
  cases hread : fs.read (b.pathFor op.id) with
  | error e =>
    dsimp only
    split
    · exact .inr ⟨rfl, rfl⟩
    · exact .inr ⟨rfl, rfl⟩
    · next h => split at h <;> cases h
  | ok content =>
    dsimp only
    split
    · exact .inr ⟨rfl, rfl⟩
    · rw [run_bind]
      generalize hwrite : (Files.writeAtomic op.path content).run.run fs = out
      obtain ⟨r, fs₁⟩ := out
      cases r with
      | ok u => exact .inl ⟨rfl, rfl, content, rfl, hwrite⟩
      | error e => exact .inr ⟨rfl, rfl⟩

theorem consumed_revert (hrun : (revert b verify force op).run fs = (a, fs')) :
    a.consumed = (op.requiresBackup && a.isDone) := by
  cases hreq : op.requiresBackup with
  | false =>
    have hplain := plain_revert b verify force fs hreq
    rw [hrun] at hplain
    rw [hplain.consumed, Bool.false_and]
  | true =>
    have hcases := restoreBackup_cases b verify force op fs
    rw [← revert_of_requiresBackup b verify force hreq, hrun] at hcases
    rcases hcases with ⟨hdone, hconsumed, -⟩ | ⟨hdone, hconsumed⟩ <;> rw [hdone, hconsumed] <;> rfl

theorem Attempt.isDone_iff : a.isDone = true ↔ a.verdict = .ok .done := by
  rcases hv : a.verdict with e | _ | _ <;> simp [isDone, hv]

theorem Handles.fromBackup (hrun : Handles b verify force fs hs fs') (hmem : h ∈ hs)
    (hrestored : h.restored = true) : h.FromBackup b := by
  obtain ⟨hreq, hdone⟩ := Bool.and_eq_true_iff.1 hrestored
  have hcases := restoreBackup_cases b verify force h.operation h.before
  rw [← revert_of_requiresBackup b verify force hreq, hrun.run hmem] at hcases
  rcases hcases with ⟨-, -, hcontent⟩ | ⟨hnot, -⟩
  · exact ⟨(requiresBackup_iff.1 hreq).1, Attempt.isDone_iff.1 hdone, hcontent⟩
  · rw [hnot] at hdone
    cases hdone

theorem revert_unbacked (hreq : op.requiresBackup = false) (b b' : Backups) (verify force : Bool) :
    revert b' verify force op = revert b verify force op := by
  rw [revert, revert]
  cases op.kind <;> simp [hreq]

theorem Outcome.Tallies.add (ht : o.Tallies pre) (hrun : (revert b verify force op).run fs = (a, fs')) :
    (o.add op a).Tallies (pre ++ [⟨op, fs, a, fs'⟩]) := by
  have hconsumed := consumed_revert hrun
  have hrestored : Handled.restored ⟨op, fs, a, fs'⟩ = a.consumed := hconsumed.symm
  obtain ⟨h₁, h₂, h₃, h₄, h₅⟩ := ht
  rcases hv : a.verdict with e | _ | _ <;> constructor <;>
    simp [Outcome.add, Handled.complaint?, complaint, Attempt.isDone, Attempt.isSkipped, Attempt.error?,
      List.filter_cons, hrestored, hv, h₁, h₂, h₃, h₄, h₅] <;>
    split <;> simp

/-! ### How far a run comes -/

inductive Extent (force : Bool) (ops : List Operation) (hs : List Handled) : Prop
  | whole (all : hs.map (·.operation) = ops)
    (clean : force = true ∨ ∀ h ∈ hs, h.attempt.error? = none)
  | stopped {init : List Handled} {last : Handled} {rest : List Operation} {e : Error}
    (unforced : force = false) (split : hs = init ++ [last])
    (order : ops = hs.map (·.operation) ++ rest) (clean : ∀ h ∈ init, h.attempt.error? = none)
    (failed : last.attempt.error? = some e)

theorem Extent.cons (hx : Extent force ops hs) (hop : h.operation = op)
    (hgo : h.attempt.error? = none ∨ force = true) : Extent force (op :: ops) (h :: hs) := by
  cases hx with
  | whole all clean =>
    refine .whole (by rw [List.map_cons, all, hop]) ?_
    rcases hgo with hgo | hforce
    · exact clean.imp_right fun hclean x hx => (List.mem_cons.1 hx).elim (· ▸ hgo) (hclean x)
    · exact .inl hforce
  | @stopped init last rest e unforced split order clean failed =>
    have hgo := hgo.resolve_right (by simp [unforced])
    have hclean : ∀ x ∈ h :: init, x.attempt.error? = none :=
      fun x hx => (List.mem_cons.1 hx).elim (· ▸ hgo) (clean x)
    have horder : op :: ops = (h :: hs).map (·.operation) ++ rest := by
      rw [order, List.map_cons, hop, List.cons_append]
    exact .stopped unforced (by rw [split, List.cons_append]) horder hclean failed

theorem Extent.handled_prefix (hx : Extent force ops hs) : hs.map (·.operation) <+: ops := by
  cases hx with
  | whole all => exact all ▸ List.prefix_rfl
  | stopped unforced split order => exact ⟨_, order.symm⟩

theorem Extent.mem (hx : Extent force ops hs) (hmem : h ∈ hs) : h.operation ∈ ops :=
  hx.handled_prefix.subset (List.mem_map_of_mem hmem)

/-- What a run reports is the tally of the operations that it handled. -/
theorem revertEach_handled (hdry : options.dryRun = false) (ht : o.Tallies pre) (ops : List Operation)
    (fs : FileSystem) :
    let out := (revertEach b verify options o ops).run fs
    ∃ hs, Handles b verify options.force fs hs out.2 ∧ out.1.Tallies (pre ++ hs) ∧
      Extent options.force ops hs := by
  induction ops generalizing o pre fs with
  | nil => exact ⟨[], .nil fs, by rwa [List.append_nil], .whole rfl (.inr (by simp))⟩
  | cons op ops ih =>
    rw [revertEach_cons hdry]
    generalize hrun : (revert b verify options.force op).run fs = out
    obtain ⟨a, fs₁⟩ := out
    dsimp only
    by_cases hgo : (a.verdict.isOk || options.force) = true
    · rw [if_pos hgo]
      obtain ⟨hs, hsteps, htally, hextent⟩ := ih (ht.add hrun) fs₁
      refine ⟨⟨op, fs, a, fs₁⟩ :: hs, .cons hrun hsteps, by simpa using htally, hextent.cons rfl ?_⟩
      simpa [Attempt.isOk_verdict] using hgo
    · rw [if_neg hgo]
      simp only [Attempt.isOk_verdict, Bool.or_eq_true, not_or, Option.isNone_iff_eq_none,
        Bool.not_eq_true] at hgo
      obtain ⟨e, he⟩ := Option.ne_none_iff_exists'.1 hgo.1
      exact ⟨[⟨op, fs, a, fs₁⟩], .cons hrun (.nil fs₁), ht.add hrun,
        .stopped hgo.2 (List.nil_append _).symm rfl (by simp) he⟩

theorem revertAll_handled (hdry : options.dryRun = false) (b : Backups) (verify : Bool)
    (t : Transaction) (fs : FileSystem) :
    ∃ hs, Handles b verify options.force fs hs ((revertAll b verify options t).run fs).2 ∧
      ((revertAll b verify options t).run fs).1.Tallies hs ∧ Extent options.force t.reversed hs :=
  have hnone : Outcome.Tallies {} [] := ⟨rfl, rfl, rfl, rfl, rfl⟩
  revertEach_handled hdry hnone t.reversed fs

theorem Handles.append_inv {pre : List Handled} (h : Handles b verify force fs (pre ++ hs) fs') :
    ∃ k, Handles b verify force fs pre k ∧ Handles b verify force k hs fs' := by
  induction pre generalizing fs with
  | nil => exact ⟨fs, .nil fs, h⟩
  | cons x pre ih =>
    cases h with
    | cons head rest =>
      obtain ⟨k, hpre, hhs⟩ := ih rest
      exact ⟨k, .cons head hpre, hhs⟩

theorem Handles.revertEach_clean (hrun : Handles b verify options.force fs hs fs')
    (hdry : options.dryRun = false) (hclean : ∀ h ∈ hs, h.attempt.error? = none) (o : Outcome)
    (rest : List Operation) :
    (revertEach b verify options o (hs.map (·.operation) ++ rest)).run fs =
      (revertEach b verify options (hs.foldl (fun o h => o.add h.operation h.attempt) o) rest).run fs' := by
  induction hrun generalizing o with
  | nil => rfl
  | @cons op a fs fs₁ fs' hs head tail ih =>
    have hgo : a.error? = none := hclean ⟨op, fs, a, fs₁⟩ List.mem_cons_self
    rw [List.map_cons, List.cons_append, revertEach_cons hdry, head]
    simp only [Attempt.isOk_verdict, hgo, Option.isNone_none, Bool.true_or, if_true]
    exact ih (fun x hx => hclean x (List.mem_cons_of_mem _ hx)) _

theorem Handles.revertEach_stops {init : List Handled} {last : Handled} {e : Error}
    (hrun : Handles b verify options.force fs (init ++ [last]) fs') (hdry : options.dryRun = false)
    (hforce : options.force = false) (hclean : ∀ h ∈ init, h.attempt.error? = none)
    (hfailed : last.attempt.error? = some e) (o : Outcome) (rest : List Operation) :
    (revertEach b verify options o ((init ++ [last]).map (·.operation) ++ rest)).run fs =
      ((init ++ [last]).foldl (fun o h => o.add h.operation h.attempt) o, fs') := by
  obtain ⟨k, hinit, hlast⟩ := hrun.append_inv
  cases hlast with
  | cons head tail =>
    cases tail
    rw [List.map_append, List.append_assoc, hinit.revertEach_clean hdry hclean, List.foldl_append]
    simp only [List.map_cons, List.map_nil, List.cons_append, List.nil_append, List.foldl_cons,
      List.foldl_nil, revertEach_cons hdry, head, Attempt.isOk_verdict, hfailed]
    rw [hforce]
    rfl

/-- Operations are handled from the last to the first. A dry run counts them all and changes nothing.
Otherwise each that is handled is counted once, in that order, as reverted, skipped or failed, and the
backups that are used are those from which content came back; all are handled if forced or if none
fails. Else the one that fails is the last one handled, the only error, and those recorded before it
make no difference, whatever they are. -/
theorem revertAll_reckoned (b : Backups) (verify : Bool) (options : Options) (t : Transaction)
    (fs : FileSystem) :
    let out := (revertAll b verify options t).run fs
    (options.dryRun = true → out = ({ rolledBack := t.operations.length }, fs)) ∧
    (options.dryRun = false → ∃ hs, Handles b verify options.force fs hs out.2 ∧ out.1.Tallies hs ∧
      hs.map (·.operation) <+: t.operations.reverse ∧
      (∀ h ∈ hs, (h.restored = true → h.FromBackup b) ∧
        (h.operation.requiresBackup = false → ∀ b',
          (revert b' verify options.force h.operation).run h.before = (h.attempt, h.after))) ∧
      (options.force = true ∨ out.1.errors = [] → hs.map (·.operation) = t.operations.reverse ∧
        out.1.rolledBack + out.1.skipped.length + out.1.errors.length = t.operations.length) ∧
      (options.force = false → out.1.errors ≠ [] → ∃ i last e, hs.getLast? = some last ∧
        t.operations[i]? = some last.operation ∧ last.attempt.verdict = .error e ∧
        hs.map (·.operation) = (t.operations.drop i).reverse ∧
        out.1.errors = [complaint last.operation e] ∧
        ∀ earlier, (revertAll b verify options
          { t with operations := earlier ++ t.operations.drop i }).run fs = out)) := by
  intro out
  refine ⟨fun hdry => ?_, fun hdry => ?_⟩
  · change (revertEach b verify options {} t.reversed).run fs = _
    rw [(revertEach_dry hdry {} t.reversed fs).2, Transaction.reversed, List.length_reverse, Nat.zero_add]
  obtain ⟨hs, hrun, htally, hextent⟩ : ∃ hs, Handles b verify options.force fs hs out.2 ∧
      out.1.Tallies hs ∧ Extent options.force t.reversed hs := revertAll_handled hdry b verify t fs
  refine ⟨hs, hrun, htally, hextent.handled_prefix,
    fun h hmem => ⟨hrun.fromBackup hmem, fun hreq b' => ?_⟩, ?_, ?_⟩
  · rw [revert_unbacked hreq b b', hrun.run hmem]
  · intro hend
    have hall : hs.map (·.operation) = t.operations.reverse := by
      cases hextent with
      | whole all => exact all
      | @stopped init last rest e unforced split order clean failed =>
        have hnone := hend.resolve_left (by simp [unforced])
        rw [htally.errors, split] at hnone
        simp [Handled.complaint?, failed] at hnone
    refine ⟨hall, ?_⟩
    rw [htally.total, ← List.length_map (f := (·.operation)), hall, List.length_reverse]
  · intro hforce herrors
    cases hextent with
    | whole all clean =>
      refine absurd ?_ herrors
      rw [htally.errors, List.filterMap_eq_nil_iff]
      exact fun h hmem => by simp [Handled.complaint?, clean.resolve_left (by simp [hforce]) h hmem]
    | @stopped init last rest e unforced split order clean failed =>
      subst split
      -- what was recorded before the operation that failed is what is left of the reversed list
      have hoperations : t.operations =
          rest.reverse ++ ((init ++ [last]).map (·.operation)).reverse := by
        rw [← List.reverse_append, ← order, Transaction.reversed, List.reverse_reverse]
      have hdrop : t.operations.drop rest.length = ((init ++ [last]).map (·.operation)).reverse := by
        rw [hoperations, List.drop_left' List.length_reverse]
      refine ⟨rest.length, last, e, by simp, ?_, ?_, ?_, ?_, fun earlier => ?_⟩
      · rw [hoperations]
        simp
      · rcases hv : last.attempt.verdict with e' | r <;> simp_all [Attempt.error?]
      · rw [hdrop, List.reverse_reverse]
      · rw [htally.errors, List.filterMap_append, List.filterMap_eq_nil_iff.2 fun h hmem => by
          simp [Handled.complaint?, clean h hmem]]
        simp [Handled.complaint?, failed]
      · have hstops := hrun.revertEach_stops hdry unforced clean failed {}
        have hout : out = _ := (congrArg (Script.run fs) (congrArg _ order)).trans (hstops rest)
        rw [hout, ← hstops earlier.reverse, revertAll, Transaction.reversed, List.reverse_append, hdrop,
          List.reverse_reverse]

end Retrace.Rollback
