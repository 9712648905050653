import Retrace.Manager.Rollback
import Retrace.Proofs.Bracket

/-!
Operations one after the other, each with what undoes it. Reverting them, the last one first, leads
back to where they began (`Trail.revertEach_run`), and a preview finds all their backups.
-/
namespace Retrace

open FileSystem Retrace.Path Script

variable {g : Grounds} {s : Store} {fs fs₁ fs' R : FileSystem} {w : Bytes} {op : Operation}
  {x : Operation × Option Bytes} {xs : List (Operation × Option Bytes)} {verify : Bool}

inductive Trail (g : Grounds) (s : Store) (fs : FileSystem) :
    List (Operation × Option Bytes) → FileSystem → Prop
  | nil : Trail g s fs [] fs
  | snoc {xs : List (Operation × Option Bytes)} {x : Operation × Option Bytes}
    {fs₁ fs' : FileSystem} (h : Trail g s fs xs fs₁) (hx : Traced g s x fs₁ fs') :
    Trail g s fs (xs ++ [x]) fs'

namespace Trail

theorem keeps (h : Trail g s fs xs fs') (hk : Keeps g s fs) : Keeps g s fs' := by
  cases h with
  | nil => exact hk
  | snoc h hx => exact hx.keeps

theorem trans {ys : List (Operation × Option Bytes)} (h : Trail g s fs xs fs₁)
    (h' : Trail g s fs₁ ys fs') : Trail g s fs (xs ++ ys) fs' := by
  induction h' with
  | nil => rwa [List.append_nil]
  | snoc h' hx ih => rw [← List.append_assoc]; exact ih.snoc hx

theorem at_folders (h : Trail g s fs xs fs') {d : Location} (hd : d ∈ g.folders) :
    fs'.at d = fs.at d := by
  induction h with
  | nil => rfl
  | snoc h hx ih => rw [hx.folders d hd, ih]

theorem at_transactions (h : Trail g s fs xs fs') (w : Bytes) :
    fs'.at (w :: g.transactions) = fs.at (w :: g.transactions) := by
  induction h with
  | nil => rfl
  | snoc h hx ih => rw [hx.transactions, ih]

theorem at_backups (h : Trail g s fs xs fs') (hw : ∀ x ∈ xs, w ≠ backupName x.1.id) :
    fs'.at (w :: g.backups) = fs.at (w :: g.backups) := by
  induction h with
  | nil => rfl
  | snoc h hx ih =>
    rw [hx.backups w (hw _ (by simp)), ih fun y hy => hw y (by simp [hy])]

theorem secured (h : Trail g s fs xs fs') (hd : (xs.map (·.1.id)).Nodup) :
    ∀ x ∈ xs, Secured g s fs' x := by
  induction h with
  | nil => simp
  | @snoc xs x fs₁ fs' h hx ih =>
    rw [List.map_append, List.nodup_append] at hd
    intro y hy
    rcases List.mem_append.1 hy with hy | hy
    · refine (ih hd.1 y hy).congr hx.keeps (hx.backups _ fun heq => ?_)
      exact hd.2.2 _ (List.mem_map_of_mem hy) _ (by simp) (backupName_inj heq)
    · rw [List.mem_singleton.1 hy]
      exact hx.secured

/-! ### Reverting -/

/-- What has been added to an outcome when all operations were reverted. -/
structure Settled (o : Rollback.Outcome) (xs : List (Operation × Option Bytes))
    (o' : Rollback.Outcome) : Prop where
  rolledBack : o'.rolledBack = o.rolledBack + xs.length
  errors : o'.errors = o.errors
  skipped : o'.skipped = o.skipped
  consumed : ∀ id ∈ o'.consumedBackups, id ∈ o.consumedBackups ∨ ∃ x ∈ xs, id = x.1.id

theorem settled_add (o : Rollback.Outcome) (op : Operation) (b : Option Bytes) {a : Rollback.Attempt}
    (h : a.verdict = .ok .done) : Settled o [(op, b)] (o.add op a) := by
  constructor
  · simp [Rollback.Outcome.add, h]
  · simp [Rollback.Outcome.add, h]
  · simp [Rollback.Outcome.add, h]
  · intro id hid
    simp only [Rollback.Outcome.add, h, List.mem_append] at hid
    refine hid.imp_right fun hid => ⟨(op, b), by simp, ?_⟩
    split at hid
    · simpa using hid
    · simp at hid

/-- Reverting all operations on a tree that looks like the one in the end gives one that looks like
the one at the start. -/
theorem revertEach_run (verify : Bool) (h : Trail g s fs xs fs') {options : Rollback.Options}
    (hdry : options.dryRun = false) (hk : Keeps g s R) (hR : Alike g fs' R)
    (hsec : ∀ x ∈ xs, Secured g s R x) (o : Rollback.Outcome) :
    ∃ o' R', (Rollback.revertEach ⟨s.backupsDirectory⟩ verify options o
        (xs.map (·.1)).reverse).run R = (o', R') ∧
      Settled o xs o' ∧ Alike g fs R' ∧ Undisturbed g R R' := by
  induction h generalizing R o with
  | nil =>
    exact ⟨o, R, rfl, ⟨rfl, rfl, rfl, fun id hid => .inl hid⟩, hR, Undisturbed.refl hk.sound⟩
  | @snoc xs x fs₁ fs' h hx ih =>
    obtain ⟨a, R₁, hrun, hdone, -, halike, hund⟩ :=
      hx.undoes.revert R verify options.force hk hR (hsec x (by simp))
    obtain ⟨o', R', hrest, hset, halike', hund'⟩ := ih (hund.keeps hk) halike
      (fun y hy => (hsec y (by simp [hy])).undisturbed hk hund) (o.add x.1 a)
    refine ⟨o', R', ?_, ?_, halike', hund.trans hund'⟩
    · rw [List.map_append, List.reverse_append, List.map_singleton, List.reverse_singleton,
        List.singleton_append, Rollback.revertEach]
      simp only [hdry, Bool.false_eq_true, if_false, run_bind, hrun, hdone, hrest]
    · obtain ⟨h₁, h₂, h₃, h₄⟩ := settled_add o x.1 x.2 hdone
      refine ⟨?_, hset.errors.trans h₂, hset.skipped.trans h₃, fun id hid => ?_⟩
      · rw [hset.rolledBack, h₁, List.length_append]
        simp only [List.length_singleton]
        omega
      · rcases hset.consumed id hid with hid | ⟨y, hy, hid⟩
        · refine (h₄ id hid).imp_right fun ⟨y, hy, hid⟩ => ⟨y, ?_, hid⟩
          rw [List.mem_singleton.1 hy]
          simp
        · exact .inr ⟨y, by simp [hy], hid⟩

end Trail

/-! ### Previews -/

theorem Backed.present_run {b : Bytes} {id : String}
    (ha : Aims R s.backupsDirectory g.backups (backupName id)) (hb : Backed R g.backups id b) :
    (Backups.present ⟨s.backupsDirectory⟩ id).run R = (true, R) := by
  obtain ⟨m, hm, -⟩ := hb
  have hpresent := Files.Aims.present_run ha
  rw [hm] at hpresent
  exact hpresent

theorem inspect_run (verify : Bool) (hu : Undoes g s x.1 x.2 fs fs') (hsec : Secured g s R x) :
    ∃ c, (Backups.inspect ⟨s.backupsDirectory⟩ verify x.1).run R = (c, R) ∧
      (c = .notRequired ∨ c = .intact) := by
  rw [Backups.inspect.eq_def, hu.needs]
  cases hx : x.2 with
  | none => exact ⟨.notRequired, rfl, .inl rfl⟩
  | some b =>
    obtain ⟨hb, ha⟩ := hsec b hx
    refine ⟨.intact, ?_, .inr rfl⟩
    rw [hu.digest b hx]
    cases verify with
    | true =>
      simp only [Option.isSome_some, Bool.not_true, Bool.false_eq_true, if_false, run_bind,
        Backups.read_run ha hb, if_true, run_pure]
    | false =>
      simp only [Option.isSome_some, Bool.not_true, Bool.false_eq_true, if_false, run_bind,
        hb.present_run ha, if_true, run_pure]

theorem hasBackup_assessContent {c : Backups.Condition} (hc : c = .notRequired ∨ c = .intact) :
    (Preview.assessContent op c).hasBackup = true := by
  rcases hc with rfl | rfl
  · rw [Preview.assessContent]
    split <;> rfl
  · rfl

theorem assess_run (verify : Bool) (hu : Undoes g s x.1 x.2 fs fs') (hsec : Secured g s R x) :
    ∃ a, (Preview.assess ⟨s.backupsDirectory⟩ verify x.1).run R = (a, R) ∧ a.hasBackup = true := by
  obtain ⟨c, hc, hfound⟩ := inspect_run verify hu hsec
  rw [Preview.assess]
  cases hkind : x.1.kind with
  | update | delete =>
    simp only [run_bind, hc, run_pure]
    exact ⟨_, rfl, hasBackup_assessContent hfound⟩
  | move =>
    cases hq : x.1.previousPath with
    | none => exact ⟨_, rfl, by simp [Preview.assessMove, hq]⟩
    | some q =>
      simp only [Option.isNone_some, Bool.false_eq_true, if_false, run_bind, Files.present_run, run_pure]
      exact ⟨_, rfl, by simp [Preview.assessMove, hq]⟩
  | chmod => cases hm : x.1.previousMode <;> exact ⟨_, rfl, rfl⟩
  | _ => exact ⟨_, rfl, rfl⟩

theorem assessEach_run (verify : Bool)
    (hall : ∀ x ∈ xs, (∃ fs fs', Undoes g s x.1 x.2 fs fs') ∧ Secured g s R x) :
    ∃ found, (Preview.assessEach ⟨s.backupsDirectory⟩ verify (xs.map (·.1))).run R = (found, R) ∧
      ∀ i ∈ found, i.1.hasBackup = true := by
  induction xs with
  | nil => exact ⟨[], rfl, by simp⟩
  | cons x xs ih =>
    obtain ⟨⟨fs, fs', hu⟩, hsec⟩ := hall x (by simp)
    obtain ⟨a, ha, hback⟩ := assess_run verify hu hsec
    obtain ⟨found, hfound, hbacks⟩ := ih fun y hy => hall y (by simp [hy])
    refine ⟨(Preview.itemOf x.1 a, a.warning) :: found, ?_, ?_⟩
    · simp only [List.map_cons, Preview.assessEach, run_bind, ha, hfound, run_pure]
    · intro i hi
      rcases List.mem_cons.1 hi with rfl | hi
      · exact hback
      · exact hbacks i hi

namespace Trail

theorem undoes (h : Trail g s fs xs fs') : ∀ x ∈ xs, ∃ fs fs', Undoes g s x.1 x.2 fs fs' := by
  induction h with
  | nil => simp
  | snoc h hx ih =>
    intro y hy
    rcases List.mem_append.1 hy with hy | hy
    · exact ih y hy
    · rw [List.mem_singleton.1 hy]
      exact ⟨_, _, hx.undoes⟩

theorem preview_run (verify : Bool) (h : Trail g s fs xs fs') (hsec : ∀ x ∈ xs, Secured g s R x) {t : Transaction}
    (ht : t.operations = xs.map (·.1)) :
    ∃ p, (Preview.ofTransaction ⟨s.backupsDirectory⟩ verify t).run R = (p, R) ∧
      p.canProceed = true := by
  have hall : ∀ x ∈ xs.reverse, (∃ fs fs', Undoes g s x.1 x.2 fs fs') ∧ Secured g s R x :=
    fun x hx => ⟨h.undoes x (by simpa using hx), hsec x (by simpa using hx)⟩
  obtain ⟨found, hfound, hbacks⟩ := assessEach_run verify hall
  have hreversed : t.reversed = xs.reverse.map (·.1) := by
    rw [Transaction.reversed, ht, List.map_reverse]
  refine ⟨_, by simp only [Preview.ofTransaction, hreversed, run_bind, hfound, run_pure]; rfl, ?_⟩
  simpa using hbacks

end Trail

end Retrace
