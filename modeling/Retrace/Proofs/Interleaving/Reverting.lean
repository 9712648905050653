import Retrace.Proofs.Outlying
import Retrace.Proofs.Interleaving.Writing

/-!
Rollbacks among others. Each operation that a rollback reverts, and what it records in the end, comes to the
same result alone and among the others (`settles_revert`, `settles_conclude`).
-/
namespace Retrace

open FileSystem
open Retrace.Path (IsName dot)

def Operation.places (op : Operation) : List Path :=
  match op.kind with
  | .envVariable | .packageInstall => []
  | .move => op.path :: op.previousPath.toList
  | _ => [op.path]

namespace Manager

open Rollback (Options Result Pending)

/-- The paths that a rollback of a transaction uses: those of its document, of what it reverts and of the
backups. -/
def paths (m : Manager) (t : Transaction) : List Path :=
  m.store.transactionPath t.id ::
    t.operations.flatMap fun op =>
      op.places ++ if op.requiresBackup then [m.backups.pathFor op.id] else []

theorem place_mem_paths {m : Manager} {t : Transaction} {op : Operation} {p : Path}
    (hop : op ∈ t.operations) (hp : p ∈ op.places) : p ∈ m.paths t :=
  List.mem_cons_of_mem _ (List.mem_flatMap.2 ⟨op, hop, List.mem_append_left _ hp⟩)

theorem backup_mem_paths {m : Manager} {t : Transaction} {op : Operation} (hop : op ∈ t.operations)
    (hneeds : op.requiresBackup = true) : m.backups.pathFor op.id ∈ m.paths t := by
  refine List.mem_cons_of_mem _ (List.mem_flatMap.2 ⟨op, hop, List.mem_append_right _ ?_⟩)
  rw [if_pos hneeds]
  exact List.mem_singleton_self _

/-- The second part of a rollback, as far as it works on disk: the document and the backups. Besides the
result it says what memory is to keep of the transaction. -/
def conclude (m : Manager) (now : Instant) (options : Options) (p : Pending) :
    Script (Result × Option Transaction) := do
  if p.result.success || !p.result.errors.isEmpty || options.dryRun then return (p.result, none)
  else
    match m.transaction? p.result.transactionId with
    | none =>
      let e := Error.transactionNotFound p.result.transactionId
      return ({ p.result with errors := p.result.errors ++ [e.message] }, none)
    | some t =>
      match ← m.store.saveTransaction (t.reverted now) with
      | .error e => return ({ p.result with errors := p.result.errors ++ [e.message] }, some (restored t))
      | .ok () =>
        if options.preserveBackups then return (p.result, some (t.reverted now))
        else
          let warnings ← removeBackups m.backups p.consumedBackups
          return ({ p.result with warnings := p.result.warnings ++ warnings }, some (t.reverted now))

/-- A rollback as far as it works on disk. -/
def undo (m : Manager) (now : Instant) (options : Options) (t : Transaction) :
    Script (Result × Option Transaction) := do
  let p ← m.execute options t
  m.conclude now options p

end Manager

namespace Division

variable {ι : Type} {D : Division ι} {i : ι} {made : Location → Prop} {P : Path → Prop} {fs g : FileSystem}
  {p q : Path} {names ns : List Bytes} {w : Bytes} {b : Backups} {op : Operation} {options : Rollback.Options}
  {R : FileSystem → Prop} {verify force : Bool}

/-! ### Single files -/

section

variable (hD : D.Fair)
include hD

theorem settles_present (hp : P p) : D.Settles i made (D.Ready i made P) (Files.present p) fs := by
  refine .bind (.look (fun _ => rfl) fun hr g hm => ?_) (by split <;> exact .pure _)
  obtain ⟨names, rfl, hc⟩ := hr.calm hp
  exact hc.linkStatus hD hm

theorem settles_removeFile (hp : P p) :
    D.Settles i made (D.Ready i made P) (Script.ask (.removeFile p)) fs :=
  .ask fun hr g hm => by
    obtain ⟨names, rfl, hc⟩ := hr.calm hp
    exact (hc.removeFile hD hm).change hD hm

theorem settles_setMode (hp : P p) (mode : Nat) :
    D.Settles i made (D.Ready i made P) (Script.ask (.setMode p mode)) fs :=
  .ask fun hr g hm => by
    obtain ⟨names, rfl, hc⟩ := hr.calm hp
    exact (hc.setMode hD hm mode).change hD hm

theorem settles_removeIfPresent (hp : P p) :
    D.Settles i made (D.Ready i made P) (Files.removeIfPresent p).run fs := by
  refine .bind (settles_removeFile hD hp) ?_
  split
  · exact .pure _
  · split <;> exact .pure _

theorem settles_move (hp : P p) (hq : P q) :
    D.Settles i made (D.Ready i made P) (Files.move p q).run fs := by
  rw [Files.move, ExceptT.run_bind]
  refine .of_ready fun hr hs => ?_
  obtain ⟨names, rfl, hc⟩ := hr.calm hq
  refine .bind ((settles_ensureParent hD).mono fun r _ hr => ⟨hr.calm_names hc.isName hq, hr.made⟩) ?_
  cases hok : ((Files.ensureParent (Path.ofNames true names)).run.run fs).1 with
  | error e => exact .pure _
  | ok u =>
    obtain ⟨w, ns, rfl⟩ := List.exists_cons_of_ne_nil hc.ne_nil
    have hup := linkStatus_of_ensureParent hs hc.isName hok
    generalize ((Files.ensureParent (Path.ofNames true (w :: ns))).run.run fs).2 = fs₁ at hup
    refine .next (fun hready g hm _ => .inr ?_) ?_
    · have hr := hready fs₁ (Script.mem_stages_self _ fs₁)
      obtain ⟨ms, rfl, hc'⟩ := hr.calm hp
      obtain ⟨v, ms, rfl⟩ := List.exists_cons_of_ne_nil hc'.ne_nil
      have hq' := (hr.calm_names hc.isName hq).abreast hD hm hup
      rcases hc'.rename hD hm hc.isName hq' with ⟨e, e', he, he'⟩ | hlike
      · simp only [Call.perform, he, he', Call.change]
        exact ⟨trivial, .refl hm.among, hm⟩
      · obtain ⟨hreply, hrest⟩ := hlike.change hD hm
        refine ⟨?_, hrest⟩
        simp only [Call.perform, hreply]
    · rw [Call.perform]
      cases fs₁.rename p (Path.ofNames true (w :: ns)) with
      | ok fs₂ => exact .pure _
      | error e =>
        simp only [Call.change, ExceptT.run_bind]
        refine .bind (.ask fun hr g hm => ?_) ?_
        · obtain ⟨ms, rfl, hc'⟩ := hr.calm hp
          have hcalm := hr.calm_names hc.isName hq
          exact (hc'.copy hD hcalm hm (hcalm.abreast hD hm hup)).change hD hm
        · split
          · exact settles_removeFile hD hp
          · exact .pure _

/-! ### Backups -/

theorem settles_read (hp : P (b.pathFor op.id)) :
    D.Settles i made (D.Ready i made P) (b.read op.id) fs := by
  refine .bind (.look (fun _ => rfl) fun hr g hm => ?_) ?_
  · obtain ⟨names, heq, hc⟩ := hr.calm hp
    simp only [Call.perform, heq]
    exact hc.read hD hm
  · split
    · exact .pure _
    · split <;> exact .pure _

theorem settles_inspect (hp : op.requiresBackup = true → P (b.pathFor op.id)) :
    D.Settles i made (D.Ready i made P) (b.inspect verify op) fs := by
  unfold Backups.inspect
  by_cases hneeds : op.requiresBackup = true
  swap
  · rw [if_pos (by simpa using hneeds)]
    exact .pure _
  rw [if_neg (by simpa using hneeds)]
  split
  · refine .bind (settles_read hD (hp hneeds)) ?_
    split <;> exact .pure _
  · refine .bind (settles_present hD (hp hneeds)) ?_
    split <;> exact .pure _

/-! ### Previews -/

theorem settles_assess (hop : ∀ q ∈ op.places, P q) (hp : op.requiresBackup = true → P (b.pathFor op.id)) :
    D.Settles i made (D.Ready i made P) (Preview.assess b verify op) fs := by
  rw [Preview.assess]
  split
  · exact .pure _
  · exact .pure _
  · exact .pure _
  · exact .pure _
  · exact .bind (settles_inspect hD hp) (.pure _)
  · exact .bind (settles_inspect hD hp) (.pure _)
  · next hkind =>
    split
    · exact .pure _
    · exact .bind (settles_present hD (hop _ (by rw [Operation.places, hkind]; exact List.mem_cons_self))) (.pure _)
  · split <;> exact .pure _
  · exact .pure _
  · exact .pure _

theorem settles_assessEach {ops : List Operation} (hops : ∀ op ∈ ops, ∀ q ∈ op.places, P q)
    (hp : ∀ op ∈ ops, op.requiresBackup = true → P (b.pathFor op.id)) :
    D.Settles i made (D.Ready i made P) (Preview.assessEach b verify ops) fs := by
  induction ops generalizing fs with
  | nil => exact .pure _
  | cons op ops ih =>
    refine .bind (settles_assess hD (hops op List.mem_cons_self) (hp op List.mem_cons_self)) (.bind ?_ (.pure _))
    exact ih (fun o ho => hops o (List.mem_cons_of_mem op ho)) fun o ho => hp o (List.mem_cons_of_mem op ho)

/-! ### Reverting -/

theorem settles_removeCreated (hp : P p) :
    D.Settles i made (D.Ready i made P) (Rollback.removeCreated p) fs :=
  .bind (settles_removeIfPresent hD hp) (.pure _)

theorem settles_moveBack (hkind : op.kind = .move) (hop : ∀ q ∈ op.places, P q) :
    D.Settles i made (D.Ready i made P) (Rollback.moveBack force op) fs := by
  rw [Rollback.moveBack]
  split
  · exact .pure _
  · next former hformer =>
    have hp : P op.path := hop _ (by rw [Operation.places, hkind]; exact List.mem_cons_self)
    have hq : P former := hop _ (by rw [Operation.places, hkind, hformer]; simp)
    refine .bind (settles_present hD hp) (.bind (settles_present hD hq) ?_)
    split
    · split <;> exact .pure _
    · split
      · exact .pure _
      · exact .bind (settles_move hD hp hq) (.pure _)

theorem settles_removeLink (hp : P p) : D.Settles i made (D.Ready i made P) (Rollback.removeLink p) fs := by
  refine .bind (.look (fun _ => rfl) fun hr g hm => ?_) ?_
  · obtain ⟨names, rfl, hc⟩ := hr.calm hp
    exact hc.linkStatus hD hm
  · split
    · exact .bind (settles_removeFile hD hp) (.pure _)
    · exact .pure _
    · split <;> exact .pure _

/-- The names in a directory may come in another order, but only whether there are any is asked. -/
theorem settles_removeDirectory (hp : P p) :
    D.Settles i made (D.Ready i made P) (Rollback.removeDirectory p) fs := by
  refine .bind (settles_present hD hp) ?_
  split
  · exact .pure _
  refine .next (fun hready g hm _ => .inr ⟨?_, .refl hm.among, hm⟩) ?_
  · have hr := hready _ (Script.mem_stages_self _ _)
    obtain ⟨names, rfl, hc⟩ := hr.calm hp
    rcases hc.list hD hm with ⟨e, he, he'⟩ | ⟨xs, ys, hxs, hys, hiff⟩
    · simp only [Call.perform, he, he']
    · simp only [Call.perform, hxs, hys]
      cases xs with
      | nil => rw [hiff.1 rfl]
      | cons x xs =>
        cases ys with
        | nil => cases hiff.2 rfl
        | cons y ys => rfl
  · split
    · exact .pure _
    · exact .bind (.ask fun hr g hm => by
        obtain ⟨names, rfl, hc⟩ := hr.calm hp
        exact (hc.removeDirectory hD hm).change hD hm) (.pure _)
    · exact .pure _

theorem settles_restoreMode (hp : P op.path) :
    D.Settles i made (D.Ready i made P) (Rollback.restoreMode op) fs := by
  rw [Rollback.restoreMode]
  split
  · exact .pure _
  · refine .bind (settles_present hD hp) ?_
    split
    · exact .bind (settles_setMode hD hp _) (.pure _)
    · exact .pure _

theorem settles_restoreKnown (hp : P op.path) :
    D.Settles i made (D.Ready i made P) (Rollback.restoreKnown op) fs := by
  rw [Rollback.restoreKnown]
  split
  · exact .bind (settles_writeAtomic hD hp _) (.pure _)
  · split
    · exact settles_removeCreated hD hp
    · exact .pure _

theorem settles_restoreBackup (hp : P op.path) (hb : P (b.pathFor op.id)) :
    D.Settles i made (D.Ready i made P) (Rollback.restoreBackup b verify force op) fs := by
  refine .bind (settles_read hD hb) ?_
  split
  · exact .pure _
  · exact .pure _
  · dsimp only
    split
    · exact .pure _
    · refine .bind (settles_writeAtomic hD hp _) ?_
      split <;> exact .pure _

/-- Reverting an operation comes to the same alone and among others. -/
theorem settles_revert (hop : ∀ q ∈ op.places, P q) (hb : op.requiresBackup = true → P (b.pathFor op.id)) :
    D.Settles i made (D.Ready i made P) (Rollback.revert b verify force op) fs := by
  have hp : op.kind ≠ .envVariable → op.kind ≠ .packageInstall → P op.path := fun hne hne' => hop _ (by
    rw [Operation.places]
    cases hkind : op.kind <;> first | exact List.mem_cons_self | exact absurd hkind hne | exact absurd hkind hne')
  rw [Rollback.revert]
  cases hkind : op.kind <;> dsimp only
  case create | copy => exact settles_removeCreated hD (hp (by simp [hkind]) (by simp [hkind]))
  case update | delete =>
    split
    · next hneeds => exact settles_restoreBackup hD (hp (by simp [hkind]) (by simp [hkind])) (hb hneeds)
    · exact settles_restoreKnown hD (hp (by simp [hkind]) (by simp [hkind]))
  case move => exact settles_moveBack hD hkind hop
  case symlink => exact settles_removeLink hD (hp (by simp [hkind]) (by simp [hkind]))
  case directoryCreate => exact settles_removeDirectory hD (hp (by simp [hkind]) (by simp [hkind]))
  case chmod => exact settles_restoreMode hD (hp (by simp [hkind]) (by simp [hkind]))
  case envVariable | packageInstall => exact .pure _

theorem settles_revertEach {ops : List Operation} (hops : ∀ op ∈ ops, ∀ q ∈ op.places, P q)
    (hp : ∀ op ∈ ops, op.requiresBackup = true → P (b.pathFor op.id)) (o : Rollback.Outcome) :
    D.Settles i made (D.Ready i made P) (Rollback.revertEach b verify options o ops) fs := by
  induction ops generalizing fs o with
  | nil => exact .pure _
  | cons op ops ih =>
    have hrest : ∀ {fs} (o : Rollback.Outcome), D.Settles i made (D.Ready i made P)
        (Rollback.revertEach b verify options o ops) fs := fun o =>
      ih (fun o ho => hops o (List.mem_cons_of_mem op ho)) (fun o ho => hp o (List.mem_cons_of_mem op ho)) o
    rw [Rollback.revertEach]
    split
    · exact hrest _
    · refine .bind (settles_revert hD (hops op List.mem_cons_self) (hp op List.mem_cons_self)) ?_
      dsimp only
      split
      · exact .pure _
      · exact hrest _

theorem settles_removeBackups {ids : List String} (hp : ∀ id ∈ ids, P (b.pathFor id)) :
    D.Settles i made (D.Ready i made P) (Manager.removeBackups b ids) fs := by
  induction ids generalizing fs with
  | nil => exact .pure _
  | cons id ids ih =>
    refine .bind (settles_removeIfPresent hD (hp id List.mem_cons_self)) (.bind ?_ ?_)
    · exact ih fun id hid => hp id (List.mem_cons_of_mem _ hid)
    · split <;> exact .pure _

/-! ### Whole transactions -/

variable {m : Manager} {t : Transaction} {now : Instant}

theorem settles_execute (hP : ∀ p, p ∈ m.paths t → P p) :
    D.Settles i made (D.Ready i made P) (m.execute options t) fs := by
  have hops : ∀ op ∈ t.reversed, ∀ q ∈ op.places, P q := fun op hop q hq =>
    hP q (Manager.place_mem_paths (List.mem_reverse.1 hop) hq)
  have hbackups : ∀ op ∈ t.reversed, op.requiresBackup = true → P (m.backups.pathFor op.id) :=
    fun op hop hneeds => hP _ (Manager.backup_mem_paths (List.mem_reverse.1 hop) hneeds)
  rw [Manager.execute]
  split
  · exact .pure _
  · refine .bind (.bind (settles_assessEach hD hops hbackups) (.pure _)) ?_
    dsimp only
    split
    · exact .pure _
    · exact .bind (settles_revertEach hD hops hbackups _) (.pure _)
  · exact .pure _

theorem settles_saveTransaction {s : Store} (hp : P (s.transactionPath t.id)) :
    D.Settles i made (D.Ready i made P) (s.saveTransaction t) fs := by
  unfold Store.saveTransaction Store.save
  split
  · exact .pure _
  · refine .bind (settles_writeAtomic hD hp _) ?_
    split <;> exact .pure _

theorem settles_conclude {p : Rollback.Pending} (ht : m.transaction? t.id = some t)
    (howes : Manager.Owes t options p) (hP : ∀ p, p ∈ m.paths t → P p) :
    D.Settles i made (D.Ready i made P) (m.conclude now options p) fs := by
  rw [Manager.conclude, howes.id, ht]
  split
  · exact .pure _
  · refine .bind (settles_saveTransaction (t := t.reverted now) hD (hP _ List.mem_cons_self)) ?_
    split
    · exact .pure _
    · split
      · exact .pure _
      · refine .bind (settles_removeBackups hD fun id hid => ?_) (.pure _)
        obtain ⟨op, hop, hneeds, rfl⟩ := howes.used id hid
        exact hP _ (Manager.backup_mem_paths hop hneeds)

theorem settles_undo (ht : m.transaction? t.id = some t) (hP : ∀ p, p ∈ m.paths t → P p) :
    D.Settles i made (D.Ready i made P) (m.undo now options t) fs :=
  .bind (settles_execute hD hP) (settles_conclude hD ht (Manager.execute_owes m options t fs) hP)

end

end Division
end Retrace
