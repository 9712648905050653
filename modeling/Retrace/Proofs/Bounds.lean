import Retrace.Proofs.Attempts
import Retrace.Proofs.Outlying

/-!
What a rollback leaves alone. In the project only the places change that an operation reaches where it
is reverted, and of the state only the document of the transaction and the backups of its operations.
What is new has been put back, or is a directory that was missing above it (`rollback_spares`).
-/
namespace Retrace

open FileSystem Retrace.Path Script
open Manager (Keyed PlainIds)
open Rollback (Options Result Pending Disturbs)

variable {m : Manager} {g : Grounds} {fs fs' k : FileSystem} {now : Instant} {options : Options}
  {t : Transaction} {p : Pending} {id : String} {l : Location} {T : FileSystem → Location → Prop}

/-! ### Recording -/

namespace Manager

/-- The places of the document of a transaction and of the backups of its operations. -/
def Owns (m : Manager) (t : Transaction) (k : FileSystem) (l : Location) : Prop :=
  k.spot? (m.store.transactionPath t.id) = some l ∨
    ∃ op ∈ t.operations, op.requiresBackup = true ∧ k.spot? (m.backups.pathFor op.id) = some l

instance (m : Manager) (t : Transaction) (k : FileSystem) (l : Location) : Decidable (m.Owns t k l) :=
  inferInstanceAs (Decidable (_ ∨ ∃ _ ∈ _, _))

theorem within_saveTransaction {s : Store} (hs : fs.Sound) (hroot : s.root.isAbsolute = true) :
    (s.saveTransaction t).Within (Files.Writes fs (s.transactionPath t.id)) fs := by
  have hpath : (s.transactionPath t.id).isAbsolute = true := isAbsolute_join (isAbsolute_join hroot)
  rw [Store.saveTransaction]
  cases t.toText? with
  | none => exact Each.pure _
  | some text =>
    exact (Files.within_writeAtomic hs hpath).bind fun r _ _ => by cases r <;> exact Each.pure _

theorem within_removeBackups {b : Backups} {ids : List String}
    (h : ∀ i ∈ ids, ∀ k l, k.spot? (b.pathFor i) = some l → T k l) :
    (removeBackups b ids).Within T fs := by
  induction ids generalizing fs with
  | nil => exact Each.pure _
  | cons i ids ih =>
    refine (Files.within_removeIfPresent (h i List.mem_cons_self fs)).bind fun r _ _ => ?_
    refine (ih fun j hj => h j (List.mem_cons_of_mem _ hj)).bind fun rest _ _ => ?_
    cases r <;> exact Each.pure _

theorem within_markRolledBack (now : Instant) (hs : fs.Sound) (hroot : m.store.root.isAbsolute = true)
    (ht : m.transaction? t.id = some t) :
    (m.markRolledBack now t.id).Within (Files.Writes fs (m.store.transactionPath t.id)) fs ∧
      ((m.markRolledBack now t.id).run fs).1.2.backups = m.backups := by
  simp only [markRolledBack, ht]
  refine ⟨(within_saveTransaction (t := t.reverted now) hs hroot).bind fun r _ _ => ?_, ?_⟩
  · cases r <;> exact Each.pure _
  · rw [run_bind]
    split <;> rfl

/-- Recording a rollback hits what the transaction owns, what its document leads to if that is a link,
and places that were free. -/
theorem within_finalize (hs : fs.Sound) (hroot : m.store.root.isAbsolute = true)
    (howes : Owes t options p) (ht : m.transaction? t.id = some t) :
    (m.finalize now options p).Within
      (fun k l => m.Owns t k l ∨ Files.Beyond fs (m.store.transactionPath t.id) l ∨ fs.at l = none)
      fs := by
  obtain ⟨hmark, hbackups⟩ := within_markRolledBack now hs hroot ht
  rw [finalize]
  split
  · exact Each.pure _
  · rw [howes.id]
    refine (hmark.mono fun k l => Or.imp_left .inl).bind fun marked fs₁ hrun => ?_
    rw [hrun] at hbackups
    obtain ⟨e | u, m₁⟩ := marked
    · exact Each.pure _
    · dsimp only at hbackups ⊢
      split
      · exact Each.pure _
      · refine (within_removeBackups fun i hi k l hl => .inl (.inr ?_)).bind fun _ _ _ => Each.pure _
        obtain ⟨op, hop, hreq, rfl⟩ := howes.used i hi
        exact ⟨op, hop, hreq, hbackups ▸ hl⟩

theorem execute_spares (hs : fs.Sound) (hops : ∀ op ∈ t.operations, op.IsRooted) :
    Spares fs (Disturbs m.backups m.settings.verifyChecksums options t.reversed fs)
      ((m.execute options t).run fs).2 := by
  have hlooks := (m.looks_previewOf t).run fs
  rw [execute]
  split
  · exact Spares.refl hs
  · rw [run_bind, hlooks]
    split
    · exact Spares.refl hs
    · rw [run_bind]
      exact (Rollback.revertEach_spares hs fun op hop => hops op (List.mem_reverse.1 hop)).1
  · exact Spares.refl hs

end Manager

/-! ### The places of documents and backups -/

theorem FileSystem.Leads.of_spares {T : Location → Prop} {f : Path} {d : Location} (h : Leads fs f d)
    (hs : fs.Sound) (hk : Spares fs T k) (hT : ∀ l ∈ fs.way f, ¬T l) : Leads k f d := by
  obtain ⟨m, s, hwalk⟩ := h.walk
  refine ⟨h.absolute, h.noNul, h.tidy, m, s, ?_⟩
  refine (walks_of_walk hwalk).congr hs rfl ⟨_, at_nil fs⟩ fun l hl hsome => ?_
  obtain ⟨e, he⟩ := Option.isSome_iff_exists.1 hsome
  rw [he, hk.at_eq l e he (hT l hl)]

theorem FileSystem.Leads.spot? {f : Path} {d : Location} {w : Bytes} (h : Leads fs f d) (hw : IsName w)
    (hl : fs.spot? (f.join ⟨w⟩) = some l) : l = w :: d := by
  obtain ⟨m, s, hwalk⟩ := h.walk
  exact spot?_join h.absolute hw hwalk hl

theorem FileSystem.Leads.not_beyond {f : Path} {d : Location} {w : Bytes} (h : Leads fs f d) (hw : IsName w)
    (hleaf : ∀ q, fs.at (w :: d) ≠ some (.link q)) : ¬Files.Beyond fs (f.join ⟨w⟩) l := by
  rintro ⟨hlink, -⟩
  rcases h.aims_or_dead hw with ha | hdead
  · rw [ha.linkStatus] at hlink
    cases hx : fs.at (w :: d) with
    | none => simp [hx] at hlink
    | some e =>
      cases e with
      | link q => exact hleaf q hx
      | _ => simp [hx, Entry.kind] at hlink
  · obtain ⟨e, he, -⟩ := hdead.linkStatus
    rw [he] at hlink
    cases hlink

/-- The place of the document of a transaction, and those of the backups of its operations. -/
def Grounds.Holds (g : Grounds) (t : Transaction) (l : Location) : Prop :=
  l = documentName t.id :: g.transactions ∨
    ∃ op ∈ t.operations, op.requiresBackup = true ∧ l = backupName op.id :: g.backups

theorem Grounds.Holds.within (h : g.Holds t l) : g.Within l := by
  rcases h with rfl | ⟨op, -, -, rfl⟩ <;> exact g.within_cons (by simp [folders]) _

theorem Keeps.holds_of_owns {T : Location → Prop} (hk : Keeps g m.store fs) (hp : PlainIds m)
    (ht : m.transaction? t.id = some t) (hspares : Spares fs T k) (hT : ∀ l ∈ g.ways, ¬T l)
    (h : m.Owns t k l) : g.Holds t l := by
  rcases h with h | ⟨op, hop, hreq, h⟩
  · have hleads := hk.transactions.of_spares hk.sound hspares fun l hl =>
      hT l (by rw [← hk.ways]; simp [hl])
    exact .inl (hleads.spot? (isName_documentName (hp.transaction _ _ ht)) h)
  · have hleads := hk.backups.of_spares hk.sound hspares fun l hl =>
      hT l (by rw [← hk.ways]; simp [hl])
    exact .inr ⟨op, hop, hreq, hleads.spot? (isName_backupName (hp.operation _ _ ht op hop)) h⟩

/-- A rollback is recorded where nothing on the way to the directories has changed, nor the document:
what the transaction holds there may change too, and nothing else that stood. -/
theorem Keeps.finalize_spares_also {T : Location → Prop} (hk : Keeps g m.store fs) (hp : PlainIds m)
    (hroot : m.store.root.isAbsolute = true) (ht : m.transaction? t.id = some t)
    (howes : Manager.Owes t options p) (hdoc : (fs.at (documentName t.id :: g.transactions)).isSome)
    (hways : ∀ l ∈ g.ways, ¬T l) (hoff : ¬T (documentName t.id :: g.transactions))
    (hspares : Spares fs T fs') :
    Spares fs (fun l => T l ∨ g.Holds t l) ((m.finalize now options p).run fs').2 := by
  -- the document is the file that it was when the new one is written
  have hdirect : ∀ l, ¬Files.Beyond fs' (m.store.transactionPath t.id) l := by
    obtain ⟨e, he⟩ := Option.isSome_iff_exists.1 hdoc
    obtain ⟨mode, c, rfl⟩ := hk.files _ (by simp [Grounds.folders]) _ e he
    have hstays := hspares.at_eq _ _ he hoff
    have hleads := hk.transactions.of_spares hk.sound hspares fun l hl =>
      hways l (by rw [← hk.ways]; simp [hl])
    exact fun l => hleads.not_beyond (isName_documentName (hp.transaction _ _ ht)) fun q hq => by
      cases hstays.symm.trans hq
  refine (Manager.within_finalize hspares.sound hroot howes ht).spares_only
    (hspares.mono fun l _ => .inl) fun k hk' l hl h => ?_
  rcases h with h | h | h
  · exact .inr (hk.holds_of_owns hp ht hk' (fun l hl h => h.elim (hways l hl)
      fun h => hk.open_ways l hl h.within) h)
  · exact absurd h (hdirect l)
  · by_contra hc
    obtain ⟨e, he⟩ := Option.isSome_iff_exists.1 hl
    rw [hspares.at_eq l e he fun h => hc (.inl h)] at h
    cases h

/-- A rollback that has changed nothing in or above the directories is recorded: what the transaction
holds there may change too, and nothing else that stood. -/
theorem Keeps.finalize_spares {T : Location → Prop} (hk : Keeps g m.store fs) (hp : PlainIds m)
    (hroot : m.store.root.isAbsolute = true) (ht : m.transaction? t.id = some t)
    (howes : Manager.Owes t options p) (hdoc : (fs.at (documentName t.id :: g.transactions)).isSome)
    (hT : ∀ l, T l → g.Apart l) (hspares : Spares fs T fs') :
    Spares fs (fun l => T l ∨ g.Holds t l) ((m.finalize now options p).run fs').2 := by
  have hways : ∀ l ∈ g.ways, ¬T l := fun l hl h => (hT l h).not_suffix_way hl (List.suffix_refl l)
  have hoff : ∀ l, g.Within l → ¬T l := fun l hl h => (hT l h).not_within (List.suffix_refl l) hl
  exact hk.finalize_spares_also hp hroot ht howes hdoc hways
    (hoff _ (g.within_cons (by simp [Grounds.folders]) _)) hspares

/-! ### What is new -/

/-- The free places to which something comes when missing directories are made and others are filled
then. -/
def FileSystem.Receives (fs : FileSystem) (N : Path → Entry → Prop) (F : FileSystem → Location → Prop)
    (l : Location) : Prop :=
  fs.at l = none ∧ ∃ k, Grown fs N k ∧ ((k.at l).isSome ∨ F k l)

namespace Files

variable {p q : Path} {content : Bytes} {r : Except OsError Unit}

/-- The free places to which something comes when a file is written: its own, and those of directories
above it. -/
def Receives (p : Path) (fs : FileSystem) : Location → Prop :=
  fs.Receives (OnTheWay p) fun k l => k.spot? p = some l

theorem Written.receives (h : Written fs p content fs' r) (hs : fs.Sound) (hp : p.isAbsolute = true)
    (hl : fs.at l = none) (hsome : (fs'.at l).isSome) : Receives p fs l := by
  refine ⟨hl, ?_⟩
  cases h with
  | failed target made => exact ⟨fs', target.grown hs hp made, .inl hsome⟩
  | @whole q fs₁ j target made place old edit =>
    refine ⟨fs₁, target.grown hs hp made, ?_⟩
    by_cases hlj : l = j
    · subst hlj
      rcases place with hspot | ⟨-, hreal⟩
      · exact .inr hspot
      · obtain ⟨⟨e, he⟩, -⟩ := realLocation_spec hs hp hreal
        rw [hl] at he
        cases he
    · rw [edit.at_of_ne hlj] at hsome
      exact .inl hsome

/-- The free places to which something comes when an entry is moved: those of the target and all below,
that which the target leads to, and those of directories above it. -/
def Admits (q : Path) (fs : FileSystem) : Location → Prop :=
  fs.Receives (OnTheWay q) fun k l => (∃ j ∈ k.spot? q, j <:+ l) ∨ k.goal? q = some l

theorem MoveRun.admits {out : Except OsError Unit × FileSystem} (h : MoveRun fs p q out)
    (hq : q.isAbsolute = true) (hl : fs.at l = none) (hsome : (out.2.at l).isSome) : Admits q fs l := by
  refine ⟨hl, ?_⟩
  -- a call brings what is new, unless it has been there before the call
  have hcall : ∀ {c : Call} {k k' : FileSystem}, k.Sound → c.IsRooted → (c.perform k).2 = k' →
      (k'.at l).isSome → (k.at l).isSome ∨ c.Brings k l := fun {c k k'} hk hc hrun hsome => by
    cases hfree : k.at l with
    | none => exact .inr (Call.perform_brings hk hc hfree (hrun ▸ hsome))
    | some e => exact .inl rfl
  cases h with
  | @rested _ fs' made => exact ⟨fs', made, .inl hsome⟩
  | @renamed fs₁ fs' made rename =>
    have hrun : ((Call.rename p q).perform fs₁).2 = fs' := by rw [Call.perform, rename]; rfl
    exact ⟨fs₁, made, (hcall (c := .rename p q) made.sound hq hrun hsome).imp_right
      fun h => .inl h.2⟩
  | @copied fs₁ fs₂ made _ copy =>
    have hrun : ((Call.copy p q).perform fs₁).2 = fs₂ := by rw [Call.perform, copy]; rfl
    have hsound : fs₂.Sound := hrun ▸ (Call.perform_spares made.sound (c := .copy p q) hq).sound
    have hleft : (fs₂.at l).isSome := (hcall (c := .removeFile p) hsound trivial rfl hsome).resolve_right
      fun h => h.2
    exact ⟨fs₁, made, (hcall (c := .copy p q) made.sound hq hrun hleft).imp_right fun h => .inr h.2⟩

end Files

/-- The free places to which something comes when an operation is reverted: those where content or what
was moved is put back, and those of directories above. -/
def Operation.Brings (op : Operation) (fs : FileSystem) (l : Location) : Prop :=
  match op.kind with
  | .update | .delete => Files.Receives op.path fs l
  | .move => ∃ former ∈ op.previousPath, Files.Admits former fs l
  | _ => False

namespace Rollback

variable {b : Backups} {verify force : Bool} {op : Operation} {ops : List Operation} {o : Outcome}

theorem restoreBackup_receives (hs : fs.Sound) (hp : op.path.isAbsolute = true) (hl : fs.at l = none)
    (hsome : (((restoreBackup b verify force op).run fs).2.at l).isSome) : Files.Receives op.path fs l := by
  have hsame : ¬(fs.at l).isSome := by simp [hl]
  rw [restoreBackup, run_bind, b.read_eq] at hsome
  rcases hread : (fs.read (b.pathFor op.id)) with e | content
  · rw [hread] at hsome
    dsimp only at hsome
    split at hsome
    · exact absurd hsome hsame
    · exact absurd hsome hsame
    · next h => split at h <;> cases h
  · rw [hread] at hsome
    dsimp only at hsome
    split at hsome
    · exact absurd hsome hsame
    · refine (Files.writeAtomic_written hs hp content).receives hs hp hl ?_
      rw [run_bind] at hsome
      generalize (Files.writeAtomic op.path content).run.run fs = out at hsome ⊢
      obtain ⟨r, fs₁⟩ := out
      cases r <;> exact hsome

theorem restoreKnown_receives (hs : fs.Sound) (hp : op.path.isAbsolute = true) (hl : fs.at l = none)
    (hsome : (((restoreKnown op).run fs).2.at l).isSome) : Files.Receives op.path fs l := by
  rw [restoreKnown] at hsome
  split at hsome
  · next content _ =>
    refine (Files.writeAtomic_written hs hp (Utf8.encode content)).receives hs hp hl ?_
    rwa [run_bind] at hsome
  · split at hsome
    · have hfree := Puts.free (T := fun _ _ => True) hs (within_removeCreated fun _ _ => trivial)
        (puts_removeCreated op.path) hl
      rw [hfree] at hsome
      cases hsome
    · rw [run_pure, hl] at hsome
      cases hsome

theorem moveBack_admits (hs : fs.Sound) (hop : op.IsRooted) (hl : fs.at l = none)
    (hsome : (((moveBack force op).run fs).2.at l).isSome) :
    ∃ former ∈ op.previousPath, Files.Admits former fs l := by
  have hsame : ¬(fs.at l).isSome := by simp [hl]
  rw [moveBack] at hsome
  cases hformer : op.previousPath with
  | none =>
    rw [hformer] at hsome
    exact absurd hsome hsame
  | some former =>
    simp only [hformer, run_bind, Files.present_run] at hsome
    split at hsome
    · split at hsome <;> exact absurd hsome hsame
    split at hsome
    · exact absurd hsome hsame
    · have habs := hop.former former hformer
      rw [run_bind] at hsome
      exact ⟨former, rfl, (Files.move_stages hs habs).admits habs hl hsome⟩

/-- What is new where an operation has been reverted was put back, or is a directory that was missing
above that. -/
theorem revert_brings (hs : fs.Sound) (hop : op.IsRooted) (hl : fs.at l = none)
    (hsome : (((revert b verify force op).run fs).2.at l).isSome) : op.Brings fs l := by
  have hnone : op.restored? = none → op.Brings fs l := fun h => by
    rw [Puts.free hs (within_revert hs hop) (puts_revert_of_not_restored h) hl] at hsome
    cases hsome
  cases hkind : op.kind with
  | update | delete =>
    simp only [revert, hkind] at hsome
    simp only [Operation.Brings, hkind]
    split at hsome
    · exact restoreBackup_receives hs hop.path hl hsome
    · exact restoreKnown_receives hs hop.path hl hsome
  | move =>
    simp only [revert, hkind] at hsome
    simp only [Operation.Brings, hkind]
    exact moveBack_admits hs hop hl hsome
  | _ => exact hnone (by simp [Operation.restored?, hkind])

/-- What is new where operations have been reverted has come with one of them. -/
theorem revertEach_brings (hs : fs.Sound) (hops : ∀ op ∈ ops, op.IsRooted) (hl : fs.at l = none)
    (hsome : (((revertEach b verify options o ops).run fs).2.at l).isSome) :
    ∃ x ∈ reached b verify options ops fs, x.1.Brings x.2 l := by
  induction ops generalizing o fs with
  | nil =>
    rw [revertEach, run_pure, hl] at hsome
    cases hsome
  | cons op ops ih =>
    cases hdry : options.dryRun with
    | true =>
      rw [(revertEach_dry hdry o (op :: ops) fs).2, hl] at hsome
      cases hsome
    | false =>
      have hop := hops op List.mem_cons_self
      have hsound : ((revert b verify options.force op).run fs).2.Sound := (revert_spares hs hop).sound
      rw [revertEach_cons hdry] at hsome
      rw [reached_cons hdry]
      dsimp only at hsome ⊢
      cases hone : ((revert b verify options.force op).run fs).2.at l with
      | some e => exact ⟨_, List.mem_cons_self, revert_brings hs hop hl (by rw [hone]; rfl)⟩
      | none =>
        split at hsome
        · next hgo =>
          rw [if_pos hgo]
          obtain ⟨x, hx, hbrings⟩ := ih hsound (fun u hu => hops u (List.mem_cons_of_mem _ hu)) hone hsome
          exact ⟨x, List.mem_cons_of_mem _ hx, hbrings⟩
        · rw [hone] at hsome
          cases hsome

end Rollback

namespace Manager

theorem execute_brings (hs : fs.Sound) (hops : ∀ op ∈ t.operations, op.IsRooted) (hl : fs.at l = none)
    (hsome : (((m.execute options t).run fs).2.at l).isSome) :
    ∃ x ∈ Rollback.reached m.backups m.settings.verifyChecksums options t.reversed fs, x.1.Brings x.2 l := by
  have hsame : ¬(fs.at l).isSome := by simp [hl]
  have hlooks := (m.looks_previewOf t).run fs
  rw [execute] at hsome
  split at hsome
  · exact absurd hsome hsame
  · rw [run_bind, hlooks] at hsome
    split at hsome
    · exact absurd hsome hsame
    · rw [run_bind] at hsome
      exact Rollback.revertEach_brings hs (fun op hop => hops op (List.mem_reverse.1 hop)) hl hsome
  · exact absurd hsome hsame

theorem saveTransaction_receives {s : Store} (hs : fs.Sound) (hroot : s.root.isAbsolute = true)
    (hl : fs.at l = none) (hsome : (((s.saveTransaction t).run fs).2.at l).isSome) :
    Files.Receives (s.transactionPath t.id) fs l := by
  have hpath : (s.transactionPath t.id).isAbsolute = true := isAbsolute_join (isAbsolute_join hroot)
  rw [Store.saveTransaction, Store.save.eq_def] at hsome
  split at hsome
  · rw [run_pure, hl] at hsome
    cases hsome
  · next text _ =>
    refine (Files.writeAtomic_written hs hpath (Utf8.encode text)).receives hs hpath hl ?_
    rw [run_bind] at hsome
    generalize (Files.writeAtomic (s.transactionPath t.id) (Utf8.encode text)).run.run fs = out
      at hsome ⊢
    obtain ⟨r, fs₁⟩ := out
    cases r <;> exact hsome

theorem puts_removeBackups {b : Backups} {ids : List String} {N : FileSystem → Location → Prop} :
    (removeBackups b ids).Puts N fs := by
  induction ids generalizing fs with
  | nil => exact Each.pure _
  | cons i ids ih =>
    refine (Files.puts_removeIfPresent (b.pathFor i)).bind fun r _ _ => ?_
    refine ih.bind fun rest _ _ => ?_
    cases r <;> exact Each.pure _

/-- Recording a rollback brings no more than the document. -/
theorem Finalized.receives {out : (Result × Manager) × FileSystem}
    (h : Finalized m now options p t fs out) (hs : fs.Sound) (hroot : m.store.root.isAbsolute = true)
    (hl : fs.at l = none) (hsome : (out.2.at l).isSome) :
    Files.Receives (m.store.transactionPath t.id) fs l := by
  cases h with
  | quiet =>
    rw [hl] at hsome
    cases hsome
  | failed _ _ _ hsave =>
    exact saveTransaction_receives (t := t.reverted now) hs hroot hl (by rwa [hsave])
  | @recorded fs₁ fs₂ warnings _ _ _ hsave hremove =>
    refine saveTransaction_receives (t := t.reverted now) hs hroot hl ?_
    rw [hsave]
    by_contra hfree
    have hsound : fs₁.Sound := by
      have hsound := (Script.spares hs (within_saveTransaction (t := t.reverted now) hs hroot)).sound
      rwa [hsave] at hsound
    have hgone : fs₂.at l = none := by
      rw [show fs₂ = _ from congrArg Prod.snd hremove.symm]
      split
      · exact Option.not_isSome_iff_eq_none.1 hfree
      · exact Puts.free (T := fun _ _ => True) hsound (within_removeBackups fun _ _ _ _ _ => trivial)
          puts_removeBackups (Option.not_isSome_iff_eq_none.1 hfree)
    rw [hgone] at hsome
    cases hsome

end Manager

/-! ### Rolling back -/

theorem Manager.finalize_others (hid : p.result.transactionId = id) (ht : m.transaction? id = some t) :
    let m' := ((m.finalize now options p).run fs).1.2
    (∀ j, j ≠ id → m'.transaction? j = m.transaction? j) ∧
      m'.checkpoints = m.checkpoints ∧ m'.current = m.current := by
  subst hid
  have hcases : Finalized m now options p t fs ((m.finalize now options p).run fs) := finalize_cases ht
  have hput : ∀ u j, j ≠ p.result.transactionId →
      ({ m with history := m.history.put p.result.transactionId u } : Manager).transaction? j =
        m.transaction? j := fun u j hj => by rw [transaction?_put, if_neg hj]
  generalize (m.finalize now options p).run fs = out at hcases
  cases hcases with
  | quiet h => exact ⟨fun _ _ => rfl, rfl, rfl⟩
  | failed => exact ⟨hput _, rfl, rfl⟩
  | recorded => exact ⟨hput _, rfl, rfl⟩

/-- A rollback spares all that stands but what an operation reaches where it is reverted, and what the
transaction owns. What is new was put back by an operation where it is reverted, or is the document of the
transaction, or else is a directory that was missing above those. Only the transaction itself changes in
memory. Where the directories of the state are in place and no operation reaches a place in or above them,
all documents and backups but those of the transaction are spared. -/
theorem rollback_spares (now : Instant) (options : Options) (ht : m.transaction? id = some t)
    (hkeyed : Keyed m) (hs : fs.Sound) (hroot : m.store.root.isAbsolute = true) (hops : ∀ op ∈ t.operations, op.IsRooted) :
    let out := (m.rollback now options id).run fs
    let T := Disturbs m.backups m.settings.verifyChecksums options t.reversed fs
    Spares fs (fun l => T l ∨ ∃ x ∈ (m.rollback now options id).calls fs,
      m.Owns t x.2 l ∨ Files.Beyond x.2 (m.store.transactionPath id) l) out.2 ∧
    (∀ l, fs.at l = none → (out.2.at l).isSome →
      (∃ x ∈ Rollback.reached m.backups m.settings.verifyChecksums options t.reversed fs, x.1.Brings x.2 l) ∨
        ∃ k ∈ (m.rollback now options id).stages fs, Files.Receives (m.store.transactionPath id) k l) ∧
    (∀ j, j ≠ id → out.1.2.transaction? j = m.transaction? j) ∧
    out.1.2.checkpoints = m.checkpoints ∧ out.1.2.current = m.current ∧
    ∀ g, Keeps g m.store fs → PlainIds m → (fs.at (documentName id :: g.transactions)).isSome →
      (∀ l, T l → g.Apart l) →
      ∀ l e, fs.at l = some e → g.Within l → ¬g.Holds t l → out.2.at l = some e := by
  obtain rfl := hkeyed id t ht
  intro out T
  let m₁ := m.attempted.publish (.rollbackStarted t.id)
  have ht₁ : m₁.transaction? t.id = some t := ht
  let pending := (m₁.execute options t).run fs
  have hrollback : m.rollback now options t.id =
      (do let p ← m₁.execute options t; m₁.finalize now options p) := by
    simp only [Manager.rollback, show m.attempted.transaction? t.id = some t from ht]
    rfl
  have hout : out = (m₁.finalize now options pending.1).run pending.2 := by
    rw [show out = _ from congrArg (Script.run fs) hrollback, run_bind]
  have howes : Manager.Owes t options pending.1 := Manager.execute_owes m₁ options t fs
  have hexecute : Spares fs T pending.2 := Manager.execute_spares hs hops
  obtain ⟨hhistory, hcheckpoints, hcurrent⟩ :
      (∀ j, j ≠ t.id → out.1.2.transaction? j = m₁.transaction? j) ∧
        out.1.2.checkpoints = m₁.checkpoints ∧ out.1.2.current = m₁.current := by
    rw [hout]
    exact Manager.finalize_others howes.id ht₁
  refine ⟨?_, fun l hl hsome => ?_, hhistory, hcheckpoints, hcurrent,
    fun g hk hp hdoc hapart l e he hl hholds => ?_⟩
  · have hfinalize : Spares pending.2 (fun l => ∃ x ∈ (m₁.finalize now options pending.1).calls pending.2,
        m.Owns t x.2 l ∨ Files.Beyond x.2 (m.store.transactionPath t.id) l) out.2 := by
      have hwithin : (m₁.finalize now options pending.1).Within (fun k l => m.Owns t k l ∨
          Files.Beyond pending.2 (m.store.transactionPath t.id) l ∨ pending.2.at l = none) pending.2 :=
        Manager.within_finalize (m := m₁) hexecute.sound hroot howes ht₁
      rw [hout]
      exact spares_calls
        (T := fun k l => m.Owns t k l ∨ Files.Beyond k (m.store.transactionPath t.id) l)
        hexecute.sound (hwithin.mono fun k l h => h.imp .inl fun h => h.imp_left .inr)
    refine (hexecute.mono fun l _ => .inl).trans (hfinalize.mono fun l _ hl => ?_)
    obtain ⟨x, hx, h⟩ := hl
    refine .inr ⟨x, ?_, h⟩
    rw [hrollback]
    exact (mem_calls_bind _ _ fs x).2 (.inr hx)
  · cases hbrought : pending.2.at l with
    | some e => exact .inl (Manager.execute_brings (m := m₁) hs hops hl (by rw [hbrought]; rfl))
    | none =>
      rw [hout] at hsome
      have hfinalized : Manager.Finalized m₁ now options pending.1 t pending.2 _ :=
        Manager.finalize_cases (by rw [howes.id]; exact ht₁)
      refine .inr ⟨pending.2, ?_, hfinalized.receives hexecute.sound hroot hbrought hsome⟩
      rw [hrollback]
      exact (mem_stages_bind _ _ fs _).2 (.inl (mem_stages_run _ fs))
  · have hspared : Spares fs (fun l => T l ∨ g.Holds t l) out.2 := by
      rw [hout]
      exact hk.finalize_spares (m := m₁) ⟨hp.transaction, hp.operation⟩ hroot ht₁ howes hdoc hapart
        hexecute
    exact hspared.at_eq l e he (not_or.2
      ⟨fun h => (hapart l h).not_within (List.suffix_refl l) hl, hholds⟩)

namespace Sample

def created : Operation := manager.operationOf "o" ⟨0, 0⟩ .create (.ofString "f") {} none

def creation (id : String) : Transaction := ⟨id, "", "", "", [created], ⟨0, 0⟩, .completed, none, []⟩

def later : Manager := { manager with history := [("t", creation "t"), ("u", creation "u")] }

def filed : FileSystem :=
  { tree with
    entries := tree.entries ++
      [(documentName "t" :: grounds.transactions, .file 0o600 [1]),
        (documentName "u" :: grounds.transactions, .file 0o600 [2]),
        (backupName "v" :: grounds.backups, .file 0o600 [3])] }

def filedGrounds : Grounds := later.store.grounds filed [Utf8.encode ".xaheen", Utf8.encode "p"]

theorem filed_keeps : Keeps filedGrounds later.store filed := .of_laid (by decide +kernel)

theorem later_kept {id : String} {t : Transaction} (h : later.transaction? id = some t) :
    t = creation id ∧ Plain id := by
  have hmem : (id, t) ∈ later.history := Index.mem_of_get? h
  simp only [later, List.mem_cons, List.not_mem_nil, or_false, Prod.mk.injEq] at hmem
  rcases hmem with ⟨rfl, rfl⟩ | ⟨rfl, rfl⟩
  · exact ⟨rfl, by decide⟩
  · exact ⟨rfl, by decide⟩

end Sample

theorem rollback_spares_one_created :
    let out := (Sample.later.rollback ⟨1, 0⟩ {} "t").run Sample.filed
    out.1.1.success = true ∧ out.2.at [Utf8.encode "f", Utf8.encode "p"] = none ∧
      out.2.at [Utf8.encode "f", Utf8.encode "d", Utf8.encode "p"] = some (.file 0o644 [120]) ∧
      (∀ l, Sample.filed.at l = none → (out.2.at l).isSome →
        ∃ k ∈ (Sample.later.rollback ⟨1, 0⟩ {} "t").stages Sample.filed,
          Files.Receives (Sample.later.store.transactionPath "t") k l) ∧
      out.1.2.transaction? "u" = some (Sample.creation "u") ∧
      out.2.at (documentName "u" :: Sample.filedGrounds.transactions) = some (.file 0o600 [2]) ∧
      out.2.at (backupName "v" :: Sample.filedGrounds.backups) = some (.file 0o600 [3]) := by
  have ht : Sample.later.transaction? "t" = some (Sample.creation "t") := rfl
  have hkeyed : Keyed Sample.later := fun id t h => by rw [(Sample.later_kept h).1]; rfl
  have hplain : PlainIds Sample.later :=
    ⟨fun id t h => (Sample.later_kept h).2, fun id t h op hop => by
      rw [(Sample.later_kept h).1] at hop
      rw [List.mem_singleton.1 hop]
      decide +kernel⟩
  have hops : ∀ op ∈ (Sample.creation "t").operations, op.IsRooted := by
    intro op hop
    rw [List.mem_singleton.1 hop]
    exact ⟨by decide +kernel, nofun⟩
  obtain ⟨hspares, hnew, hothers, -, -, hstate⟩ := rollback_spares ⟨1, 0⟩ {} ht hkeyed
    Sample.filed_keeps.sound (by decide +kernel) hops
  have hholds : ∀ l, Sample.filedGrounds.Holds (Sample.creation "t") l →
      l = documentName "t" :: Sample.filedGrounds.transactions := by
    rintro l (rfl | ⟨op, hop, hreq, -⟩)
    · rfl
    · rw [List.mem_singleton.1 hop] at hreq
      cases hreq
  -- the one operation that is reverted reaches the file itself
  have hreached : ∀ x ∈ Rollback.reached Sample.later.backups true {} (Sample.creation "t").reversed
      Sample.filed, x.1.kind = .create ∧
        ∀ y ∈ (Rollback.revert Sample.later.backups true false x.1).calls x.2,
          y.2.spot? x.1.path = some [Utf8.encode "f", Utf8.encode "p"] := by decide +kernel
  have hdisturbs : ∀ l, Disturbs Sample.later.backups true {} (Sample.creation "t").reversed
      Sample.filed l → l = [Utf8.encode "f", Utf8.encode "p"] := by
    rintro l ⟨x, hx, y, hy, hl⟩
    obtain ⟨hkind, hspot⟩ := hreached x hx
    simp only [Operation.Reaches, hkind, hspot y hy, Option.some.injEq] at hl
    exact hl.symm
  have hapart : ∀ l, Disturbs Sample.later.backups true {} (Sample.creation "t").reversed
      Sample.filed l → Sample.filedGrounds.Apart l := fun l hl => by
    rw [hdisturbs l hl]
    decide +kernel
  have hcalls : ∀ x ∈ (Sample.later.rollback ⟨1, 0⟩ {} "t").calls Sample.filed,
      ¬Sample.later.Owns (Sample.creation "t") x.2
          [Utf8.encode "f", Utf8.encode "d", Utf8.encode "p"] ∧
        (x.2.linkStatus (Sample.later.store.transactionPath "t")).toOption ≠ some .link := by
    decide +kernel
  have hneighbour := hspares.at_eq [Utf8.encode "f", Utf8.encode "d", Utf8.encode "p"]
    (.file 0o644 [120]) (by decide +kernel) (by
      rintro (h | ⟨x, hx, h | h⟩)
      · exact absurd (hdisturbs _ h) (by decide +kernel)
      · exact (hcalls x hx).1 h
      · exact (hcalls x hx).2 (by rw [h.1]; rfl))
  have hdocument := hstate Sample.filedGrounds Sample.filed_keeps hplain (by decide +kernel) hapart
    (documentName "u" :: Sample.filedGrounds.transactions) (.file 0o600 [2]) (by decide +kernel)
    (by decide +kernel) fun h => absurd (hholds _ h) (by decide +kernel)
  have hbackup := hstate Sample.filedGrounds Sample.filed_keeps hplain (by decide +kernel) hapart
    (backupName "v" :: Sample.filedGrounds.backups) (.file 0o600 [3]) (by decide +kernel)
    (by decide +kernel) fun h => absurd (hholds _ h) (by decide +kernel)
  have hbrought : ∀ x ∈ Rollback.reached Sample.later.backups true {} (Sample.creation "t").reversed
      Sample.filed, ∀ l, ¬x.1.Brings x.2 l := fun x hx l h => by
    rw [Operation.Brings, (hreached x hx).1] at h
    exact h
  exact ⟨by decide +kernel, by decide +kernel, hneighbour,
    fun l hl hsome => (hnew l hl hsome).resolve_left fun ⟨x, hx, h⟩ => hbrought x hx l h,
    hothers "u" (by decide), hdocument, hbackup⟩

end Retrace
