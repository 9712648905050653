import Retrace.Proofs.Ancestors
import Retrace.Proofs.DryRun
import Retrace.Proofs.Failing
import Retrace.Proofs.Reckoning

/-!
What an attempt to revert an operation leaves where it comes to nothing (`revert_all_or_nothing`). Where
there was nothing to revert the tree is as it was. Where reverting failed all that stood still stands,
and at most directories have come that were missing above the paths of the operation; but a move that
cannot be made by renaming is made by copying, and what was copied may be where nothing can be removed
(`Operation.Halved`).
-/
namespace Retrace

open FileSystem Script
open Retrace.Path (IsName ofNames)

namespace FileSystem

variable {fs fs' fs₁ : FileSystem} {p q source target : Path} {l j : Location} {N : Path → Entry → Prop}

theorem Grown.of_entry (h : Grown fs (Files.OnTheWay (ofNames true j)) fs') (hs : fs.Sound)
    (hn : ∀ w ∈ j, IsName w) (hj : (fs.at j).isSome) : Grown fs N fs' where
  toSpares := h.toSpares
  new l e hl he := by
    obtain ⟨f, -, hspot, habove, -⟩ := h.new l e hl he
    obtain ⟨i, hi, hne, rfl⟩ := habove.of_ofNames rfl hn
    obtain ⟨x, hx⟩ := Option.isSome_iff_exists.1 hj
    have hway : ∀ k, k <:+ i → ∃ m, fs.at k = some (.directory m) := fun k hk =>
      hs.above hx (hk.trans hi) fun hc => hne (hi.eq_of_length (by
        have := (hc ▸ hk).length_le
        have := hi.length_le
        omega))
    obtain rfl := spot?_ofNames (fun v hv => hn v (hi.subset hv)) (fun k hk _ => by
      obtain ⟨m, hm⟩ := hway k hk
      exact ⟨m, h.at_eq k _ hm id⟩) hspot
    obtain ⟨m, hm⟩ := hway l (List.suffix_refl l)
    rw [hm] at hl
    cases hl

/-- A path of names under which a file is found ends at a name in a directory, where the file or a link
stands. -/
theorem aims_of_entryAt {names : List Bytes} {m : Nat} {c : Bytes} (hs : fs.Sound)
    (hn : ∀ v ∈ names, IsName v)
    (h : named (ofNames true names) (fs.entryAt true (ofNames true names)) = .ok (l, .file m c)) :
    ∃ w i d e, names = w :: i ∧ Aims fs (ofNames true i) d w ∧ fs.at (w :: d) = some e ∧
      e.isDirectory = false := by
  have hentry := eq_ok_of_named h
  cases names with
  | nil =>
    have hroot : fs.entryAt true (ofNames true []) = .ok ([], .directory fs.rootMode) := rfl
    rw [hroot] at hentry
    cases hentry
  | cons w i =>
    have hi : ∀ v ∈ i, IsName v := fun v hv => hn v (List.mem_cons_of_mem _ hv)
    have hw := hn w List.mem_cons_self
    rw [← Path.ofNames_join i hi hw] at h hentry
    obtain ⟨r, hr, -⟩ := exists_of_bind hentry
    obtain ⟨d, ha⟩ := aims_of_find hs rfl (Path.tidy_ofNames hi) hw (noNul_of_named h) hr
    cases hx : fs.at (w :: d) with
    | none =>
      rw [ha.entryAt (.inr (by simp [hx])), hx] at hentry
      cases hentry
    | some e =>
      refine ⟨w, i, d, e, rfl, ha, hx, ?_⟩
      cases e with
      | directory n =>
        rw [ha.entryAt (.inr (by simp [hx])), hx] at hentry
        cases (Prod.mk.inj (Except.ok.inj hentry)).2
      | _ => rfl

theorem read_of_copy {m : Nat} {c : Bytes} (hcopy : fs.copy source target = .ok fs')
    (hentry : named source (fs.entryAt true source) = .ok (l, .file m c)) : fs.read source = .ok c := by
  rw [copy, hentry] at hcopy
  rw [read, named_of_noNul (noNul_of_named hentry), eq_ok_of_named hentry]
  cases hr : (Entry.file m c).isReadable with
  | true => simp [Bind.bind, Except.bind, Except.mapError, hr]
  | false => simp [Bind.bind, Except.bind, hr] at hcopy

/-- Where a file was copied, the entry that it was copied from is there to be removed, unless its
directory cannot be written to. -/
theorem removeFile_of_copy (hs : fs.Sound) (hp : source.IsNormal) (hq : target.isAbsolute = true)
    (hcopy : fs.copy source target = .ok fs') :
    ∃ l, fs.spot? source = some l ∧ fs'.spot? source = some l ∧ fs'.yields l.tail = fs.yields l.tail ∧
      (fs.yields l.tail = true → ∃ fs'', fs'.removeFile source = .ok fs'' ∧ Edit fs' l none fs'') ∧
      (fs.yields l.tail = false → (fs'.removeFile source).isOk = false) := by
  obtain ⟨names, hn, rfl⟩ := hp
  obtain ⟨l, m, c, hentry, k, n, -, hold, hedit⟩ := copy_edit hs hq hcopy
  obtain ⟨w, i, d, x, rfl, ha, hx, hdir⟩ := aims_of_entryAt hs hn hentry
  have hrefiled : Refiled fs fs' := hedit.refiled hold (by simp [Entry.kind])
  have ha' := ha.of_leads (hrefiled.leads hs ha.toLeads)
  obtain ⟨y, hy, hfile⟩ : ∃ y, fs'.at (w :: d) = some y ∧ y.isDirectory = false := by
    by_cases hk : w :: d = k
    · exact ⟨_, hk ▸ hedit.at_self, rfl⟩
    · exact ⟨x, (hedit.at_of_ne hk).trans hx, hdir⟩
  have hyields : fs'.yields d = fs.yields d := by
    obtain ⟨m', hm'⟩ := ha.directory
    have hdk : d ≠ k := by
      rintro rfl
      cases hold _ hm'
    rw [yields, yields, hedit.at_of_ne hdk]
  have hremove := ha'.removeFile
  rw [hy, hyields] at hremove
  rw [← Path.ofNames_join i (fun v hv => hn v (List.mem_cons_of_mem _ hv)) ha.name]
  refine ⟨w :: d, ha.spot?, ha'.spot?, hyields, fun hopen => ?_, fun hclosed => ?_⟩
  · replace hopen : fs.yields d = true := hopen
    refine ⟨_, by simpa [hopen, hfile] using hremove, Edit.erase hedit.sound (hedit.sound.none_in ?_)⟩
    rintro m' hm'
    obtain rfl := Option.some.inj (hy.symm.trans hm')
    cases hfile
  · replace hclosed : fs.yields d = false := hclosed
    rw [hremove, hclosed]
    rfl

end FileSystem

namespace Files

variable {fs fs' : FileSystem} {p source target : Path} {e : OsError}

theorem Target.grown {q : Path} (h : Target fs p q) (hs : fs.Sound) (hp : p.isAbsolute = true)
    (made : Grown fs (OnTheWay q) fs') : Grown fs (OnTheWay p) fs' := by
  rcases h with rfl | ⟨j, ⟨-, hreal⟩, rfl⟩
  · exact made
  · obtain ⟨⟨x, hx⟩, hn⟩ := realLocation_spec hs hp hreal
    exact made.of_entry hs hn (by simp [hx])

theorem Written.grown {content : Bytes} (h : Written fs p content fs' (.error e)) (hs : fs.Sound)
    (hp : p.isAbsolute = true) : Grown fs (OnTheWay p) fs' := by
  cases h with
  | failed target made => exact target.grown hs hp made

/-- How a move goes: the directories above its target are made, and the entry is renamed, or else copied
and removed. -/
inductive MoveRun (fs : FileSystem) (source target : Path) : Except OsError Unit × FileSystem → Prop
  | rested {e : OsError} {fs' : FileSystem} (made : Grown fs (OnTheWay target) fs') :
    MoveRun fs source target (.error e, fs')
  | renamed {fs₁ fs' : FileSystem} (made : Grown fs (OnTheWay target) fs₁)
    (rename : fs₁.rename source target = .ok fs') : MoveRun fs source target (.ok (), fs')
  | copied {fs₁ fs₂ : FileSystem} (made : Grown fs (OnTheWay target) fs₁)
    (refused : (fs₁.rename source target).isOk = false) (copy : fs₁.copy source target = .ok fs₂) :
    MoveRun fs source target (Call.change fs₂ (fs₂.removeFile source))

theorem move_stages (hs : fs.Sound) (hq : target.isAbsolute = true) :
    MoveRun fs source target ((move source target).run.run fs) := by
  have hmade : Grown fs (OnTheWay target) ((ensureParent target).run.run fs).2 :=
    adds_ensureParent hq (fun f hf m => ⟨hf, rfl⟩) fs hs
  rw [move, ExceptT.run_bind, run_bind]
  generalize (ensureParent target).run.run fs = out at hmade ⊢
  obtain ⟨r, fs₁⟩ := out
  cases r with
  | error e => exact .rested hmade
  | ok u =>
    simp only [attempt, ExceptT.run_mk, run_bind, run_ask, Call.perform]
    cases hrename : fs₁.rename source target with
    | ok fs' => exact .renamed hmade hrename
    | error e =>
      simp only [change_error, ExceptT.run_bind, ExceptT.run_mk, run_bind, run_ask, Call.perform]
      cases hcopy : fs₁.copy source target with
      | error e => exact .rested hmade
      | ok fs₂ => exact .copied hmade (by rw [hrename]; rfl) hcopy

/-- A move that failed has left at most directories above its target, or a copy where the entry that
was copied cannot be removed. -/
theorem move_cases (hs : fs.Sound) (hp : source.IsNormal) (hq : target.isAbsolute = true)
    (h : (move source target).run.run fs = (.error e, fs')) :
    Grown fs (OnTheWay target) fs' ∨ ∃ fs₁, Grown fs (OnTheWay target) fs₁ ∧
      (fs₁.rename source target).isOk = false ∧ fs₁.copy source target = .ok fs' ∧
      ∃ l, fs'.spot? source = some l ∧ fs'.yields l.tail = false := by
  have hrun : MoveRun fs source target _ := move_stages hs hq
  rw [h] at hrun
  generalize hout : ((.error e, fs') : Except OsError Unit × FileSystem) = out at hrun
  cases hrun with
  | rested made => exact .inl ((Prod.mk.inj hout).2 ▸ made)
  | renamed => cases hout
  | @copied fs₁ fs₂ made refused copy =>
    obtain ⟨l, -, hspot, hyields, hopen, -⟩ := removeFile_of_copy made.sound hp hq copy
    cases hclosed : fs₁.yields l.tail with
    | true =>
      obtain ⟨fs'', hremove, -⟩ := hopen hclosed
      rw [hremove] at hout
      cases hout
    | false =>
      have hleft : fs' = fs₂ := by
        cases hremove : fs₂.removeFile source with
        | ok => rw [hremove] at hout; cases hout
        | error => rw [hremove] at hout; exact (Prod.mk.inj hout).2
      exact .inr ⟨fs₁, made, refused, hleft ▸ copy, l, hleft ▸ hspot, hleft ▸ hyields.trans hclosed⟩

end Files

/-! ### Operations -/

namespace Operation

/-- The paths of an operation are spelled by names alone, as recorded ones are. -/
structure IsNormal (op : Operation) : Prop where
  path : op.path.IsNormal
  former : ∀ p ∈ op.previousPath, p.IsNormal

/-- A directory above one of the paths of an operation. -/
def OnTheWay (op : Operation) (f : Path) (e : Entry) : Prop :=
  Files.OnTheWay op.path f e ∨ ∃ former ∈ op.previousPath, Files.OnTheWay former f e

/-- A move was taken back by half: the entry could not be renamed and was copied to its former path, but
it is in a directory that cannot be written to. -/
structure Halved (op : Operation) (fs fs' : FileSystem) : Prop where
  kind : op.kind = .move
  copied : ∃ former ∈ op.previousPath, ∃ fs₁, Grown fs op.OnTheWay fs₁ ∧
    (fs₁.rename op.path former).isOk = false ∧ fs₁.copy op.path former = .ok fs'
  barred : ∃ l, fs'.spot? op.path = some l ∧ fs'.yields l.tail = false

end Operation

namespace Rollback

variable {b : Backups} {verify force : Bool} {op : Operation} {fs fs' : FileSystem} {a : Attempt}
  {p : Path} {N : Path → Entry → Prop}

/-- What an attempt leaves: the tree as it was where there was nothing to revert, and where it failed the
tree with new entries at most. -/
structure Attempt.Leaves (N : Path → Entry → Prop) (fs : FileSystem) (x : Attempt × FileSystem) : Prop where
  skipped : x.1.isSkipped = true → x.2 = fs
  failed : x.1.error?.isSome = true → Grown fs N x.2

namespace Attempt

theorem leaves_same (hs : fs.Sound) (a : Attempt) : Leaves N fs (a, fs) := ⟨fun _ => rfl, fun _ => .refl hs⟩

theorem leaves_failed {e : Error} {warnings : List String} (h : Grown fs N fs') :
    Leaves N fs ({ Attempt.failed e with warnings }, fs') := ⟨nofun, fun _ => h⟩

theorem leaves_done (warnings : List String) (consumed : Bool) (fs' : FileSystem) :
    Leaves N fs ({ Attempt.done with warnings, consumed }, fs') := ⟨nofun, nofun⟩

theorem leaves_change (hs : fs.Sound) (r : Except OsError FileSystem) :
    Leaves N fs (Attempt.ofResult (Call.change fs r).1, (Call.change fs r).2) := by
  cases r with
  | ok fs' => exact leaves_done [] false fs'
  | error e => exact leaves_same hs _

end Attempt

open Attempt

theorem removeCreated_leaves (hs : fs.Sound) : Leaves N fs ((removeCreated p).run fs) := by
  rw [removeCreated, run_bind, Files.removeIfPresent_eq]
  cases fs.removeFile p with
  | ok fs' => exact leaves_done [] false fs'
  | error e => exact leaves_same hs _

theorem removeLink_leaves (hs : fs.Sound) : Leaves N fs ((removeLink p).run fs) := by
  rw [removeLink, run_bind, run_ask]
  dsimp only [Call.perform]
  split
  · exact leaves_change hs _
  · exact leaves_same hs _
  · split <;> exact leaves_same hs _

theorem removeDirectory_leaves (hs : fs.Sound) : Leaves N fs ((removeDirectory p).run fs) := by
  rw [removeDirectory, run_bind, Files.present_run]
  dsimp only
  split
  · exact leaves_same hs _
  · rw [run_bind, run_ask]
    dsimp only [Call.perform]
    split
    · exact leaves_same hs _
    · exact leaves_change hs _
    · exact leaves_same hs _

theorem restoreMode_leaves (hs : fs.Sound) : Leaves N fs ((restoreMode op).run fs) := by
  rw [restoreMode]
  split
  · exact leaves_same hs _
  · rw [run_bind, Files.present_run]
    dsimp only
    split
    · exact leaves_change hs _
    · exact leaves_same hs _

theorem restoreKnown_leaves (hs : fs.Sound) (hp : op.path.isAbsolute = true) :
    Leaves (Files.OnTheWay op.path) fs ((restoreKnown op).run fs) := by
  rw [restoreKnown]
  split
  · next content _ =>
    have hwritten := Files.writeAtomic_written hs hp (Utf8.encode content)
    rw [run_bind]
    generalize (Files.writeAtomic op.path (Utf8.encode content)).run.run fs = out at hwritten ⊢
    obtain ⟨r, fs₁⟩ := out
    cases r with
    | ok u => exact leaves_done [] false fs₁
    | error e => exact leaves_failed (hwritten.grown hs hp)
  · split
    · exact removeCreated_leaves hs
    · exact leaves_same hs _

theorem restoreBackup_leaves (hs : fs.Sound) (hp : op.path.isAbsolute = true) :
    Leaves (Files.OnTheWay op.path) fs ((restoreBackup b verify force op).run fs) := by
  rw [restoreBackup, run_bind, b.read_eq]
  cases fs.read (b.pathFor op.id) with
  | error e =>
    dsimp only
    split
    · exact leaves_same hs _
    · exact leaves_same hs _
    · next h => split at h <;> cases h
  | ok content =>
    dsimp only
    split
    · exact leaves_same hs _
    · have hwritten := Files.writeAtomic_written hs hp content
      rw [run_bind]
      generalize (Files.writeAtomic op.path content).run.run fs = out at hwritten ⊢
      obtain ⟨r, fs₁⟩ := out
      cases r with
      | ok u => exact leaves_done _ true fs₁
      | error e => exact leaves_failed (hwritten.grown hs hp)

/-- A move that could not be taken back leaves directories at most, or is taken back by half. -/
theorem moveBack_leaves (hs : fs.Sound) (hop : op.IsNormal) (hkind : op.kind = .move) :
    Leaves op.OnTheWay fs ((moveBack force op).run fs) ∨
      ((moveBack force op).run fs).1.isSkipped = false ∧ op.Halved fs ((moveBack force op).run fs).2 := by
  rw [moveBack]
  cases hformer : op.previousPath with
  | none => exact .inl (leaves_same hs _)
  | some former =>
    simp only [run_bind, Files.present_run]
    split
    · split <;> exact .inl (leaves_same hs _)
    split
    · exact .inl (leaves_same hs _)
    · rw [run_bind]
      generalize hmove : (Files.move op.path former).run.run fs = out
      obtain ⟨r, fs₁⟩ := out
      have hway : ∀ f e, Files.OnTheWay former f e → op.OnTheWay f e := fun f e h =>
        .inr ⟨former, hformer, h⟩
      cases r with
      | ok u => exact .inl (leaves_done [] false fs₁)
      | error e =>
        rcases Files.move_cases hs hop.path (hop.former former hformer).isAbsolute hmove with
          hmade | ⟨fs₀, hmade, hrename, hcopy, hbarred⟩
        · exact .inl (leaves_failed (hmade.mono hway))
        · exact .inr ⟨rfl, hkind, ⟨former, hformer, fs₀, hmade.mono hway, hrename, hcopy⟩, hbarred⟩

theorem Attempt.Leaves.mono {N' : Path → Entry → Prop} {x : Attempt × FileSystem} (h : Leaves N fs x)
    (hN : ∀ f e, N f e → N' f e) : Leaves N' fs x :=
  ⟨h.skipped, fun hfailed => (h.failed hfailed).mono hN⟩

/-- An attempt that comes to nothing leaves the tree, with missing directories at most, unless a move
was taken back by half. -/
theorem revert_leaves (hs : fs.Sound) (hop : op.IsNormal) :
    Leaves op.OnTheWay fs ((revert b verify force op).run fs) ∨
      ((revert b verify force op).run fs).1.isSkipped = false ∧
        op.Halved fs ((revert b verify force op).run fs).2 := by
  have hp := hop.path.isAbsolute
  have hway : ∀ f e, Files.OnTheWay op.path f e → op.OnTheWay f e := fun f e => .inl
  rw [revert]
  cases hkind : op.kind with
  | create | copy => exact .inl (removeCreated_leaves hs)
  | update | delete =>
    dsimp only
    split
    · exact .inl ((restoreBackup_leaves hs hp).mono hway)
    · exact .inl ((restoreKnown_leaves hs hp).mono hway)
  | move => exact moveBack_leaves hs hop hkind
  | symlink => exact .inl (removeLink_leaves hs)
  | directoryCreate => exact .inl (removeDirectory_leaves hs)
  | chmod => exact .inl (restoreMode_leaves hs)
  | envVariable | packageInstall => exact .inl (leaves_same hs _)

/-! ### Runs in which nothing was reverted -/

variable {hs : List Handled} {options : Options} {o : Outcome}

theorem Attempt.isSkipped_or_error (h : a.isDone = false) : a.isSkipped = true ∨ a.error?.isSome = true := by
  rcases hv : a.verdict with e | _ | _ <;> simp_all [isDone, isSkipped, error?]

/-- Operations of which none was reverted leave the tree, with missing directories at most, unless one
of them was taken back by half. -/
theorem Handles.grown (h : Handles b verify force fs hs fs') (hsound : fs.Sound)
    (hops : ∀ x ∈ hs, x.operation.IsNormal) (hnone : ∀ x ∈ hs, x.attempt.isDone = false) :
    Grown fs (fun f e => ∃ x ∈ hs, x.operation.OnTheWay f e) fs' ∨
      ∃ x ∈ hs, x.attempt.error?.isSome = true ∧ x.operation.Halved x.before x.after := by
  induction h with
  | nil fs => exact .inl (.refl hsound)
  | @cons op a fs fs₁ fs' hs head rest ih =>
    have hleaves : Leaves op.OnTheWay fs ((revert b verify force op).run fs) ∨ _ :=
      revert_leaves hsound (hops _ List.mem_cons_self)
    rw [head] at hleaves
    have hend := Attempt.isSkipped_or_error (hnone _ List.mem_cons_self)
    rcases hleaves with hleaves | ⟨hskipped, hhalved⟩
    · have hmade : Grown fs op.OnTheWay fs₁ := by
        rcases hend with hskipped | hfailed
        · rw [show fs₁ = fs from hleaves.skipped hskipped]
          exact .refl hsound
        · exact hleaves.failed hfailed
      rcases ih hmade.sound (fun x hx => hops x (List.mem_cons_of_mem _ hx))
        (fun x hx => hnone x (List.mem_cons_of_mem _ hx)) with hrest | ⟨x, hx, hhalved⟩
      · refine .inl ((hmade.mono fun f e h => ⟨_, List.mem_cons_self, h⟩).trans
          (hrest.mono fun f e h => ?_))
        obtain ⟨x, hx, h⟩ := h
        exact ⟨x, List.mem_cons_of_mem _ hx, h⟩
      · exact .inr ⟨x, List.mem_cons_of_mem _ hx, hhalved⟩
    · refine .inr ⟨_, List.mem_cons_self, hend.resolve_left ?_, hhalved⟩
      rw [hskipped]
      exact Bool.false_ne_true

end Rollback

theorem Store.saveTransaction_grown {s : Store} {t : Transaction} {fs fs' : FileSystem} {e : Error}
    (hs : fs.Sound) (hroot : s.root.isAbsolute = true)
    (h : (s.saveTransaction t).run fs = (.error e, fs')) :
    Grown fs (Files.OnTheWay (s.transactionPath t.id)) fs' := by
  rw [saveTransaction, save.eq_def] at h
  split at h
  · obtain ⟨-, rfl⟩ := Prod.mk.inj h
    exact .refl hs
  · next text _ =>
    have hp : (s.transactionPath t.id).isAbsolute = true := Path.isAbsolute_join (Path.isAbsolute_join hroot)
    have hwritten := Files.writeAtomic_written hs hp (Utf8.encode text)
    rw [run_bind] at h
    generalize (Files.writeAtomic (s.transactionPath t.id) (Utf8.encode text)).run.run fs = out
      at h hwritten
    obtain ⟨r, fs₁⟩ := out
    cases r with
    | ok u => cases (Prod.mk.inj h).1
    | error e' =>
      obtain ⟨-, rfl⟩ := Prod.mk.inj h
      exact hwritten.grown hs hp

namespace Manager

open Rollback

variable {m : Manager} {fs : FileSystem} {id : String} {options : Options}

theorem operationOf_isNormal (hroot : m.root.isAbsolute = true) (id : String) (now : Instant)
    (kind : Operation.Kind) (p : Path) (details : Operation.Details) (previous : Option Bytes) :
    (m.operationOf id now kind p details previous).IsNormal where
  path := Path.isNormal_normalize hroot p
  former q hq := by
    obtain ⟨former, -, rfl⟩ := Option.map_eq_some_iff.1 hq
    exact Path.isNormal_normalize hroot former

/-- A directory that a rollback of the transaction may have made: above a path of one of its
operations, or above its document. -/
def OnTheWay (m : Manager) (id : String) (f : Path) (e : Entry) : Prop :=
  (∃ t ∈ m.transaction? id, ∃ op ∈ t.operations, op.OnTheWay f e) ∨
    Files.OnTheWay (m.store.transactionPath id) f e

theorem Finalized.count {now : Instant} {p : Pending} {t : Transaction}
    {out : (Result × Manager) × FileSystem} (h : Finalized m now options p t fs out) :
    out.1.1.rolledBackOperations = p.result.rolledBackOperations := by
  cases h <;> rfl

theorem Finalized.of_errors {now : Instant} {p : Pending} {t : Transaction}
    {out : (Result × Manager) × FileSystem} (h : Finalized m now options p t fs out)
    (herrors : p.result.errors ≠ []) : out.2 = fs := by
  cases h with
  | quiet => rfl
  | failed _ hnone => exact absurd hnone herrors
  | recorded _ hnone => exact absurd hnone herrors

theorem Finalized.unrecorded {now : Instant} {p : Pending} {t : Transaction}
    {out : (Result × Manager) × FileSystem} (h : Finalized m now options p t fs out) (hs : fs.Sound)
    (hroot : m.store.root.isAbsolute = true) (hfailed : out.1.1.success = false) :
    Grown fs (Files.OnTheWay (m.store.transactionPath t.id)) out.2 := by
  cases h with
  | quiet => exact .refl hs
  | failed _ _ _ hsave => exact Store.saveTransaction_grown (t := t.reverted now) hs hroot hsave
  | recorded _ herrors =>
    rw [settle_fst, herrors] at hfailed
    cases hfailed

/-- A rollback that failed with nothing reverted has left the tree, with missing directories at most,
unless a move was taken back by half. -/
theorem rollback_grown (now : Instant) (hs : fs.Sound) (hroot : m.store.root.isAbsolute = true)
    (hkeyed : Keyed m) (hops : ∀ t ∈ m.transaction? id, ∀ op ∈ t.operations, op.IsNormal)
    (hdry : options.dryRun = false)
    (hfailed : ((m.rollback now options id).run fs).1.1.success = false)
    (hnone : ((m.rollback now options id).run fs).1.1.rolledBackOperations = 0) :
    Grown fs (m.OnTheWay id) ((m.rollback now options id).run fs).2 ∨
      ∃ hs, Handles m.backups m.settings.verifyChecksums options.force fs hs
          ((m.rollback now options id).run fs).2 ∧
        ∃ x ∈ hs, (∃ t ∈ m.transaction? id, x.operation ∈ t.operations) ∧
          x.operation.Halved x.before x.after := by
  cases ht : m.transaction? id with
  | none =>
    rw [rollback_none ht, run_pure]
    exact .inl (.refl hs)
  | some t =>
    obtain rfl := hkeyed id t ht
    rw [rollback_some ht, run_bind] at hfailed hnone ⊢
    have hfinalized : Finalized (m.announcing t) now options ((m.execute options t).run fs).1 t
        ((m.execute options t).run fs).2 _ :=
      finalize_cases (by rw [execute_id]; exact ht)
    generalize ((m.announcing t).finalize now options ((m.execute options t).run fs).1).run
      ((m.execute options t).run fs).2 = out at hfinalized hfailed hnone ⊢
    rw [hfinalized.count] at hnone
    by_cases hgo : m.Proceeds fs options t
    · obtain ⟨hs', hhandles, htally, hextent⟩ :=
        revertAll_handled hdry m.backups m.settings.verifyChecksums t fs
      rw [execute_of_proceeds hgo] at hfinalized hnone
      dsimp only at hfinalized hnone
      have hmem : ∀ x ∈ hs', x.operation ∈ t.operations := fun x hx => List.mem_reverse.1 (hextent.mem hx)
      have hidle : ∀ x ∈ hs', x.attempt.isDone = false := fun x hx => by
        simpa using List.countP_eq_zero.1 (htally.done.symm.trans hnone) x hx
      rcases hhandles.grown hs (fun x hx => hops t ht _ (hmem x hx)) hidle with
        hgrown | ⟨x, hx, herror, hhalved⟩
      · have hmade := hfinalized.unrecorded hgrown.sound hroot hfailed
        refine .inl ((hgrown.mono fun f e ⟨x, hx, h⟩ => ?_).trans (Grown.mono hmade fun f e h => .inr h))
        exact .inl ⟨t, ht, x.operation, hmem x hx, h⟩
      · -- a move that was taken back by half is among the errors, so nothing was recorded after it
        have herrors : ((revertAll m.backups m.settings.verifyChecksums options t).run
            fs).1.errors ≠ [] := fun hnil => by
          rw [htally.errors, List.filterMap_eq_nil_iff] at hnil
          have hx := hnil x hx
          rw [Handled.complaint?, Option.map_eq_none_iff] at hx
          simp [hx] at herror
        exact .inr ⟨hs', hfinalized.of_errors herrors ▸ hhandles, x, hx, ⟨t, rfl, hmem x hx⟩, hhalved⟩
    · have hidle := execute_idle hgo
      rw [hidle] at hfinalized
      exact .inl (Grown.mono (hfinalized.unrecorded hs hroot hfailed) fun f e h => .inr h)

end Manager

open Rollback

/-- Where there was nothing to revert, the tree is as it was. Where reverting failed, all that stood
still stands, what is new are directories above the paths of the operation, every file that could be read
is read as before, and the backup is not used up; but a move may be taken back by half. So a rollback
that failed with nothing reverted has left at most directories above paths of its operations or above
the document of the transaction, again unless a move was taken back by half. -/
theorem revert_all_or_nothing {fs : FileSystem} {op : Operation} (b : Backups) (verify force : Bool)
    (hs : fs.Sound) (hop : op.IsNormal) :
    let out := (revert b verify force op).run fs
    (out.1.verdict = .ok .skipped → out.2 = fs) ∧
    (∀ e, out.1.verdict = .error e → out.1.consumed = false ∧
      (Grown fs op.OnTheWay out.2 ∧
          (∀ p c, p.isAbsolute = true → fs.read p = .ok c → out.2.read p = .ok c) ∨
        op.Halved fs out.2)) ∧
    ∀ (m : Manager) (now : Instant) (options : Options) (id : String), m.Keyed →
      m.store.root.isAbsolute = true → (∀ t ∈ m.transaction? id, ∀ op ∈ t.operations, op.IsNormal) →
      options.dryRun = false →
      let done := (m.rollback now options id).run fs
      done.1.1.success = false → done.1.1.rolledBackOperations = 0 →
      Grown fs (m.OnTheWay id) done.2 ∨
        ∃ hs, Handles m.backups m.settings.verifyChecksums options.force fs hs done.2 ∧
          ∃ x ∈ hs, (∃ t ∈ m.transaction? id, x.operation ∈ t.operations) ∧
            x.operation.Halved x.before x.after := by
  intro out
  have hleaves : Attempt.Leaves op.OnTheWay fs out ∨ out.1.isSkipped = false ∧ op.Halved fs out.2 :=
    revert_leaves hs hop
  refine ⟨fun hskipped => ?_, fun e herror => ⟨?_, ?_⟩, fun m now options id hkeyed hroot hops hdry =>
    Manager.rollback_grown now hs hroot hkeyed hops hdry⟩
  · rcases hleaves with hleaves | ⟨hnot, -⟩
    · exact hleaves.skipped (by rw [Attempt.isSkipped, hskipped])
    · rw [Attempt.isSkipped, hskipped] at hnot
      cases hnot
  · have hrun : (revert b verify force op).run fs = (out.1, out.2) := rfl
    rw [consumed_revert hrun, Attempt.isDone, herror, Bool.and_false]
  · refine hleaves.imp (fun hleaves => ?_) And.right
    have hgrown := hleaves.failed (by rw [Attempt.error?, herror]; rfl)
    have hwide : Widened fs out.2 := hgrown.mono fun f e h => by
      rcases h with h | ⟨_, -, h⟩
      · exact h.2
      · exact h.2
    exact ⟨hgrown, fun p c hp hc => hwide.read hs hp hc⟩

namespace Sample

def unwritable : Operation :=
  manager.operationOf "o" ⟨0, 0⟩ .update ⟨[97, Path.slash] ++ List.replicate 256 110⟩ {} (some [])

def unwritten : Transaction := ⟨"t", "", "", "", [unwritable], ⟨0, 0⟩, .completed, none, []⟩

def unwritableManager : Manager := { manager with history := [("t", unwritten)] }

theorem unwritable_isNormal : unwritable.IsNormal := Manager.operationOf_isNormal rfl _ _ _ _ _ _

theorem unwritableManager_kept {id : String} {t : Transaction}
    (h : unwritableManager.transaction? id = some t) : t = unwritten ∧ t.id = id := by
  obtain ⟨rfl, rfl⟩ := Prod.mk.inj (List.mem_singleton.1 (Index.mem_of_get? h))
  exact ⟨rfl, rfl⟩

end Sample

theorem revert_all_or_nothing_unwritable :
    let out := (revert Sample.manager.backups true false Sample.unwritable).run Sample.tree
    let done := (Sample.unwritableManager.rollback ⟨1, 0⟩ {} "t").run Sample.tree
    out.1.error?.isSome = true ∧ Grown Sample.tree Sample.unwritable.OnTheWay out.2 ∧
      done.1.1.success = false ∧ done.1.1.rolledBackOperations = 0 ∧
      Grown Sample.tree (Sample.unwritableManager.OnTheWay "t") done.2 ∧
      Sample.tree.at [[97], Utf8.encode "p"] = none ∧
      done.2.at [[97], Utf8.encode "p"] = some (.directory 0o755) := by
  have hs : Sample.tree.Sound := Sample.keeps.sound
  have hhalved : ∀ {fs fs'}, ¬Sample.unwritable.Halved fs fs' := fun h => nomatch h.kind
  have hkeyed : Sample.unwritableManager.Keyed := fun id t ht => (Sample.unwritableManager_kept ht).2
  have hops : ∀ t ∈ Sample.unwritableManager.transaction? "t", ∀ op ∈ t.operations,
      op = Sample.unwritable := by
    intro t ht op hop
    rw [(Sample.unwritableManager_kept ht).1] at hop
    exact List.mem_singleton.1 hop
  have herror : ((revert Sample.manager.backups true false Sample.unwritable).run
      Sample.tree).1.error?.isSome = true := by decide +kernel
  have hfailed : ((Sample.unwritableManager.rollback ⟨1, 0⟩ {} "t").run
      Sample.tree).1.1.success = false := by decide +kernel
  have hnone : ((Sample.unwritableManager.rollback ⟨1, 0⟩ {} "t").run
      Sample.tree).1.1.rolledBackOperations = 0 := by decide +kernel
  have hmade : ((Sample.unwritableManager.rollback ⟨1, 0⟩ {} "t").run Sample.tree).2.at
      [[97], Utf8.encode "p"] = some (.directory 0o755) := by decide +kernel
  obtain ⟨-, hleft, hidle⟩ :=
    revert_all_or_nothing Sample.manager.backups true false hs Sample.unwritable_isNormal
  have hgrown := hidle Sample.unwritableManager ⟨1, 0⟩ {} "t" hkeyed (by decide +kernel)
    (fun t ht op hop => hops t ht op hop ▸ Sample.unwritable_isNormal) rfl hfailed hnone
  generalize (Sample.unwritableManager.rollback ⟨1, 0⟩ {} "t").run Sample.tree = done
    at hfailed hnone hmade hgrown ⊢
  generalize (revert Sample.manager.backups true false Sample.unwritable).run Sample.tree = out
    at herror hleft ⊢
  obtain ⟨e, he⟩ : ∃ e, out.1.verdict = .error e := by
    rcases hv : out.1.verdict with e | r
    · exact ⟨e, rfl⟩
    · simp [Attempt.error?, hv] at herror
  refine ⟨herror, ((hleft e he).2.resolve_right hhalved).1, hfailed, hnone, hgrown.resolve_right ?_,
    by decide +kernel, hmade⟩
  rintro ⟨hs', -, x, -, ⟨t, ht, hx⟩, h⟩
  rw [hops t ht _ hx] at h
  exact hhalved h

end Retrace
