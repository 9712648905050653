import Retrace.Proofs.BackupLedger
import Retrace.Proofs.DryRun
import Retrace.Proofs.Series

/-!
Permission bits after a rollback. A change of the bits says what they were; an operation that puts
content back makes a new file. So the bits of a file come back unless the first change of content or
bits that it saw was one of content (`rollback_leaves_bits`).
-/
namespace Retrace

open FileSystem Retrace.Path Script

variable {g : Grounds} {fs fs₁ fs₂ fs₃ fs' R R₁ R' : FileSystem} {m m₁ m₂ m₃ m' : Manager}
  {t : Transaction} {c : Change} {cs : List Change} {op : Operation} {ops : List Operation}
  {ok : FileSystem → FileSystem → Change → Prop} {l l' : Location} {n : Nat} {b : Bytes}
  {previous : Option Bytes}

/-! ### What becomes of a file -/

/-- What changes have done to a file that was there before them. -/
inductive Fate
  /-- It stands at a place as it was. -/
  | standing (l : Location)
  /-- Its permission bits were changed first. -/
  | remoded
  /-- It was overwritten or removed first. -/
  | replaced
  deriving DecidableEq, Repr

namespace Fate

/-- One more change. What comes after the first change of content or bits does not matter. -/
def after (root : Path) (c : Change) : Fate → Fate
  | standing l =>
    match c.mutation with
    | .update .. | .delete => if spelled root c.path = l then replaced else standing l
    | .chmod _ => if spelled root c.path = l then remoded else standing l
    | .move q => standing (carry (spelled root q) (spelled root c.path) l)
    | .create .. | .copy .. | .symlink _ | .directoryCreate => standing l
  | remoded => remoded
  | replaced => replaced

/-- What becomes of the file at a place. -/
def of (root : Path) (l : Location) (cs : List Change) : Fate :=
  cs.foldl (fun f c => f.after root c) (standing l)

theorem of_snoc (root : Path) (l : Location) (cs : List Change) (c : Change) :
    of root l (cs ++ [c]) = (of root l cs).after root c := by
  simp [of]

/-- What stands at the place of the file when the changes have been reverted, from the last to the
first, on a given tree. -/
def entry (R : FileSystem) (n : Nat) (b : Bytes) : Fate → Option Entry
  | standing l => R.at l
  | remoded => some (.file (n % 0o10000) b)
  | replaced => some (.file 0o600 b)

end Fate

/-! ### Making a change -/

/-- The operation under which a change is recorded. -/
def Change.operation (c : Change) (m : Manager) (fs : FileSystem) (previous : Option Bytes) : Operation :=
  m.operationOf c.id c.time c.mutation.kind c.path (c.details fs m.root) previous

theorem Change.place_operation (hroot : m.root.isAbsolute = true) :
    (c.operation m fs previous).path.place = spelled m.root c.path := by
  rw [show (c.operation m fs previous).path = m.root.normalize c.path from rfl, normalize_eq hroot]
  exact place_ofNames isName_of_mem_spelled

theorem Manager.append_inj {op' : Operation} (h : m.append t op = m.append t op') : op = op' := by
  have hcurrent := congrArg Manager.current h
  simpa [Manager.append] using hcurrent

/-- A file that a change leaves as it was stands where the change has left it. -/
theorem Bracket.standing (h : Bracket g m fs c m' fs₁ fs') (hk : Keeps g m.store fs)
    (hroot : m.root.isAbsolute = true) (hid : Plain c.id) (hl : ¬g.Within l)
    (hx : fs.at l = some (.file n b)) (hf : (Fate.standing l).after m.root c = .standing l') :
    ¬g.Within l' ∧ fs'.at l' = some (.file n b) := by
  obtain ⟨-, t, previous, hadd⟩ := Manager.add_ok h.recorded
  have ht := hadd.tended hk hid
  have hfits := h.fits.tended ht
  have hx₁ : fs₁.at l = some (.file n b) := (ht.beyond l hl).trans hx
  have hmeant := hfits.meant
  have hother : ∀ o, Edit fs₁ (spelled m.root c.path) o fs' → spelled m.root c.path ≠ l →
      fs'.at l = some (.file n b) := fun o he hne => (he.at_of_ne (Ne.symm hne)).trans hx₁
  have hfree : fs₁.at (spelled m.root c.path) = none → spelled m.root c.path ≠ l := by
    rintro hnone rfl
    rw [hnone] at hx₁
    cases hx₁
  rcases hfits.edit_or_moved ht.sound hroot h.made with ⟨hμ, o, he⟩ | ⟨q, v, d, w, d', e, hμ, hq, hp, hm⟩
  · suffices hne : spelled m.root c.path ≠ l ∧ l' = l by
      exact hne.2 ▸ ⟨hl, hother o he hne.1⟩
    cases hc : c.mutation with
    | move q => exact absurd hc (hμ q)
    | update | delete | chmod =>
      simp only [Fate.after, hc] at hf
      split at hf
      · cases hf
      · next hne => exact ⟨hne, (Fate.standing.inj hf).symm⟩
    | create | copy | symlink | directoryCreate =>
      rw [hc] at hmeant
      simp only [Fate.after, hc] at hf
      exact ⟨hfree hmeant, (Fate.standing.inj hf).symm⟩
  · obtain rfl : carry (v :: d) (w :: d') l = l' := by
      simpa only [Fate.after, hμ, hq, hp, Fate.standing.injEq] using hf
    have hvacant : fs₁.at (w :: d') = none := by
      rw [hμ, hp] at hmeant
      exact hmeant
    have hplace := hfits.place.apart
    rw [hp] at hplace
    rw [hm.relocated, at_relocate ht.sound hm.movable]
    by_cases hsuf : v :: d <:+ l
    · obtain ⟨x, rfl⟩ := hsuf
      rw [carry_of_suffix, if_pos (List.suffix_append x _)]
      exact ⟨hplace.not_within (List.suffix_append x _), by simpa using hx₁⟩
    · have hbelow : ¬w :: d' <:+ l := by
        intro hbelow
        by_cases heq : w :: d' = l
        · rw [← heq, hvacant] at hx₁
          cases hx₁
        · rw [ht.sound.none_below (by simp [hvacant]) hbelow heq] at hx₁
          cases hx₁
      rw [carry_of_not_suffix hsuf, if_neg hbelow, if_neg hsuf]
      exact ⟨hl, hx₁⟩

/-! ### Reverting a change -/

/-- Reverting a change gives a file back as its fate says. -/
theorem Reversal.at_eq (h : Reversal (c.operation m fs previous) R R') (hroot : m.root.isAbsolute = true)
    (hs : R.Sound) (hR' : Alike g fs R') (hl : ¬g.Within l) (hx : fs.at l = some (.file n b)) :
    R'.at l = ((Fate.standing l).after m.root c).entry R n b := by
  obtain ⟨n', hfile⟩ := file_of_view (hR' l hl) hx
  have hplace : (c.operation m fs previous).path.place = spelled m.root c.path :=
    Change.place_operation hroot
  cases h with
  | cleared hkind h =>
    rw [hplace] at h
    have hne : spelled m.root c.path ≠ l := by
      rintro rfl
      rw [h.at_self] at hfile
      cases hfile
    rw [h.at_of_ne (Ne.symm hne)]
    cases hc : c.mutation with
    | move q => exact absurd (by rw [Change.operation, hc]; rfl) hkind
    | _ => simp [Fate.after, hc, hne, Fate.entry]
  | refilled hkind h =>
    rw [hplace] at h
    have hafter : (Fate.standing l).after m.root c =
        if spelled m.root c.path = l then .replaced else .standing l := by
      cases hc : c.mutation with
      | update | delete => simp only [Fate.after, hc]
      | _ => simp [Change.operation, Manager.operationOf, hc, Mutation.kind] at hkind
    rw [hafter]
    split
    · next heq =>
      rw [← heq, h.at_self] at hfile ⊢
      simp only [Option.some.injEq, Entry.file.injEq] at hfile
      rw [hfile.2, Fate.entry]
    · next hne => exact h.at_of_ne (Ne.symm hne)
  | @remoded e n₀ _ hkind hmode h =>
    rw [hplace] at h
    obtain ⟨mode, hc⟩ : ∃ mode, c.mutation = .chmod mode := by
      cases hc : c.mutation with
      | chmod mode => exact ⟨mode, rfl⟩
      | _ => simp [Change.operation, Manager.operationOf, hc, Mutation.kind] at hkind
    simp only [Fate.after, hc]
    split
    · next heq =>
      have hn₀ : n % 0o10000 = n₀ := by
        simpa [Change.operation, Manager.operationOf, Change.details, hc, heq, hx, Entry.mode] using hmode
      rw [← heq, h.at_self] at hfile ⊢
      cases e with
      | file m₀ b₀ =>
        simp only [Entry.withMode, Option.some.injEq, Entry.file.injEq] at hfile
        simp only [Entry.withMode, hfile.2, ← hn₀, Nat.mod_mod, Fate.entry]
      | _ => simp [Entry.withMode] at hfile
    · next hne => exact h.at_of_ne (Ne.symm hne)
  | @movedBack q hkind hq hmov =>
    obtain ⟨q', hc⟩ : ∃ q', c.mutation = .move q' := by
      cases hc : c.mutation with
      | move q' => exact ⟨q', rfl⟩
      | _ => simp [Change.operation, Manager.operationOf, hc, Mutation.kind] at hkind
    have hplace' : q.place = spelled m.root q' := by
      have hq' : m.root.normalize q' = q := by
        simpa [Change.operation, Manager.operationOf, Change.details, hc] using hq
      rw [← hq', normalize_eq hroot]
      exact place_ofNames isName_of_mem_spelled
    rw [hplace, hplace'] at hmov hfile ⊢
    simp only [Fate.after, hc, Fate.entry]
    rw [at_relocate hs hmov] at hfile ⊢
    by_cases hsuf : spelled m.root q' <:+ l
    · obtain ⟨x, rfl⟩ := hsuf
      rw [if_pos (List.suffix_append x _), carry_of_suffix]
      simp
    · rw [if_neg hsuf] at hfile ⊢
      split at hfile
      · cases hfile
      · next hout => rw [if_neg hout, carry_of_not_suffix hsuf]

/-! ### Reverting without a failure -/

namespace Rollback

variable {s : Backups} {verify force : Bool} {options : Options} {o : Outcome}

/-- Content that was put back has found room beside its place. -/
theorem room_of_restored {f : Path} {d : Location} {w : Bytes} (hs : fs.Sound) (hfirm : Firm fs f d)
    (hw : IsName w) (hleaf : ∀ t, fs.at (w :: d) ≠ some (.link t)) (hp : op.path = f.join ⟨w⟩)
    (hkind : op.kind = .update ∨ op.kind = .delete) (hc : op.previousContent ≠ none)
    (hdone : ∀ e, ((revert s verify force op).run fs).1.verdict ≠ .error e) : Room fs f d := by
  have hroom : ∀ content, (∀ e, ((Files.writeAtomic op.path content).run.run fs).1 ≠ .error e) →
      Room fs f d := by
    intro content hok
    have hmeets : Meets (Files.writeAtomic (f.join ⟨w⟩) content).run fs _ _ :=
      Files.writeAtomic_meets hs hfirm.leads hw hleaf
    rw [hp] at hok
    rcases hmeets.result with ⟨-, -, hr, -⟩ | ⟨⟨e, he⟩, -⟩
    · exact hr
    · exact absurd he (hok e)
  by_cases hreq : op.requiresBackup = true
  · rw [revert_of_requiresBackup s verify force hreq] at hdone
    simp only [restoreBackup, run_bind, Backups.read_eq] at hdone
    split at hdone
    · exact absurd rfl (hdone _)
    · exact absurd rfl (hdone _)
    · next content _ =>
      split at hdone
      · exact absurd rfl (hdone _)
      · refine hroom content fun e he => ?_
        rw [run_bind, he] at hdone
        exact absurd rfl (hdone _)
  · obtain ⟨content, hcontent⟩ := Option.ne_none_iff_exists'.1 hc
    have hrevert : revert s verify force op = restoreKnown op := by
      rcases hkind with h | h <;> rw [revert, h] <;> exact if_neg hreq
    rw [hrevert, restoreKnown, hcontent] at hdone
    refine hroom (Utf8.encode content) fun e he => ?_
    simp only [run_bind, he, run_pure] at hdone
    exact absurd rfl (hdone _)

/-- Where all operations are reverted without a failure, the first one is. -/
theorem revertEach_clean (hdry : options.dryRun = false)
    (herr : ((revertEach s verify options o (op :: ops)).run fs).1.errors = []) :
    (∀ e, ((revert s verify options.force op).run fs).1.verdict ≠ .error e) ∧
      (revertEach s verify options o (op :: ops)).run fs =
        (revertEach s verify options (o.add op ((revert s verify options.force op).run fs).1) ops).run
          ((revert s verify options.force op).run fs).2 := by
  have hcons : (revertEach s verify options o (op :: ops)).run fs = _ :=
    revertEach_cons hdry o op ops fs
  dsimp only at hcons
  obtain ⟨es, hes, hnone⟩ := errors_add o op ((revert s verify options.force op).run fs).1
  generalize (revert s verify options.force op).run fs = r at hcons hes hnone ⊢
  split at hcons
  · refine ⟨hnone.1 ?_, hcons⟩
    have hprefix := (revertEach_follows s verify options (o.add op r.1) ops r.2).errors
    rw [← hcons, herr, hes, List.prefix_nil] at hprefix
    exact (List.append_eq_nil_iff.1 hprefix).2
  · next hstop =>
    rw [hcons] at herr
    have hok := hnone.1 (List.append_eq_nil_iff.1 (hes.symm.trans herr)).2
    cases hv : r.1.verdict with
    | ok v => simp [hv, Except.isOk, Except.toBool] at hstop
    | error e => exact absurd hv (hok e)

end Rollback

/-- A change of content that was reverted without a failure has found room. -/
theorem Bracket.roomy_of_reverted {s : Backups} {verify force : Bool} (h : Bracket g m fs c m' fs₁ fs')
    (hk : Keeps g m.store fs) (hroot : m.root.isAbsolute = true) (hid : Plain c.id)
    (hadd : Manager.Added m fs c.id c.time c.mutation.kind c.path (c.details fs m.root) t previous m' fs₁)
    (hs : R.Sound) (hR : Alike g fs' R)
    (hdone : ∀ e, ((Rollback.revert s verify force (c.operation m fs previous)).run R).1.verdict ≠
      .error e) : c.Roomy fs fs' m.root := by
  obtain ⟨id, now, p, μ⟩ := c
  have ht := hadd.tended hk hid
  have hs₁ := ht.sound
  have hfits := h.fits.tended ht
  obtain ⟨w, d, hwd, hl, hd⟩ := hfits.place.exists_cons
  have hn : ∀ u ∈ w :: d, IsName u := hwd ▸ isName_of_mem_spelled
  have hnd : ∀ u ∈ d, IsName u := fun u hu => hn u (List.mem_cons_of_mem _ hu)
  have hp : m.root.normalize p = ofNames true (w :: d) := by rw [normalize_eq hroot, hwd]
  have hmeant := hfits.meant
  have hmade := h.made
  simp only at hmeant hmade hwd
  rw [hwd] at hmeant
  rw [Mutation.perform.eq_def, hp] at hmade
  have hroom : ∀ {n b o}, (μ.kind = .update ∨ μ.kind = .delete) →
      (Change.details ⟨id, now, p, μ⟩ fs m.root).previousContent = none →
      fs₁.at (w :: d) = some (.file n b) → Aims fs₁ (ofNames true d) d w → Edit fs₁ (w :: d) o fs' →
      (o = none ∨ ∃ n c, o = some (.file n c)) → Room fs' (ofNames true d) d := by
    intro n b o hkind hc hx ha he ho
    have hsome := previous_eq_some hk hid hadd hp hn hl hc ha hx
    refine (room_iff_of_alike hl ha he hR).1 (Rollback.room_of_restored hs
      (firm_of_alike hl hs₁ hnd ha he hR) ha.name (fun t hlink => ?_)
      (by rw [ofNames_join d hnd ha.name]; exact hp) hkind
      (by simp [Change.operation, Manager.operationOf, hsome]) hdone)
    rcases leaf_of_alike hl he ho hR with hx' | ⟨n', c', hx'⟩ <;> rw [hx'] at hlink <;> cases hlink
  have hplace : fs₁.at (w :: d) = fs.at (w :: d) := ht.beyond _ (hl.not_within (List.suffix_refl _))
  cases μ with
  | update mode content =>
    obtain ⟨ha, he, -⟩ := Mutation.writeFile_ok hs₁ hn hd hmeant hmade
    simp only [Change.Roomy, hwd, List.tail_cons]
    rcases hmeant with hmeant | ⟨n, b, hx⟩
    · exact .inl (hplace.symm.trans hmeant)
    · exact .inr (hroom (.inl rfl) rfl hx ha he (.inr ⟨_, _, rfl⟩))
  | delete =>
    obtain ⟨n, b, hx⟩ := hmeant
    obtain ⟨ha, he, -⟩ := Mutation.removeFile_ok hs₁ hn hd hx hmade
    simp only [Change.Roomy, hwd, List.tail_cons]
    exact hroom (.inr rfl) rfl hx ha he (.inl rfl)
  | _ => trivial

/-! ### Reverting all changes -/

/-- A file that recorded changes leave as it was stands where they have left it. -/
theorem Recorded.standing (h : Recorded g ok m fs cs m' fs') (hk : Keeps g m.store fs)
    (hroot : m.root.isAbsolute = true) (hids : ∀ c ∈ cs, Plain c.id) (ht : m.current = some t)
    (hl : ¬g.Within l) (hx : fs.at l = some (.file n b)) (hf : Fate.of m.root l cs = .standing l') :
    ¬g.Within l' ∧ fs'.at l' = some (.file n b) := by
  induction h generalizing l' with
  | nil =>
    obtain rfl := Fate.standing.inj hf
    exact ⟨hl, hx⟩
  | @snoc cs c m₁ m₂ fs₁ fs₂ fs₃ h hc hok ih =>
    have hids' : ∀ c ∈ cs, Plain c.id := fun c hc => hids c (by simp [hc])
    obtain ⟨ops, hnoted, -, hk₁, -⟩ := h.passed hk hroot hids' ht
    have hstore : m₁.store = m.store := by rw [hnoted.manager]
    have hroot₁ : m₁.root = m.root := by rw [hnoted.manager]
    rw [Fate.of_snoc] at hf
    cases hfate : Fate.of m.root l cs with
    | standing l₁ =>
      obtain ⟨hl₁, hx₁⟩ := ih hids' hfate
      rw [hfate, ← hroot₁] at hf
      exact hc.standing (hstore ▸ hk₁) (hroot₁ ▸ hroot) (hids c (by simp)) hl₁ hx₁ hf
    | remoded | replaced =>
      rw [hfate] at hf
      cases hf

structure Returned (g : Grounds) (root : Path) (cs : List Change) (fs R R' : FileSystem) : Prop where
  alike : Alike g fs R'
  undisturbed : Undisturbed g R R'
  entry : ∀ l n b, ¬g.Within l → fs.at l = some (.file n b) →
    R'.at l = (Fate.of root l cs).entry R n b

/-- Recorded changes that are reverted without a failure give back what was there, the files
as their fates say. -/
theorem Recorded.returned {verify : Bool} {options : Rollback.Options} {o : Rollback.Outcome}
    (h : Recorded g ok m fs cs m' fs') (hk : Keeps g m.store fs) (hroot : m.root.isAbsolute = true)
    (hids : ∀ c ∈ cs, Plain c.id) (hnodup : (cs.map (·.id)).Nodup) (ht : m.current = some t)
    (hnoted : Recorded.Noted m t ops m') (hdry : options.dryRun = false) (hkR : Keeps g m.store R)
    (hR : Alike g fs' R)
    (hbackups : ∀ c ∈ cs,
      R.at (backupName c.id :: g.backups) = fs'.at (backupName c.id :: g.backups))
    (herr : ((Rollback.revertEach ⟨m.store.backupsDirectory⟩ verify options o ops.reverse).run
      R).1.errors = []) :
    Returned g m.root cs fs R
      ((Rollback.revertEach ⟨m.store.backupsDirectory⟩ verify options o ops.reverse).run R).2 := by
  induction h generalizing ops R o with
  | nil =>
    obtain rfl : ops = [] := by
      have hcurrent := hnoted.current
      rw [ht, Option.some.injEq] at hcurrent
      simpa using congrArg Transaction.operations hcurrent
    exact ⟨hR, Undisturbed.refl hkR.sound, fun _ _ _ _ _ => rfl⟩
  | @snoc cs c m₁ m₂ fs₁ fs₂ fs₃ h hc hok ih =>
    have hids' : ∀ c ∈ cs, Plain c.id := fun c hc => hids c (by simp [hc])
    have hid : Plain c.id := hids c (by simp)
    obtain ⟨ops₁, hnoted₁, -, hk₁, -⟩ := h.passed hk hroot hids' ht
    have hstore : m₁.store = m.store := by rw [hnoted₁.manager]
    have hroot₁ : m₁.root = m.root := by rw [hnoted₁.manager]
    have hk₁' : Keeps g m₁.store fs₁ := hstore ▸ hk₁
    have hroot' : m₁.root.isAbsolute = true := hroot₁ ▸ hroot
    obtain ⟨-, t₁, previous, hadd⟩ := Manager.add_ok hc.recorded
    have hcurrent := hadd.current
    rw [hnoted₁.current, Option.some.injEq] at hcurrent
    obtain rfl : ops = ops₁ ++ [c.operation m₁ fs₁ previous] := by
      have hlast := hnoted.current
      rw [hadd.appended, Manager.append, ← hcurrent, Option.some.injEq] at hlast
      have hops := congrArg Transaction.operations hlast
      simpa [Change.operation, eq_comm] using hops
    rw [List.reverse_append, List.reverse_singleton, List.singleton_append] at herr ⊢
    obtain ⟨hdone, hrest⟩ := Rollback.revertEach_clean hdry herr
    rw [hrest] at herr ⊢
    -- without a failure there was room, so the operation leads back
    have hroomy := hc.roomy_of_reverted hk₁' hroot' hid hadd hkR.sound hR hdone
    obtain ⟨t', op, need, ht', happ, -, htraced⟩ := hc.traced hk₁' hroot' hid hroomy
    obtain rfl : t' = t₁ := Option.some.inj (ht'.symm.trans hadd.current)
    obtain rfl : op = c.operation m₁ fs₁ previous := Manager.append_inj (happ.symm.trans hadd.appended)
    have hsecured : Secured g m.store R (c.operation m₁ fs₁ previous, need) :=
      (hstore ▸ htraced.secured).congr hkR (hbackups c (by simp))
    obtain ⟨a, R₁, hrun, -, hrev, halike, hund⟩ := htraced.undoes.revert R verify options.force
      (hstore ▸ hkR) hR (hstore ▸ hsecured)
    rw [hstore] at hrun
    rw [hrun] at herr ⊢
    rw [List.map_append, List.nodup_append] at hnodup
    have hreturned := ih hids' hnodup.1 hnoted₁ (hund.keeps hkR) halike (fun c' hc' => ?_) herr
    · refine ⟨hreturned.alike, hund.trans hreturned.undisturbed, fun l n b hl hx => ?_⟩
      rw [hreturned.entry l n b hl hx, Fate.of_snoc]
      cases hfate : Fate.of m.root l cs with
      | standing l₁ =>
        obtain ⟨hl₁, hx₁⟩ := h.standing hk hroot hids' ht hl hx hfate
        rw [← hroot₁]
        exact hrev.at_eq hroot' hkR.sound halike hl₁ hx₁
      | remoded | replaced => rfl
    · have hne : backupName c'.id ≠ backupName c.id := fun heq =>
        hnodup.2.2 _ (List.mem_map_of_mem hc') _ (by simp) (backupName_inj heq)
      rw [hund.at_eq _ (.inl (Grounds.within_cons (by simp [Grounds.folders]) _)),
        hbackups c' (by simp [hc']), htraced.backups _ hne]

/-! ### Rolling back -/

namespace Manager

variable {now : Instant} {options : Rollback.Options} {p : Rollback.Pending}

/-- Recording a rollback changes the tree in the directories of the store alone. -/
theorem finalize_tended (hk : Keeps g m.store fs) (hp : PlainIds m) (ht : m.transaction? t.id = some t)
    (howes : Owes t options p) : Tended g fs ((m.finalize now options p).run fs).2 := by
  have hcases : Finalized m now options p t fs ((m.finalize now options p).run fs) :=
    finalize_cases (howes.id ▸ ht)
  obtain ⟨content, hwriting⟩ := saveTransaction_writing (t := t.reverted now) hk (hp.transaction _ _ ht)
  have hsaved : ∀ r k, (m.store.saveTransaction (t.reverted now)).run fs = (r, k) → Tended g fs k := by
    intro r k hsave
    have hlast := mem_stages_run (m.store.saveTransaction (t.reverted now)) fs
    rw [hsave] at hlast
    exact hk.tended_writing (by simp [Grounds.folders]) (hwriting k hlast)
  generalize (m.finalize now options p).run fs = out at hcases
  cases hcases with
  | quiet => exact Tended.refl hk
  | failed _ _ _ hsave => exact hsaved _ _ hsave
  | @recorded fs₁ fs₂ warnings _ _ _ hsave hremove =>
    have hfirst := hsaved _ _ hsave
    split at hremove
    · obtain ⟨rfl, rfl⟩ := Prod.mk.inj hremove
      exact hfirst
    · have hk₁ := hfirst.keeps hk
      have hshed := (removeBackups_meets hk₁ fun i hi => by
        obtain ⟨op, hop, -, rfl⟩ := howes.used i hi
        exact hp.operation _ t ht op hop).result
      have hfs : ((removeBackups ⟨m.store.backupsDirectory⟩ p.consumedBackups).run fs₁).2 = fs₂ := by
        rw [backups] at hremove
        rw [hremove]
      rw [hfs] at hshed
      exact hfirst.trans (hshed.tended hk₁ (by simp [Grounds.folders]))

theorem errors_of_success (ht : m.transaction? p.result.transactionId = some t)
    (hsuccess : ((m.finalize now options p).run fs).1.1.success = true) : p.result.errors = [] := by
  have hcases : Finalized m now options p t fs ((m.finalize now options p).run fs) := finalize_cases ht
  generalize (m.finalize now options p).run fs = out at hcases hsuccess
  cases hcases with
  | quiet => simpa [settle] using hsuccess
  | failed _ herrors | recorded _ herrors => exact herrors

/-- A rollback of a completed transaction that succeeds has reverted all its operations without a
failure, and then changed the tree in the directories of the store alone. -/
theorem rollback_succeeded (hkept : m.transaction? t.id = some t) (hstatus : t.status = .completed)
    (hp : PlainIds m)
    (hsuccess : ((m.rollback now options t.id).run fs).1.1.success = true) :
    let out := (Rollback.revertEach m.backups m.settings.verifyChecksums options {}
      t.operations.reverse).run fs
    out.1.errors = [] ∧
      (Keeps g m.store out.2 → Tended g out.2 ((m.rollback now options t.id).run fs).2) := by
  intro out
  have howes := execute_owes m options t fs
  rw [rollback_some hkept, run_bind] at hsuccess ⊢
  have herrors := errors_of_success (m := m.announcing t) (by rw [howes.id]; exact hkept) hsuccess
  have hexecute : ((m.execute options t).run fs).1.result.errors = out.1.errors ∧
      ((m.execute options t).run fs).2 = out.2 := by
    simp only [execute, hstatus, run_bind, (m.looks_previewOf t).run fs] at herrors ⊢
    split at herrors
    · cases herrors
    · next hgo => rw [if_neg hgo, run_bind]; exact ⟨rfl, rfl⟩
  refine ⟨hexecute.1.symm.trans herrors, fun hk => ?_⟩
  rw [← hexecute.2] at hk ⊢
  exact finalize_tended (m := m.announcing t) hk ⟨hp.transaction, hp.operation⟩ hkept howes

end Manager

structure Closed (g : Grounds) (m : Manager) (cs : List Change) (t : Transaction) (fs : FileSystem)
    (m' : Manager) (fs' : FileSystem) : Prop where
  kept : m'.transaction? t.id = some t
  completed : t.status = .completed
  store : m'.store = m.store
  plainIds : Manager.PlainIds m'
  tended : Tended g fs fs'
  backups : ∀ c ∈ cs, fs'.at (backupName c.id :: g.backups) = fs.at (backupName c.id :: g.backups)

theorem closed_of_complete {r : String} (hk : Keeps g m.store fs) (hp : Manager.PlainIds m)
    (hcurrent : m.current = some t) (hid : Plain t.id)
    (hsame : t.operations.map (·.id) = cs.map (·.id)) (hfresh : Fresh m (cs.map (·.id)))
    (hcomplete : m.complete.run fs = ((.ok r, m'), fs')) (hkept : (m'.transaction? t.id).isSome) :
    ∃ u, u.id = t.id ∧ u.operations = t.operations ∧ Closed g m cs u fs m' fs' := by
  rw [← hsame] at hfresh
  have hplain : ∀ op ∈ t.operations, Plain op.id := fun op hop =>
    hfresh.plain _ (List.mem_map_of_mem hop)
  obtain ⟨-, text, fs₁, m₁, hdone, rfl⟩ := Manager.complete_ok hcomplete hk hp hcurrent hid hplain
  refine ⟨{ t with status := .completed }, rfl, rfl, ?_⟩
  exact
    { kept := hdone.kept hkept, completed := rfl
      store := by
        rw [← show m₁.store = m.store by rw [hdone.pruned.manager]; rfl]
        rfl
      plainIds := plainIds_congr (hdone.pruned.plainIds (hp.keep hid hplain)) fun _ => rfl
      tended := hdone.tended hk
      backups := fun c hc => by
        obtain ⟨op, hop, heq⟩ := List.mem_map.1 (hsame ▸ List.mem_map_of_mem hc :
          c.id ∈ t.operations.map (·.id))
        rw [← heq]
        exact hdone.backups hk hfresh hkept op hop }

/-- A rollback of recorded changes that succeeds gives every file back with its content. The permission
bits are the old ones too, unless the file was overwritten or removed before its bits were ever
changed: then it is a new file, which only its owner may read and write. -/
theorem rollback_leaves_bits {id r name description command : String} {metadata : Metadata}
    {now later : Instant} {options : Rollback.Options} {result : Rollback.Result}
    (hk : Keeps g m.store fs) (hroot : m.root.isAbsolute = true) (hp : Manager.PlainIds m)
    (hid : Plain id) (hfresh : Fresh m (cs.map (·.id)))
    (hstart : m.start id now name description command metadata = (.ok id, m₁))
    (hrecorded : Recorded g (fun _ _ _ => True) m₁ fs cs m₂ fs₂)
    (hcomplete : m₂.complete.run fs₂ = ((.ok r, m₃), fs₃)) (hkept : (m₃.transaction? id).isSome)
    (hdry : options.dryRun = false)
    (hrun : (m₃.rollback later options id).run fs₃ = ((result, m'), fs'))
    (hsuccess : result.success = true) (hl : ¬g.Within l) (hx : fs.at l = some (.file n b)) :
    ∃ n', fs'.at l = some (.file n' b) ∧
      n' % 0o10000 = if Fate.of m.root l cs = .replaced then 0o600 else n % 0o10000 := by
  have hids : ∀ c ∈ cs, Plain c.id := fun c hc => hfresh.plain _ (List.mem_map_of_mem hc)
  obtain ⟨hroot₁, hstore₁, hhistory₁, hcurrent₁⟩ := start_ok hstart
  rw [← hstore₁] at hk
  rw [← hroot₁] at hroot ⊢
  obtain ⟨ops, hnoted, hsame, hk₂, -⟩ := hrecorded.passed hk hroot hids hcurrent₁
  have hstore₂ : m₂.store = m₁.store := by rw [hnoted.manager]
  have hkept₂ := transaction?_noted hhistory₁ hnoted
  have hfresh₂ : Fresh m₂ (cs.map (·.id)) :=
    ⟨hfresh.plain, hfresh.nodup, fun j t ht => hfresh.unused j t (hkept₂ j ▸ ht)⟩
  obtain ⟨u, hu, hops, hclosed⟩ := closed_of_complete (hstore₂ ▸ hk₂) (plainIds_congr hp hkept₂)
    hnoted.current hid (by simpa [Transaction.start] using hsame) hfresh₂ hcomplete hkept
  obtain rfl : u.id = id := hu
  replace hops : u.operations = ops := hops
  have hk₃ : Keeps g m₁.store fs₃ := hclosed.tended.keeps hk₂
  obtain ⟨herr, hrest⟩ := Manager.rollback_succeeded (g := g) hclosed.kept hclosed.completed
    hclosed.plainIds (by rw [hrun]; exact hsuccess)
  rw [hops, Manager.backups, hclosed.store, hstore₂] at herr hrest
  rw [hrun] at hrest
  have hreturned := hrecorded.returned hk hroot hids hfresh.nodup hcurrent₁ hnoted hdry hk₃
    hclosed.tended.alike hclosed.backups herr
  have hlast := (hrest (hreturned.undisturbed.keeps hk₃)).beyond l hl
  rw [hreturned.entry l n b hl hx] at hlast
  rw [hlast]
  cases hfate : Fate.of m₁.root l cs with
  | standing l' =>
    obtain ⟨hl', hx'⟩ := hrecorded.standing hk hroot hids hcurrent₁ hl hx hfate
    exact ⟨n, by rw [Fate.entry, hclosed.tended.beyond l' hl', hx'], by simp⟩
  | remoded => exact ⟨n % 0o10000, rfl, by simp⟩
  | replaced => exact ⟨0o600, rfl, rfl⟩

namespace Sample

def place : Location := [Utf8.encode "f", Utf8.encode "p"]

def remode : Change := ⟨"c", ⟨0, 0⟩, .ofString "f", .chmod 0o755⟩

def rewrite : Change := ⟨"o", ⟨0, 0⟩, .ofString "f", .update 0o755 [121]⟩

def remoded : Manager × FileSystem × FileSystem :=
  (remode.make? started tree).get (by decide +kernel)

def rewritten : Manager × FileSystem × FileSystem :=
  (rewrite.make? remoded.1 remoded.2.2).get (by decide +kernel)

def completedRewritten : (Except Error String × Manager) × FileSystem :=
  rewritten.1.complete.run rewritten.2.2

def completedOverwritten : (Except Error String × Manager) × FileSystem :=
  overwritten.1.complete.run overwritten.2.2

end Sample

theorem rollback_leaves_bits_of_remoded_and_overwritten :
    let out := (Sample.completedRewritten.1.2.rollback ⟨1, 0⟩ {} "t").run Sample.completedRewritten.2
    out.1.1.success = true ∧ Sample.tree.at Sample.place = some (.file 0o644 [120]) ∧
      ∃ n', out.2.at Sample.place = some (.file n' [120]) ∧ n' % 0o10000 = 0o644 := by
  intro out
  have hremode : Sample.remode.make? Sample.started Sample.tree = some Sample.remoded :=
    (Option.some_get _).symm
  have hrewrite : Sample.rewrite.make? Sample.remoded.1 Sample.remoded.2.2 = some Sample.rewritten :=
    (Option.some_get _).symm
  have hrecorded : Recorded Sample.grounds (fun _ _ _ => True) Sample.started Sample.tree
      ([] ++ [Sample.remode] ++ [Sample.rewrite]) Sample.rewritten.1 Sample.rewritten.2.2 :=
    .snoc (.snoc .nil (.of_make? (by decide +kernel) hremode) trivial)
      (.of_make? (by decide +kernel) hrewrite) trivial
  have hstart : Sample.manager.start "t" ⟨0, 0⟩ "" "" "" [] = (.ok "t", Sample.started) := rfl
  have hended : Sample.completedRewritten.1.1 = .ok "t" ∧ out.1.1.success = true := by decide +kernel
  obtain ⟨hid, hsuccess⟩ := hended
  have hcomplete : Sample.rewritten.1.complete.run Sample.rewritten.2.2 =
      ((.ok "t", Sample.completedRewritten.1.2), Sample.completedRewritten.2) := by
    rw [← hid, ← Sample.completedRewritten]
  have hfresh : Fresh Sample.manager
      (([] ++ [Sample.remode] ++ [Sample.rewrite] : List Change).map (·.id)) :=
    ⟨by decide +kernel, by decide +kernel, fun _ _ h => by cases h⟩
  have hx : Sample.tree.at Sample.place = some (.file 0o644 [120]) := by decide +kernel
  have hdry : ({} : Rollback.Options).dryRun = false := rfl
  have hrun : (Sample.completedRewritten.1.2.rollback ⟨1, 0⟩ {} "t").run Sample.completedRewritten.2 =
      ((out.1.1, out.1.2), out.2) := by rw [Prod.eta]
  obtain ⟨n', hn', hbits⟩ := rollback_leaves_bits Sample.keeps (by decide +kernel) Sample.plainIds
    (by decide +kernel) hfresh hstart hrecorded hcomplete (by decide +kernel) hdry hrun hsuccess
    (by decide +kernel) hx
  rw [if_neg (by decide +kernel)] at hbits
  exact ⟨hsuccess, hx, n', hn', hbits⟩

/-- A file that was overwritten in place, with no change of its permission bits, comes back with others. -/
theorem rollback_of_overwritten_loses_bits :
    Keeps Sample.grounds Sample.manager.store Sample.tree ∧
      Recorded Sample.grounds (fun _ _ _ => True) Sample.started Sample.tree [Sample.overwrite]
        Sample.overwritten.1 Sample.overwritten.2.2 ∧
      Sample.overwritten.1.complete.run Sample.overwritten.2.2 =
        ((.ok "t", Sample.completedOverwritten.1.2), Sample.completedOverwritten.2) ∧
      (Sample.completedOverwritten.1.2.transaction? "t").isSome ∧
      Sample.tree.at Sample.place = some (.file 0o644 [120]) ∧
      let out := (Sample.completedOverwritten.1.2.rollback ⟨1, 0⟩ {} "t").run
        Sample.completedOverwritten.2
      out.1.1.success = true ∧ out.2.at Sample.place = some (.file 0o600 [120]) := by
  have hchange : Sample.overwrite.make? Sample.started Sample.tree = some Sample.overwritten :=
    (Option.some_get _).symm
  have hbracket : Bracket Sample.grounds Sample.started Sample.tree Sample.overwrite
      Sample.overwritten.1 Sample.overwritten.2.1 Sample.overwritten.2.2 :=
    .of_make? (by decide +kernel) hchange
  have hended : Sample.completedOverwritten.1.1 = .ok "t" ∧
      (Sample.completedOverwritten.1.2.transaction? "t").isSome ∧
      Sample.tree.at Sample.place = some (.file 0o644 [120]) ∧
      let out := (Sample.completedOverwritten.1.2.rollback ⟨1, 0⟩ {} "t").run
        Sample.completedOverwritten.2
      out.1.1.success = true ∧ out.2.at Sample.place = some (.file 0o600 [120]) := by decide +kernel
  refine ⟨Sample.keeps, Recorded.nil.snoc hbracket trivial, ?_, hended.2⟩
  rw [← hended.1, ← Sample.completedOverwritten]

end Retrace
