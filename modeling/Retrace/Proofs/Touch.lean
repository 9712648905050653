import Retrace.Proofs.Footprint
import Retrace.Proofs.Preview

/-!
The entries that a rollback can have touched: those that the recorded paths of its operations lead to,
each in a tree that comes about while the operation is reverted (`Rollback.revertEach_spares`).
-/
namespace Retrace

open FileSystem Script

namespace Operation

variable {op : Operation} {k : FileSystem} {l : Location}

/-- The places that an operation concerns where it is reverted in a tree: that of its path; for
content also the file that the path leads to, for permission bits that alone; for a move both ends,
all below the moved entry, and what the former end leads to. -/
def Reaches (op : Operation) (k : FileSystem) (l : Location) : Prop :=
  match op.kind with
  | .create | .copy | .symlink | .directoryCreate => k.spot? op.path = some l
  | .update | .delete => k.spot? op.path = some l ∨ k.realLocation op.path = .ok l
  | .chmod => k.goal? op.path = some l
  | .move => (∃ j ∈ k.spot? op.path, j <:+ l) ∨
      ∃ former ∈ op.previousPath, k.spot? former = some l ∨ k.goal? former = some l
  | .envVariable | .packageInstall => False

instance (k : FileSystem) (l : Location) : (op : Operation) → Decidable (op.Reaches k l)
  | { kind := .create, .. } | { kind := .copy, .. } | { kind := .symlink, .. }
  | { kind := .directoryCreate, .. } | { kind := .chmod, .. } => inferInstanceAs (Decidable (_ = _))
  | { kind := .update, .. } | { kind := .delete, .. } => inferInstanceAs (Decidable (_ ∨ _))
  | { kind := .move, .. } => inferInstanceAs (Decidable ((∃ j ∈ _, _) ∨ ∃ former ∈ _, _ ∨ _))
  | { kind := .envVariable, .. } | { kind := .packageInstall, .. } => inferInstanceAs (Decidable False)

/-- The paths of an operation are absolute, as recorded ones are. -/
structure IsRooted (op : Operation) : Prop where
  path : op.path.isAbsolute = true
  former : ∀ p ∈ op.previousPath, p.isAbsolute = true

instance (op : Operation) : Decidable op.IsRooted :=
  decidable_of_iff (op.path.isAbsolute = true ∧ ∀ p ∈ op.previousPath, p.isAbsolute = true)
    ⟨fun h => ⟨h.1, h.2⟩, fun h => ⟨h.path, h.former⟩⟩

end Operation

namespace Rollback

variable {b : Backups} {verify force : Bool} {op : Operation} {fs : FileSystem} {p : Path}
  {T : FileSystem → Location → Prop}

theorem within_removeCreated (h : ∀ l, fs.spot? p = some l → T fs l) : (removeCreated p).Within T fs :=
  (Files.within_removeIfPresent h).bind fun _ _ _ => Each.pure _

theorem within_read (b : Backups) (id : String) : (b.read id).Within T fs :=
  (Within.ask (c := .read (b.pathFor id)) trivial fun _ => False.elim).bind fun r _ _ => by
    cases r with
    | ok c => exact Each.pure _
    | error e => dsimp only; split <;> exact Each.pure _

theorem within_restoreBackup (hs : fs.Sound) (hp : op.path.isAbsolute = true) :
    (restoreBackup b verify force op).Within (Files.Writes fs op.path) fs := by
  refine (within_read b op.id).bind fun r fs' hr => ?_
  obtain rfl : fs = fs' := congrArg Prod.snd ((b.read_eq op.id fs).symm.trans hr)
  rcases r with e | _ | content
  · exact Each.pure _
  · exact Each.pure _
  · dsimp only
    split
    · exact Each.pure _
    · exact (Files.within_writeAtomic hs hp).bind fun r _ _ => by cases r <;> exact Each.pure _

theorem within_restoreKnown (hs : fs.Sound) (hp : op.path.isAbsolute = true) :
    (restoreKnown op).Within (Files.Writes fs op.path) fs := by
  rw [restoreKnown]
  split
  · exact (Files.within_writeAtomic hs hp).bind fun r _ _ => Each.pure _
  · split
    · exact within_removeCreated fun l => .inl
    · exact Each.pure _

theorem within_moveBack (hop : op.IsRooted) (hkind : op.kind = .move) :
    (moveBack force op).Within op.Reaches fs := by
  have hreaches : ∀ k l, op.Reaches k l ↔ (∃ j ∈ k.spot? op.path, j <:+ l) ∨
      ∃ former ∈ op.previousPath, k.spot? former = some l ∨ k.goal? former = some l := by
    simp [Operation.Reaches, hkind]
  rw [moveBack]
  cases hformer : op.previousPath with
  | none => exact Each.pure _
  | some former =>
    refine (Files.within_present _).bind fun moved _ _ => ?_
    refine (Files.within_present _).bind fun back _ _ => ?_
    split
    · split <;> exact Each.pure _
    split
    · exact Each.pure _
    · refine (Files.within_move (hop.former former hformer) (fun k l h => ?_) fun k l h => ?_).bind
        fun _ _ _ => Each.pure _
      · exact (hreaches k l).2 (.inl h)
      · exact (hreaches k l).2 (.inr ⟨former, hformer, h⟩)

theorem within_removeLink (h : ∀ k l, k.spot? p = some l → T k l) : (removeLink p).Within T fs := by
  refine (Within.ask (c := .linkStatus p) trivial fun _ => False.elim).bind fun r _ _ => ?_
  rcases r with e | _ | _ | _
  · dsimp only
    split <;> exact Each.pure _
  · exact Each.pure _
  · exact Each.pure _
  · exact (Within.ask (c := .removeFile p) trivial (h _)).bind fun _ _ _ => Each.pure _

theorem within_removeDirectory (h : ∀ k l, k.spot? p = some l → T k l) :
    (removeDirectory p).Within T fs := by
  refine (Files.within_present p).bind fun present _ _ => ?_
  split
  · exact Each.pure _
  · refine (Within.ask (c := .list p) trivial fun _ => False.elim).bind fun r _ _ => ?_
    rcases r with e | _ | _
    · exact Each.pure _
    · exact (Within.ask (c := .removeDirectory p) trivial (h _)).bind fun _ _ _ => Each.pure _
    · exact Each.pure _

theorem within_restoreMode (h : ∀ k l, k.goal? op.path = some l → T k l) :
    (restoreMode op).Within T fs := by
  rw [restoreMode]
  split
  · exact Each.pure _
  · next mode _ =>
    refine (Files.within_present _).bind fun present _ _ => ?_
    split
    · exact (Within.ask (c := .setMode op.path mode) trivial (h _)).bind fun _ _ _ => Each.pure _
    · exact Each.pure _

/-- Reverting an operation hits what it reaches, and places that were free. -/
theorem within_revert (hs : fs.Sound) (hop : op.IsRooted) :
    (revert b verify force op).Within
      (fun k l => op.Reaches k l ∨ op.Reaches fs l ∨ fs.at l = none) fs := by
  have hwrites : op.kind = .update ∨ op.kind = .delete → ∀ k l, Files.Writes fs op.path k l →
      op.Reaches k l ∨ op.Reaches fs l ∨ fs.at l = none := by
    rintro hkind k l (h | ⟨-, h⟩ | h)
    · left; rcases hkind with hkind | hkind <;> simp [Operation.Reaches, hkind, h]
    · right; left; rcases hkind with hkind | hkind <;> simp [Operation.Reaches, hkind, h]
    · exact .inr (.inr h)
  have hplain : ∀ {s : Script Attempt}, s.Within op.Reaches fs →
      s.Within (fun k l => op.Reaches k l ∨ op.Reaches fs l ∨ fs.at l = none) fs :=
    fun h => h.mono fun k l => .inl
  rw [revert]
  cases hkind : op.kind with
  | create | copy =>
    exact hplain (within_removeCreated fun l h => by simpa [Operation.Reaches, hkind] using h)
  | update | delete =>
    dsimp only
    split
    · exact (within_restoreBackup hs hop.path).mono (hwrites (by simp [hkind]))
    · exact (within_restoreKnown hs hop.path).mono (hwrites (by simp [hkind]))
  | move => exact hplain (within_moveBack hop hkind)
  | symlink => exact hplain (within_removeLink fun k l h => by simpa [Operation.Reaches, hkind] using h)
  | directoryCreate =>
    exact hplain (within_removeDirectory fun k l h => by simpa [Operation.Reaches, hkind] using h)
  | chmod => exact hplain (within_restoreMode fun k l h => by simpa [Operation.Reaches, hkind] using h)
  | envVariable | packageInstall => exact Each.pure _

def Touches (b : Backups) (verify force : Bool) (op : Operation) (fs : FileSystem) (l : Location) :
    Prop :=
  ∃ x ∈ (revert b verify force op).calls fs, op.Reaches x.2 l

instance (b : Backups) (verify force : Bool) (op : Operation) (fs : FileSystem) :
    DecidablePred (Touches b verify force op fs) :=
  fun _ => inferInstanceAs (Decidable (∃ x ∈ _, _))

theorem revert_spares (hs : fs.Sound) (hop : op.IsRooted) :
    Spares fs (Touches b verify force op fs) ((revert b verify force op).run fs).2 :=
  Script.spares_calls hs (within_revert hs hop)

/-- The operations that are reverted, each with the tree that it finds. -/
def reached (b : Backups) (verify : Bool) (options : Options) :
    List Operation → FileSystem → List (Operation × FileSystem)
  | [], _ => []
  | op :: ops, fs =>
    if options.dryRun then []
    else
      let r := (revert b verify options.force op).run fs
      (op, fs) :: if r.1.verdict.isOk || options.force then reached b verify options ops r.2 else []

variable {options : Options} {o : Outcome} {ops : List Operation} {x : Operation × FileSystem}

/-- The places that some operation reaches while it is reverted. -/
def Disturbs (b : Backups) (verify : Bool) (options : Options) (ops : List Operation)
    (fs : FileSystem) (l : Location) : Prop :=
  ∃ x ∈ reached b verify options ops fs, Touches b verify options.force x.1 x.2 l

instance (b : Backups) (verify : Bool) (options : Options) (ops : List Operation) (fs : FileSystem) :
    DecidablePred (Disturbs b verify options ops fs) :=
  fun _ => inferInstanceAs (Decidable (∃ x ∈ _, _))

/-- What is said where an operation could not be reverted. -/
def complaint (op : Operation) (e : Error) : String :=
  op.kind.name ++ " " ++ op.path.display ++ ": " ++ e.message

theorem revertEach_cons (hdry : options.dryRun = false) (o : Outcome) (op : Operation)
    (ops : List Operation) (fs : FileSystem) :
    (revertEach b verify options o (op :: ops)).run fs =
      let r := (revert b verify options.force op).run fs
      if r.1.verdict.isOk || options.force then
        (revertEach b verify options (o.add op r.1) ops).run r.2
      else (o.add op r.1, r.2) := by
  rw [revertEach, if_neg (by simp [hdry]), run_bind]
  dsimp only
  cases hv : ((revert b verify options.force op).run fs).1.verdict with
  | ok v => rfl
  | error e => cases hf : options.force <;> rfl

theorem reached_cons (hdry : options.dryRun = false) (op : Operation) (ops : List Operation)
    (fs : FileSystem) :
    reached b verify options (op :: ops) fs =
      let r := (revert b verify options.force op).run fs
      (op, fs) :: if r.1.verdict.isOk || options.force then reached b verify options ops r.2 else [] := by
  rw [reached, if_neg (by simp [hdry])]

theorem revertEach_dry (hdry : options.dryRun = true) (o : Outcome) (ops : List Operation)
    (fs : FileSystem) :
    reached b verify options ops fs = [] ∧
      (revertEach b verify options o ops).run fs =
        ({ o with rolledBack := o.rolledBack + ops.length }, fs) := by
  induction ops generalizing o with
  | nil => exact ⟨rfl, rfl⟩
  | cons op ops ih =>
    refine ⟨by rw [reached, if_pos hdry], ?_⟩
    rw [revertEach, if_pos hdry, (ih _).2, List.length_cons]
    simp only [Nat.add_assoc, Nat.add_comm 1]

theorem mem_of_reached (hx : x ∈ reached b verify options ops fs) : x.1 ∈ ops := by
  induction ops generalizing fs with
  | nil => cases hx
  | cons op ops ih =>
    cases hdry : options.dryRun with
    | true => rw [(revertEach_dry hdry {} _ fs).1] at hx; cases hx
    | false =>
      rw [reached_cons hdry] at hx
      rcases List.mem_cons.1 hx with rfl | hx
      · exact List.mem_cons_self
      · split at hx
        · exact List.mem_cons_of_mem _ (ih hx)
        · cases hx

/-- Everything is spared but what an operation reaches, at the beginning of each operation and in the
end. -/
theorem revertEach_spares (hs : fs.Sound) (hops : ∀ op ∈ ops, op.IsRooted) :
    Spares fs (Disturbs b verify options ops fs) ((revertEach b verify options o ops).run fs).2 ∧
      ∀ x ∈ reached b verify options ops fs, Spares fs (Disturbs b verify options ops fs) x.2 := by
  induction ops generalizing o fs with
  | nil => exact ⟨Spares.refl hs, fun x hx => nomatch hx⟩
  | cons op ops ih =>
    cases hdry : options.dryRun with
    | true =>
      obtain ⟨hnone, hrun⟩ : reached b verify options (op :: ops) fs = [] ∧ _ :=
        revertEach_dry hdry o (op :: ops) fs
      rw [hrun, hnone]
      exact ⟨Spares.refl hs, fun x hx => nomatch hx⟩
    | false =>
      have hfirst : (op, fs) ∈ reached b verify options (op :: ops) fs := by
        rw [reached_cons hdry]
        exact List.mem_cons_self
      have hone : Spares fs (Disturbs b verify options (op :: ops) fs)
          ((revert b verify options.force op).run fs).2 :=
        (revert_spares hs (hops op List.mem_cons_self)).mono fun l _ hl => ⟨_, hfirst, hl⟩
      rw [revertEach_cons hdry]
      dsimp only
      by_cases hgo : (((revert b verify options.force op).run fs).1.verdict.isOk || options.force) = true
      · rw [if_pos hgo]
        obtain ⟨hend, hall⟩ := ih (o := o.add op ((revert b verify options.force op).run fs).1)
          hone.sound fun u hu => hops u (List.mem_cons_of_mem _ hu)
        have hreached : reached b verify options (op :: ops) fs = (op, fs) ::
            reached b verify options ops ((revert b verify options.force op).run fs).2 := by
          rw [reached_cons hdry]
          dsimp only
          rw [if_pos hgo]
        -- what the later operations reach is reached
        have hlater : ∀ {k}, Spares ((revert b verify options.force op).run fs).2
            (Disturbs b verify options ops ((revert b verify options.force op).run fs).2) k →
            Spares fs (Disturbs b verify options (op :: ops) fs) k := fun h =>
          hone.trans (h.mono fun l _ ⟨x, hx, hl⟩ => ⟨x, hreached ▸ List.mem_cons_of_mem _ hx, hl⟩)
        refine ⟨hlater hend, fun x hx => ?_⟩
        rw [hreached] at hx
        rcases List.mem_cons.1 hx with rfl | hx
        · exact Spares.refl hs
        · exact hlater (hall x hx)
      · rw [if_neg hgo]
        refine ⟨hone, fun x hx => ?_⟩
        rw [reached_cons hdry] at hx
        dsimp only at hx
        rw [if_neg hgo] at hx
        rw [List.mem_singleton.1 hx]
        exact Spares.refl hs

theorem errors_add_eq (o : Outcome) (op : Operation) (a : Attempt) {s : String}
    (hs : s ∈ (o.add op a).errors) :
    s ∈ o.errors ∨ ∃ e, a.verdict = .error e ∧ s = complaint op e := by
  rcases hv : a.verdict with e | _ | _
  · simp only [Outcome.add, hv, List.mem_append, List.mem_singleton] at hs
    exact hs.imp_right fun h => ⟨e, rfl, h⟩
  · exact .inl (by simpa [Outcome.add, hv] using hs)
  · exact .inl (by simpa [Outcome.add, hv] using hs)

/-- Each error is the complaint of an operation that was reached and could not be reverted. -/
theorem mem_errors_revertEach {s : String}
    (hs : s ∈ ((revertEach b verify options o ops).run fs).1.errors) :
    s ∈ o.errors ∨ ∃ x ∈ reached b verify options ops fs, ∃ e,
      ((revert b verify options.force x.1).run x.2).1.verdict = .error e ∧ s = complaint x.1 e := by
  induction ops generalizing o fs with
  | nil => exact .inl hs
  | cons op ops ih =>
    cases hdry : options.dryRun with
    | true =>
      rw [(revertEach_dry hdry o (op :: ops) fs).2] at hs
      exact .inl hs
    | false =>
      rw [revertEach_cons hdry] at hs
      rw [reached_cons hdry]
      dsimp only at hs ⊢
      have hone : ∀ {xs}, s ∈ (o.add op ((revert b verify options.force op).run fs).1).errors →
          s ∈ o.errors ∨ ∃ x ∈ (op, fs) :: xs, ∃ e,
            ((revert b verify options.force x.1).run x.2).1.verdict = .error e ∧
              s = complaint x.1 e := fun h =>
        (errors_add_eq o op _ h).imp_right fun ⟨e, he, hs⟩ => ⟨_, List.mem_cons_self, e, he, hs⟩
      split at hs
      · next hgo =>
        rw [if_pos hgo]
        rcases ih hs with h | ⟨x, hx, h⟩
        · exact hone h
        · exact .inr ⟨x, List.mem_cons_of_mem _ hx, h⟩
      · exact hone hs

end Rollback
end Retrace
