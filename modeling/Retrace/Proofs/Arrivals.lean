import Retrace.Proofs.Ancestors
import Retrace.Proofs.Touch

/-!
Where scripts bring entries. A call brings something to a place that was free only where its path leads
(`Call.perform_brings`). Reverting an operation brings nothing but what its paths lead to, the
directories above them, and files beside them while content is written (`Rollback.puts_revert`).
-/
namespace Retrace

open FileSystem Script
open Retrace.Path (IsName dot)

variable {fs k : FileSystem} {l : Location} {p q : Path} {content : Bytes}

namespace FileSystem

variable {k' : FileSystem}

theorem Edit.eq_of_new {j : Location} {o : Option Entry} (h : Edit k j o k') (hl : k.at l = none)
    (hsome : (k'.at l).isSome) : j = l := by
  by_contra hne
  rw [h.at_of_ne (Ne.symm hne), hl] at hsome
  cases hsome

theorem erase_brings_none {w : Bytes} {d : Location} (hl : k.at l = none) :
    ¬((k.erase (w :: d)).at l).isSome := by
  rw [at_erase _ _ _ (List.cons_ne_nil _ _), hl, ite_self]
  exact Bool.false_ne_true

theorem makeDirectory_brings (hs : k.Sound) (hp : p.isAbsolute = true) (h : k.makeDirectory p = .ok k')
    (hl : k.at l = none) (hsome : (k'.at l).isSome) : k.spot? p = some l := by
  obtain ⟨a, w, ha, hw, hfree, rfl⟩ := makeDirectory_inv h
  rw [← (Edit.insert hs (approach_directory hs hp ha) (.inr (by simp [hfree]))).eq_of_new hl hsome]
  exact spot?_of_approach ha hw

theorem rename_brings (hs : k.Sound) (h : k.rename p q = .ok k') (hl : k.at l = none)
    (hsome : (k'.at l).isSome) : ∃ j ∈ k.spot? q, j <:+ l := by
  obtain ⟨a, v, b, w, e, -, -, hb, hw, -, ⟨-, rfl⟩ | ⟨hmove, -, rfl⟩⟩ := rename_inv hs h
  · rw [hl] at hsome
    cases hsome
  · refine ⟨_, spot?_of_approach hb hw, ?_⟩
    by_contra hnot
    rw [at_relocate hs hmove, if_neg hnot, hl, ite_self] at hsome
    cases hsome

theorem setMode_brings_none {m : Nat} (h : k.setMode p m = .ok k') (hl : k.at l = none) :
    ¬(k'.at l).isSome := by
  obtain ⟨⟨j, e⟩, hentry, hset⟩ := exists_of_bind (eq_ok_of_named h)
  obtain ⟨-, hat⟩ := goal?_of_entryAt hentry
  obtain rfl := Except.ok.inj hset
  have hne : l ≠ j := fun heq => by rw [heq, hat] at hl; cases hl
  have hstays : (k.insert j (e.withMode (m % 0o10000))).at l = k.at l := by
    cases j with
    | nil => exact at_insert_nil k _ l hne
    | cons w d => rw [at_insert _ _ _ _ (List.cons_ne_nil w d), if_neg hne]
  rw [hstays, hl]
  exact Bool.false_ne_true

theorem fill_brings_none (hs : k.Sound) (h : k.fill p content = .ok k') (hl : k.at l = none) :
    ¬(k'.at l).isSome := fun hsome => by
  obtain ⟨⟨j, e⟩, hentry, hfill⟩ := exists_of_bind (eq_ok_of_named h)
  obtain ⟨-, hat⟩ := goal?_of_entryAt hentry
  cases e with
  | file m c =>
    obtain rfl := Except.ok.inj hfill
    obtain rfl := (Edit.insert_file hs (.inl hat) (by simp [hat]) _).eq_of_new hl hsome
    rw [hl] at hat
    cases hat
  | _ => cases hfill

theorem write_brings (hs : k.Sound) (hp : p.isAbsolute = true) (h : k.write p content = .ok k')
    (hl : k.at l = none) (hsome : (k'.at l).isSome) : k.goal? p = some l := by
  obtain ⟨⟨j, k₁⟩, hopen, hwrite⟩ := exists_of_bind h
  obtain ⟨hgoal, -, m, hedit⟩ := openEmpty_edit hs hp hopen
  dsimp only at hwrite
  split at hwrite
  · obtain rfl := Except.ok.inj hwrite
    rwa [← (hedit.trans (Edit.insert_file hedit.sound (.inl hedit.at_self)
      (by simp [hedit.at_self]) _)).eq_of_new hl hsome]
  · obtain rfl := Except.ok.inj hwrite
    rwa [← hedit.eq_of_new hl hsome]

theorem makeTemporary_brings {x : Path × FileSystem} (hs : k.Sound) (hp : p.isAbsolute = true)
    (h : k.makeTemporary p = .ok x) (hl : k.at l = none) (hsome : (x.2.at l).isSome) :
    ∃ w, IsName w ∧ k.spot? (p.join ⟨w⟩) = some l := by
  obtain ⟨d, e, s, n, hwalk, -, -, hedit, -, -, -, hfits⟩ := makeTemporary_inv hs hp h
  have hname := isName_temporaryName n
  rw [← hedit.eq_of_new hl hsome]
  refine ⟨_, hname, spot?_of_approach (a := ⟨d, .name (temporaryName n), false⟩) ?_ rfl⟩
  rw [approach_join_name hp hname hfits, hwalk]

end FileSystem

namespace Call

/-- The free places to which a call may bring something in the tree that it finds. What was below a
renamed entry comes with it, and a temporary file has some name in its directory. -/
def Brings (c : Call) (k : FileSystem) (l : Location) : Prop :=
  k.at l = none ∧
    match c with
    | .makeDirectory p => k.spot? p = some l
    | .rename _ q => ∃ j ∈ k.spot? q, j <:+ l
    | .copy _ p | .write p _ => k.goal? p = some l
    | .makeTemporary p => ∃ w, IsName w ∧ k.spot? (p.join ⟨w⟩) = some l
    | _ => False

theorem perform_brings {c : Call} (hs : k.Sound) (hc : c.IsRooted) (hl : k.at l = none)
    (hsome : ((c.perform k).2.at l).isSome) : c.Brings k l := by
  have hchange : ∀ r : Except OsError FileSystem, ((change k r).2.at l).isSome →
      ∃ k', r = .ok k' ∧ (k'.at l).isSome := by
    intro r h
    cases r with
    | ok k' => exact ⟨k', rfl, h⟩
    | error e => rw [change_error, hl] at h; cases h
  refine ⟨hl, ?_⟩
  cases c with
  | linkStatus p | status p | read p | list p | realPath p | currentDirectory =>
    rw [show (Call.perform k _).2 = k from rfl, hl] at hsome
    cases hsome
  | makeDirectory p =>
    obtain ⟨k', hmake, hsome⟩ := hchange _ hsome
    exact makeDirectory_brings hs hc hmake hl hsome
  | removeFile p =>
    obtain ⟨k', hremove, hsome⟩ := hchange _ hsome
    obtain ⟨a, w, e, -, -, -, -, rfl⟩ := removeFile_inv hremove
    exact erase_brings_none hl hsome
  | removeDirectory p =>
    obtain ⟨k', hremove, hsome⟩ := hchange _ hsome
    obtain ⟨a, w, -, -, -, rfl⟩ := removeDirectory_inv hremove
    exact erase_brings_none hl hsome
  | rename p q =>
    obtain ⟨k', hrename, hsome⟩ := hchange _ hsome
    exact rename_brings hs hrename hl hsome
  | copy p q =>
    obtain ⟨k', hcopy, hsome⟩ := hchange _ hsome
    obtain ⟨_, _, _, -, j, n, hgoal, -, hedit⟩ := copy_edit hs hc hcopy
    rwa [← hedit.eq_of_new hl hsome]
  | setMode p m =>
    obtain ⟨k', hset, hsome⟩ := hchange _ hsome
    exact setMode_brings_none hset hl hsome
  | fill p b =>
    obtain ⟨k', hfill, hsome⟩ := hchange _ hsome
    exact fill_brings_none hs hfill hl hsome
  | write p b =>
    obtain ⟨k', hwrite, hsome⟩ := hchange _ hsome
    exact write_brings hs hc hwrite hl hsome
  | makeTemporary p =>
    rw [perform] at hsome
    cases h : k.makeTemporary p with
    | error e => rw [h, hl] at hsome; cases hsome
    | ok x =>
      rw [h] at hsome
      exact makeTemporary_brings hs hc h hl hsome

end Call

namespace Script

variable {α β : Type} {s : Script α} {T N N' : FileSystem → Location → Prop}

abbrev Puts (N : FileSystem → Location → Prop) : Script α → FileSystem → Prop :=
  Each fun c k => ∀ l, c.Brings k l → N k l

theorem Puts.ask {c : Call} (h : ∀ l, c.Brings fs l → N fs l) :
    Puts (α := c.Reply) N (Script.ask c) fs := Each.ask h

theorem Puts.mono (h : s.Puts N fs) (hN : ∀ k l, N k l → N' k l) : s.Puts N' fs :=
  Each.mono h fun _ k hc l hl => hN k l (hc l hl)

theorem Within.finds (hs : fs.Sound) (h : s.Within (fun _ _ => False) fs) :
    Each (fun _ k => Spares fs (fun _ => False) k) s fs := by
  induction s generalizing fs with
  | done a => exact fun _ hx => nomatch hx
  | call c next ih =>
    obtain ⟨hc, hhits⟩ := h (c, fs) List.mem_cons_self
    have hcall := (Call.perform_spares hs hc).mono fun l _ => hhits l
    intro x hx
    rcases List.mem_cons.1 hx with rfl | hx
    · exact Spares.refl hs
    · exact hcall.trans (ih _ hcall.sound (fun y hy => h y (List.mem_cons_of_mem _ hy)) x hx)

theorem Puts.free (hs : fs.Sound) (hw : s.Within T fs) (h : s.Puts (fun _ _ => False) fs)
    (hl : fs.at l = none) : (s.run fs).2.at l = none := by
  induction s generalizing fs with
  | done a => exact hl
  | call c next ih =>
    obtain ⟨hc, -⟩ := hw (c, fs) List.mem_cons_self
    refine ih _ (Call.perform_spares hs hc).sound (fun x hx => hw x (List.mem_cons_of_mem _ hx))
      (fun x hx => h x (List.mem_cons_of_mem _ hx)) ?_
    by_contra hsome
    exact h (c, fs) List.mem_cons_self l
      (Call.perform_brings hs hc hl (Option.isSome_iff_ne_none.2 hsome))

end Script

namespace Files

variable {N : FileSystem → Location → Prop}

theorem puts_present (p : Path) : (present p).Puts N fs :=
  (Puts.ask (c := .linkStatus p) fun _ h => h.2.elim).bind fun r _ _ => by
    cases r <;> exact Each.pure _

theorem puts_isDirectory (p : Path) : (isDirectory p).Puts N fs :=
  (Puts.ask (c := .status p) fun _ h => h.2.elim).bind fun r _ _ => by
    rcases r with _ | ⟨_ | _ | _⟩ <;> exact Each.pure _

theorem puts_makeDirectory (h : ∀ k l, k.at l = none → k.spot? p = some l → N k l) :
    (makeDirectory p).run.Puts N fs :=
  (Puts.ask (c := .makeDirectory p) fun l hl => h fs l hl.1 hl.2).bind fun r _ _ => by
    cases r with
    | ok u => exact Each.pure _
    | error e =>
      refine (puts_isDirectory p).bind fun b _ _ => ?_
      cases b <;> exact Each.pure _

theorem puts_makeDirectories (h : ∀ q, q = p ∨ q.Above p → ∀ k l, k.at l = none →
    k.spot? q = some l → N k l) (depth : Nat) : (makeDirectories depth p).run.Puts N fs := by
  induction depth generalizing p fs with
  | zero => exact Each.pure _
  | succ depth ih =>
    rw [makeDirectories]
    split
    · exact Each.pure _
    refine (Puts.ask (c := .makeDirectory p) fun l hl => h p (.inl rfl) fs l hl.1 hl.2).bind
      fun r _ _ => ?_
    cases r with
    | ok u => exact Each.pure _
    | error e =>
      dsimp only
      split
      · split
        · exact Each.pure _
        · next up hup =>
          refine each_andThen (ih fun q hq => h q (.inr ?_)) fun _ _ _ =>
            puts_makeDirectory (h p (.inl rfl))
          rcases hq with rfl | hq
          · exact .parent hup
          · exact .above hup hq
      · refine (puts_isDirectory p).bind fun b _ _ => ?_
        cases b <;> exact Each.pure _

theorem puts_ensureParent (h : ∀ q, q.Above p → ∀ k l, k.at l = none → k.spot? q = some l → N k l) :
    (ensureParent p).run.Puts N fs := by
  rw [ensureParent]
  split
  · exact Each.pure _
  · next up hup =>
    split
    · exact Each.pure _
    · refine each_first (puts_present up) fun b _ _ => ?_
      cases b with
      | true => exact Each.pure _
      | false =>
        refine puts_makeDirectories (fun q hq => h q ?_) _
        rcases hq with rfl | hq
        · exact .parent hup
        · exact .above hup hq

theorem puts_removeIfPresent (p : Path) : (removeIfPresent p).run.Puts N fs :=
  (Puts.ask (c := .removeFile p) fun _ h => h.2.elim).bind fun r _ _ => by
    cases r with
    | ok u => exact Each.pure _
    | error e => dsimp only; split <;> exact Each.pure _

/-- A move brings something to its target or below, or to where the target leads, and directories above
the target. -/
theorem puts_move (hway : ∀ f, f.Above q → ∀ k l, k.at l = none → k.spot? f = some l → N k l)
    (hq : ∀ k l, k.at l = none → ((∃ j ∈ k.spot? q, j <:+ l) ∨ k.goal? q = some l) → N k l) :
    (move p q).run.Puts N fs := by
  refine each_andThen (puts_ensureParent hway) fun _ fs₁ _ => ?_
  refine (Puts.ask (c := .rename p q) fun l hl => hq _ l hl.1 (.inl hl.2)).bind fun r fs₂ _ => ?_
  cases r with
  | ok u => exact Each.pure _
  | error e =>
    refine each_andThen (Puts.ask (c := .copy p q) fun l hl => hq _ l hl.1 (.inr hl.2))
      fun _ fs₃ _ => ?_
    exact Puts.ask (c := .removeFile p) fun _ h => h.2.elim

theorem puts_resolveLink (p : Path) : (resolveLink p).Puts N fs :=
  (Puts.ask (c := .linkStatus p) fun _ h => h.2.elim).bind fun r _ _ => by
    rcases r with _ | ⟨_ | _ | _⟩
    · exact Each.pure _
    · exact Each.pure _
    · exact Each.pure _
    · refine (Puts.ask (c := .realPath p) fun _ h => h.2.elim).bind fun r _ _ => ?_
      cases r <;> exact Each.pure _

theorem puts_directoryOf (p : Path) : (directoryOf p).Puts N fs := by
  unfold directoryOf
  extract_lets up
  split
  · exact Each.pure _
  · exact (Puts.ask (c := .currentDirectory) fun _ h => h.2.elim).bind fun _ _ _ => Each.pure _

/-! ### Writing -/

theorem directoryOf_eq (hp : p.isAbsolute = true) :
    (∃ up, p.parent? = some up ∧ (directoryOf p).run fs = (up, fs)) ∨ p.parent? = none := by
  cases hup : p.parent? with
  | none => exact .inr rfl
  | some up =>
    have habs := Path.isAbsolute_of_parent? hp hup
    refine .inl ⟨up, rfl, ?_⟩
    simp only [directoryOf, hup, Path.bytes_ne_nil_of_isAbsolute habs, if_false, habs, if_true, run_pure]

theorem goal?_of_spot?_join {up : Path} {w : Bytes} (hup : up.isAbsolute = true) (ht : up.Tidy)
    (hw : IsName w) (h : k.spot? (up.join ⟨w⟩) = some l) : k.goal? up = some l.tail := by
  obtain ⟨a, ha, hl⟩ := approach_of_spot? h
  have hfits : (up.join ⟨w⟩).bytes.length < longestPath := by
    by_contra hlong
    rw [approach, if_neg (Path.bytes_join_name_ne_nil up hw), if_pos (Nat.not_lt.1 hlong)] at ha
    cases ha
  rw [approach_join_name hup hw hfits] at ha
  split at ha
  · next d e s hwalk =>
    obtain rfl := Except.ok.inj ha
    obtain rfl : w :: d = l := Option.some.inj hl
    obtain ⟨hbefore, -⟩ := (walks_of_walk hwalk).before_dot rfl rfl rfl
    have hlt := Nat.lt_trans (Path.lt_length_join_name up hw) hfits
    have hfind : k.find ⟨true, true⟩ up = .ok (.entry d e s) := by
      rw [find, if_neg (Path.bytes_ne_nil_of_isAbsolute hup), if_neg (Nat.not_le.2 hlt),
        start_of_isAbsolute hup, pathPieces_of_tidy ht]
      exact hbefore.walk
    exact goal?_of_find hfind
  · cases ha
  · cases ha

theorem tidy_of_parent? {up : Path} (hp : p.isAbsolute = true) (h : p.parent? = some up) : up.Tidy := by
  rw [Path.parent?_of_isAbsolute hp] at h
  split at h
  · cases h
  · next c cs hcs =>
    obtain rfl := Option.some.inj h
    exact Path.tidy_back fun w hw => Path.slash_not_mem_tops p w (by rw [hcs]; exact hw)

/-- The free places to which something may come while a file is written: those of directories above
the path, that of the path itself, and those of temporary files in its directory or beside the file
that a link leads to. -/
inductive Nears (fs : FileSystem) (p : Path) (k : FileSystem) (l : Location) : Prop
  | above {f : Path} (above : f.Above p) (place : k.spot? f = some l ∨ k.goal? f = some l.tail)
  | ending {j : Location} (place : k.spot? p = some j ∨ Beyond fs p j) (near : j <:+ l ∨ l.tail = j.tail)
  | top (nothing : p.parent? = none)

theorem puts_ensureParent_real {j : Location} (hs : fs.Sound) (hj : (fs.at j).isSome)
    (hn : ∀ v ∈ j, IsName v) : (ensureParent (Path.ofNames true j)).run.Puts N fs := by
  have hputs : (ensureParent (Path.ofNames true j)).run.Puts (fun k l => k.at l = none ∧
      ∃ f, f.Above (Path.ofNames true j) ∧ k.spot? f = some l) fs :=
    puts_ensureParent fun f hf k l hl hspot => ⟨hl, f, hf, hspot⟩
  have hfinds := Within.finds hs (within_ensureParent (p := Path.ofNames true j) rfl)
  obtain ⟨x, hx⟩ := Option.isSome_iff_exists.1 hj
  intro y hy l hl
  obtain ⟨hfree, f, habove, hspot⟩ := hputs y hy l hl
  obtain ⟨i, hi, hne, rfl⟩ := habove.of_ofNames rfl hn
  have hstands : ∀ i', i' <:+ i → ∃ m, y.2.at i' = some (.directory m) := fun i' hi' => by
    obtain ⟨m, hm⟩ := hs.above hx (hi'.trans hi) fun hc => hne (hi.eq_of_length (by
      have := (hc ▸ hi').length_le
      have := hi.length_le
      omega))
    exact ⟨m, (hfinds y hy).at_eq _ _ hm id⟩
  obtain rfl := spot?_ofNames (fun v hv => hn v (hi.subset hv)) (fun i' hi' _ => hstands i' hi') hspot
  obtain ⟨m, hm⟩ := hstands l (List.suffix_refl l)
  rw [hm] at hfree
  cases hfree

theorem puts_install {t : Path} (h : ∀ l, (∃ j ∈ ((Call.fill t content).perform fs).2.spot? q, j <:+ l) →
    N ((Call.fill t content).perform fs).2 l) :
    (attempt do
      match ← (install t q content).run with
      | .ok () => return .ok ()
      | .error e =>
        let _ ← Script.ask (.removeFile t)
        return .error e : Trial Unit).run.Puts N fs := by
  refine Each.bind ?_ fun r fs₃ _ => ?_
  · refine each_andThen (Puts.ask (c := .fill t content) fun _ h => h.2.elim) fun _ fs₃ hfill => ?_
    obtain rfl : ((Call.fill t content).perform fs).2 = fs₃ := congrArg Prod.snd hfill
    dsimp only
    split
    · exact Each.pure _
    · exact Puts.ask (c := .rename t q) fun l hl => h l hl.2
  · cases r with
    | ok u => exact Each.pure _
    | error e => exact (Puts.ask (c := .removeFile t) fun _ h => h.2.elim).bind fun _ _ _ => Each.pure _

/-- Where a temporary file comes that is made in the directory of the file to be written. -/
theorem nears_temporary {dir : Path} {w : Bytes} (hs : fs.Sound) (hp : p.isAbsolute = true)
    (hq : q = p ∨ ∃ j, Beyond fs p j ∧ q = Path.ofNames true j) (hk : Spares fs (fun _ => False) k)
    (hdir : (directoryOf q).run k = (dir, k)) (hw : IsName w) (h : k.spot? (dir.join ⟨w⟩) = some l) :
    Nears fs p k l := by
  rcases hq with rfl | ⟨j, hj, rfl⟩
  · rcases directoryOf_eq hp with ⟨up, hup, hrun⟩ | hnone
    · obtain rfl : up = dir := congrArg Prod.fst (hrun.symm.trans hdir)
      exact .above (.parent hup) (.inr (goal?_of_spot?_join (Path.isAbsolute_of_parent? hp hup)
        (tidy_of_parent? hp hup) hw h))
    · exact .top hnone
  · obtain ⟨⟨e, he⟩, hn⟩ := realLocation_spec hs hp hj.2
    cases j with
    | nil => exact .ending (.inr hj) (.inl List.nil_suffix)
    | cons v d =>
      have hd : ∀ u ∈ d, IsName u := fun u hu => hn u (List.mem_cons_of_mem _ hu)
      have habs : (Path.ofNames true (v :: d)).isAbsolute = true := rfl
      obtain ⟨up, hup, hrun⟩ | hnone := directoryOf_eq habs
      · obtain rfl : up = dir := congrArg Prod.fst (hrun.symm.trans hdir)
        rw [Path.parent?_ofNames_cons hn, Option.some.injEq] at hup
        subst hup
        rw [Path.ofNames_join d hd hw] at h
        have hl : l = w :: d := spot?_ofNames (fun u hu => (List.mem_cons.1 hu).elim (· ▸ hw) (hd u))
          (fun i hi hne => by
            have hi' := (List.suffix_cons_iff.1 hi).resolve_left hne
            obtain ⟨m, hm⟩ := hs.above he (hi'.trans (List.suffix_cons v d)) fun hc =>
              absurd (hc ▸ hi'.length_le) (by simp)
            exact ⟨m, hk.at_eq i _ hm id⟩) h
        exact .ending (.inr hj) (.inr (by rw [hl]; rfl))
      · rw [Path.parent?_ofNames_cons hn] at hnone
        cases hnone

/-- Writing a file brings it to its place, and otherwise directories above it and files beside it. -/
theorem puts_writeAtomic (hs : fs.Sound) (hp : p.isAbsolute = true) :
    (writeAtomic p content).run.Puts (Nears fs p) fs := by
  obtain ⟨q, hresolve, hlead⟩ := resolveLink_spec fs p
  refine each_first (puts_resolveLink p) fun _ _ h₀ => ?_
  obtain ⟨rfl, rfl⟩ := Prod.mk.inj (hresolve.symm.trans h₀)
  have hq : q.isAbsolute = true := by
    rcases hlead with rfl | ⟨l, -, rfl⟩
    · exact hp
    · rfl
  refine each_andThen ?_ fun _ fs₁ h₁ => ?_
  · rcases hlead with rfl | ⟨j, hj, rfl⟩
    · exact puts_ensureParent fun f hf k l _ hspot => .above hf (.inl hspot)
    · obtain ⟨⟨e, he⟩, hn⟩ := realLocation_spec hs hp hj.2
      exact puts_ensureParent_real hs (by simp [he]) hn
  have hkeep : Spares fs (fun _ => False) fs₁ := by
    have hkeep : Spares fs (fun _ => False) ((ensureParent q).run.run fs).2 :=
      (within_ensureParent hq).keeps hs
    rwa [h₁] at hkeep
  obtain ⟨dir, hdir, habs⟩ := directoryOf_spec fs₁ q
  refine each_first (puts_directoryOf q) fun _ _ h₂ => ?_
  obtain ⟨rfl, rfl⟩ := Prod.mk.inj (hdir.symm.trans h₂)
  refine each_andThen ?_ fun t fs₂ h₃ => ?_
  · refine (Puts.ask (c := .makeTemporary dir) ?_).bind fun r _ _ => ?_
    · rintro l ⟨-, w, hw, hspot⟩
      exact nears_temporary hs hp hlead hkeep hdir hw hspot
    · rcases r with (_ | _ | _) | _ <;> exact Each.pure _
  obtain ⟨-, -, -, -, hkeep₁⟩ := @makeTemporary_keeps _ content _ _ _ _ habs hkeep h₃
  refine puts_install fun l ⟨j, hj, hl⟩ => ?_
  exact .ending ((reaches_target hs hp hlead hkeep₁ hj)) (.inl hl)

end Files

/-! ### Reverting -/

namespace Operation

variable {op : Operation}

def restored? (op : Operation) : Option Path :=
  match op.kind with
  | .update | .delete => some op.path
  | .move => op.previousPath
  | _ => none

theorem IsRooted.restored (h : op.IsRooted) (hp : p ∈ op.restored?) : p.isAbsolute = true := by
  rw [restored?] at hp
  split at hp
  · exact Option.some.inj hp ▸ h.path
  · exact Option.some.inj hp ▸ h.path
  · exact h.former p hp
  · cases hp

/-- The free places to which something may come in a tree while an operation is reverted: those of
directories above the path at which it is put back, the place that is reached, all below it, and what
is beside it. -/
inductive Gains (op : Operation) (fs k : FileSystem) (l : Location) : Prop
  | above {p f : Path} (restored : p ∈ op.restored?) (above : f.Above p)
    (place : k.spot? f = some l ∨ k.goal? f = some l.tail)
  | ending {j : Location} (place : op.Reaches k j ∨ op.Reaches fs j) (near : j <:+ l ∨ l.tail = j.tail)
  | top {p : Path} (restored : p ∈ op.restored?) (nothing : p.parent? = none)

end Operation

namespace Rollback

variable {b : Backups} {verify force : Bool} {op : Operation} {N : FileSystem → Location → Prop}

theorem puts_removeCreated (p : Path) : (removeCreated p).Puts N fs :=
  (Files.puts_removeIfPresent p).bind fun _ _ _ => Each.pure _

theorem puts_read (b : Backups) (id : String) : (b.read id).Puts N fs :=
  (Puts.ask (c := .read (b.pathFor id)) fun _ h => h.2.elim).bind fun r _ _ => by
    cases r with
    | ok c => exact Each.pure _
    | error e => dsimp only; split <;> exact Each.pure _

theorem puts_restoreBackup (hs : fs.Sound) (hp : op.path.isAbsolute = true) :
    (restoreBackup b verify force op).Puts (Files.Nears fs op.path) fs := by
  refine (puts_read b op.id).bind fun r fs' hr => ?_
  obtain rfl : fs = fs' := congrArg Prod.snd ((b.read_eq op.id fs).symm.trans hr)
  rcases r with e | _ | content
  · exact Each.pure _
  · exact Each.pure _
  · dsimp only
    split
    · exact Each.pure _
    · exact (Files.puts_writeAtomic hs hp).bind fun r _ _ => by cases r <;> exact Each.pure _

theorem puts_restoreKnown (hs : fs.Sound) (hp : op.path.isAbsolute = true) :
    (restoreKnown op).Puts (Files.Nears fs op.path) fs := by
  rw [restoreKnown]
  split
  · exact (Files.puts_writeAtomic hs hp).bind fun r _ _ => Each.pure _
  · split
    · exact puts_removeCreated _
    · exact Each.pure _

theorem puts_moveBack (hkind : op.kind = .move) : (moveBack force op).Puts (op.Gains fs) fs := by
  rw [moveBack]
  cases hformer : op.previousPath with
  | none => exact Each.pure _
  | some former =>
    have hrestored : former ∈ op.restored? := by simp [Operation.restored?, hkind, hformer]
    have hreaches : ∀ {k j}, k.spot? former = some j ∨ k.goal? former = some j → op.Reaches k j :=
      fun h => by
        rw [Operation.Reaches, hkind]
        exact .inr ⟨former, hformer, h⟩
    refine (Files.puts_present _).bind fun moved _ _ => ?_
    refine (Files.puts_present _).bind fun back _ _ => ?_
    split
    · split <;> exact Each.pure _
    split
    · exact Each.pure _
    · refine (Files.puts_move (fun f hf k l _ h => .above hrestored hf (.inl h)) fun k l _ h => ?_).bind
        fun _ _ _ => Each.pure _
      rcases h with ⟨j, hj, hl⟩ | hl
      · exact .ending (.inl (hreaches (.inl hj))) (.inl hl)
      · exact .ending (.inl (hreaches (.inr hl))) (.inl (List.suffix_refl l))

theorem puts_removeLink (p : Path) : (removeLink p).Puts N fs := by
  refine (Puts.ask (c := .linkStatus p) fun _ h => h.2.elim).bind fun r _ _ => ?_
  rcases r with e | _ | _ | _
  · dsimp only
    split <;> exact Each.pure _
  · exact Each.pure _
  · exact Each.pure _
  · exact (Puts.ask (c := .removeFile p) fun _ h => h.2.elim).bind fun _ _ _ => Each.pure _

theorem puts_removeDirectory (p : Path) : (removeDirectory p).Puts N fs := by
  refine (Files.puts_present p).bind fun present _ _ => ?_
  split
  · exact Each.pure _
  · refine (Puts.ask (c := .list p) fun _ h => h.2.elim).bind fun r _ _ => ?_
    rcases r with e | _ | _
    · exact Each.pure _
    · exact (Puts.ask (c := .removeDirectory p) fun _ h => h.2.elim).bind fun _ _ _ => Each.pure _
    · exact Each.pure _

theorem puts_restoreMode (op : Operation) : (restoreMode op).Puts N fs := by
  rw [restoreMode]
  split
  · exact Each.pure _
  · next mode _ =>
    refine (Files.puts_present _).bind fun present _ _ => ?_
    split
    · exact (Puts.ask (c := .setMode op.path mode) fun _ h => h.2.elim).bind fun _ _ _ => Each.pure _
    · exact Each.pure _

theorem puts_revert_of_not_restored (h : op.restored? = none) :
    (revert b verify force op).Puts N fs := by
  rw [revert]
  cases hkind : op.kind with
  | create | copy => exact puts_removeCreated _
  | update | delete => simp [Operation.restored?, hkind] at h
  | move =>
    have hformer : op.previousPath = none := by simpa [Operation.restored?, hkind] using h
    simp only [moveBack, hformer]
    exact Each.pure _
  | symlink => exact puts_removeLink _
  | directoryCreate => exact puts_removeDirectory _
  | chmod => exact puts_restoreMode _
  | envVariable | packageInstall => exact Each.pure _

/-- Reverting an operation brings directories above the path at which something is put back, and what
is at that place or beside it. -/
theorem puts_revert (hs : fs.Sound) (hop : op.IsRooted) :
    (revert b verify force op).Puts (op.Gains fs) fs := by
  have hnears : op.kind = .update ∨ op.kind = .delete → ∀ k l, Files.Nears fs op.path k l →
      op.Gains fs k l := by
    intro hkind k l h
    have hrestored : op.path ∈ op.restored? := by
      rcases hkind with hkind | hkind <;> simp [Operation.restored?, hkind]
    have hreaches : ∀ k' j, op.Reaches k' j ↔ k'.spot? op.path = some j ∨ k'.realLocation op.path = .ok j := by
      rcases hkind with hkind | hkind <;> simp [Operation.Reaches, hkind]
    cases h with
    | above habove hplace => exact .above hrestored habove hplace
    | ending hplace hnear =>
      refine .ending (hplace.imp (fun h => (hreaches k _).2 (.inl h)) fun h => ?_) hnear
      exact (hreaches fs _).2 (.inr h.2)
    | top hnothing => exact .top hrestored hnothing
  rw [revert]
  cases hkind : op.kind with
  | update | delete =>
    dsimp only
    split
    · exact (puts_restoreBackup hs hop.path).mono (hnears (by simp [hkind]))
    · exact (puts_restoreKnown hs hop.path).mono (hnears (by simp [hkind]))
  | move => exact puts_moveBack hkind
  | _ =>
    have hputs : (revert b verify force op).Puts (op.Gains fs) fs :=
      puts_revert_of_not_restored (by simp [Operation.restored?, hkind])
    rwa [revert, hkind] at hputs

end Rollback
end Retrace
