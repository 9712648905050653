import Retrace.Proofs.FileSystem.Reach
import Retrace.Proofs.Script

/-!
Which places a script can have changed: those that its calls hit, each in the tree that it finds
(`Script.spares`). Writing a file hits no entry but the one at its path or the one that the path leads
to, whatever links and missing directories are on the way (`Files.within_writeAtomic`).
-/
namespace Retrace

open FileSystem Script

namespace Call

variable {k : FileSystem} {c : Call}

/-- The places of entries that a call may change in the tree that it finds. A renamed entry goes with
all below it. -/
def Hits (c : Call) (k : FileSystem) (l : Location) : Prop :=
  match c with
  | .removeFile p | .removeDirectory p => k.spot? p = some l
  | .rename p q => (∃ j ∈ k.spot? p, j <:+ l) ∨ k.spot? q = some l
  | .copy _ p | .setMode p _ | .fill p _ | .write p _ => k.goal? p = some l
  | _ => False

/-- What a call puts into the tree it puts at an absolute path. -/
def IsRooted (c : Call) : Prop :=
  match c with
  | .makeDirectory p | .rename _ p | .copy _ p | .makeTemporary p | .write p _ => p.isAbsolute = true
  | _ => True

theorem perform_spares (hs : k.Sound) (hc : c.IsRooted) : Spares k (c.Hits k) (c.perform k).2 := by
  have hchange : ∀ {T} (r : Except OsError FileSystem), (∀ k', r = .ok k' → Spares k T k') →
      Spares k T (change k r).2 := by
    intro T r h
    cases r with
    | error e => exact Spares.refl hs
    | ok k' => exact h k' rfl
  cases c with
  | linkStatus p | status p | read p | list p | realPath p | currentDirectory => exact Spares.refl hs
  | makeDirectory p => exact hchange _ fun _ => makeDirectory_spares hs hc
  | removeFile p => exact hchange _ fun _ => removeFile_spares hs
  | removeDirectory p => exact hchange _ fun _ => removeDirectory_spares hs
  | rename p q => exact hchange _ fun _ => rename_spares hs hc
  | copy p q => exact hchange _ fun _ => copy_spares hs hc
  | setMode p m => exact hchange _ fun _ => setMode_spares hs
  | fill p b => exact hchange _ fun _ => fill_spares hs
  | write p b => exact hchange _ fun _ => write_spares hs hc
  | makeTemporary p =>
    rw [perform]
    cases h : k.makeTemporary p with
    | error e => exact Spares.refl hs
    | ok x =>
      obtain ⟨d, e, s, n, -, hfree, -, hedit, -⟩ := makeTemporary_inv hs hc h
      exact hedit.spares fun hc => by simp [hfree] at hc

end Call

namespace Script

variable {α β : Type} {s : Script α} {f : α → Script β} {fs : FileSystem}
  {T T' : FileSystem → Location → Prop}

/-- A script whose calls hit no places but the given ones. -/
abbrev Within (T : FileSystem → Location → Prop) : Script α → FileSystem → Prop :=
  Each fun c k => c.IsRooted ∧ ∀ l, c.Hits k l → T k l

theorem exists_mem_calls {x : Call × FileSystem} (hx : x ∈ s.calls fs) : ∃ c, (c, fs) ∈ s.calls fs := by
  cases s with
  | done a => cases hx
  | call c next => exact ⟨c, List.mem_cons_self⟩

theorem Within.ask {c : Call} (hc : c.IsRooted) (h : ∀ l, c.Hits fs l → T fs l) :
    Within (α := c.Reply) T (Script.ask c) fs := Each.ask ⟨hc, h⟩

theorem Within.mono (h : s.Within T fs) (hT : ∀ k l, T k l → T' k l) : s.Within T' fs :=
  Each.mono h fun _ k hc => ⟨hc.1, fun l hl => hT k l (hc.2 l hl)⟩

/-- What stands where no call hits is as before. -/
theorem spares (hs : fs.Sound) (h : s.Within T fs) :
    Spares fs (fun l => ∃ x ∈ s.calls fs, T x.2 l) (s.run fs).2 := by
  induction s generalizing fs with
  | done a => exact Spares.refl hs
  | call c next ih =>
    obtain ⟨hc, hhits⟩ := h (c, fs) List.mem_cons_self
    have hcall := (Call.perform_spares hs hc).mono fun l _ hl =>
      (⟨(c, fs), List.mem_cons_self, hhits l hl⟩ :
        ∃ x ∈ (call c next).calls fs, T x.2 l)
    refine hcall.trans ((ih _ hcall.sound fun x hx => h x (List.mem_cons_of_mem _ hx)).mono ?_)
    rintro l - ⟨x, hx, hl⟩
    exact ⟨x, List.mem_cons_of_mem _ hx, hl⟩

theorem spares_calls (hs : fs.Sound)
    (h : s.Within (fun k l => T k l ∨ T fs l ∨ fs.at l = none) fs) :
    Spares fs (fun l => ∃ x ∈ s.calls fs, T x.2 l) (s.run fs).2 := by
  refine (spares hs h).mono ?_
  rintro l hl ⟨x, hx, h | h | h⟩
  · exact ⟨x, hx, h⟩
  · obtain ⟨c, hc⟩ := exists_mem_calls hx
    exact ⟨_, hc, h⟩
  · simp [h] at hl

/-- If calls hit nothing but the given places as long as nothing but those has changed, then nothing
but those changes. -/
theorem Within.spares_only {start : FileSystem} {only : Location → Prop} (h : s.Within T fs)
    (hstart : Spares start only fs)
    (honly : ∀ k, Spares start only k → ∀ l, (start.at l).isSome → T k l → only l) :
    Spares start only (s.run fs).2 := by
  induction s generalizing fs with
  | done a => exact hstart
  | call c next ih =>
    obtain ⟨hc, hhits⟩ := h (c, fs) List.mem_cons_self
    have hcall := Call.perform_spares hstart.sound hc
    refine ih _ (fun x hx => h x (List.mem_cons_of_mem _ hx)) ⟨hcall.sound, fun l e he hl => ?_⟩
    exact hcall.at_eq l e (hstart.at_eq l e he hl) fun hit =>
      hl (honly fs hstart l (by simp [he]) (hhits l hit))

theorem Within.keeps (hs : fs.Sound) (h : s.Within (fun _ _ => False) fs) :
    Spares fs (fun _ => False) (s.run fs).2 :=
  (spares hs h).mono fun _ _ ⟨_, _, hc⟩ => hc

end Script

namespace Files

variable {α β : Type} {fs fs' : FileSystem} {T : FileSystem → Location → Prop} {p q : Path}
  {content : Bytes}

theorem each_andThen {C : Call → FileSystem → Prop} {x : Trial α} {g : α → Trial β}
    (h : Each C x.run fs) (hg : ∀ a fs', x.run.run fs = (.ok a, fs') → Each C (g a).run fs') :
    Each C (x >>= g).run fs := by
  rw [ExceptT.run_bind]
  refine h.bind fun r fs' hr => ?_
  cases r with
  | ok a => exact hg a fs' hr
  | error e => exact Each.pure _

theorem each_first {C : Call → FileSystem → Prop} {s : Script α} {g : α → Trial β} (h : Each C s fs)
    (hg : ∀ a fs', s.run fs = (a, fs') → Each C (g a).run fs') :
    Each C ((liftM s : Trial α) >>= g).run fs := by
  rw [ExceptT.run_bind]
  change Each C ((s >>= fun a => pure (Except.ok a)) >>= _) fs
  rw [LawfulMonad.bind_assoc]
  exact h.bind fun a fs' ha => by simpa using hg a fs' ha

theorem within_present (p : Path) : (present p).Within T fs :=
  (Within.ask (c := .linkStatus p) trivial fun _ => False.elim).bind fun r _ _ => by cases r <;> exact Each.pure _

theorem within_isDirectory (p : Path) : (isDirectory p).Within T fs :=
  (Within.ask (c := .status p) trivial fun _ => False.elim).bind fun r _ _ => by
    rcases r with _ | ⟨_ | _ | _⟩ <;> exact Each.pure _

theorem within_makeDirectory (hp : p.isAbsolute = true) : (makeDirectory p).run.Within T fs :=
  (Within.ask (c := .makeDirectory p) hp fun _ => False.elim).bind fun r _ _ => by
    cases r with
    | ok u => exact Each.pure _
    | error e =>
      refine (within_isDirectory p).bind fun b _ _ => ?_
      cases b <;> exact Each.pure _

theorem within_makeDirectories (hp : p.isAbsolute = true) (depth : Nat) :
    (makeDirectories depth p).run.Within T fs := by
  induction depth generalizing p fs with
  | zero => exact Each.pure _
  | succ depth ih =>
    rw [makeDirectories, if_neg (Path.bytes_ne_nil_of_isAbsolute hp)]
    refine (Within.ask (c := .makeDirectory p) hp fun _ => False.elim).bind fun r _ _ => ?_
    cases r with
    | ok u => exact Each.pure _
    | error e =>
      dsimp only
      split
      · split
        · exact Each.pure _
        · next up hup =>
          have hup := Path.isAbsolute_of_parent? hp hup
          exact each_andThen (ih hup) fun _ _ _ => within_makeDirectory hp
      · refine (within_isDirectory p).bind fun b _ _ => ?_
        cases b <;> exact Each.pure _

theorem within_ensureParent (hp : p.isAbsolute = true) : (ensureParent p).run.Within T fs := by
  rw [ensureParent]
  split
  · exact Each.pure _
  · next up hup =>
    split
    · exact Each.pure _
    · refine each_first (within_present up) fun b _ _ => ?_
      cases b with
      | true => exact Each.pure _
      | false => exact within_makeDirectories (Path.isAbsolute_of_parent? hp hup) _

theorem within_removeIfPresent (h : ∀ l, fs.spot? p = some l → T fs l) :
    (removeIfPresent p).run.Within T fs :=
  (Within.ask (c := .removeFile p) trivial h).bind fun r _ _ => by
    cases r with
    | ok u => exact Each.pure _
    | error e => dsimp only; split <;> exact Each.pure _

theorem within_move (hq : q.isAbsolute = true) (hp : ∀ k l, (∃ j ∈ k.spot? p, j <:+ l) → T k l)
    (hq' : ∀ k l, k.spot? q = some l ∨ k.goal? q = some l → T k l) :
    (move p q).run.Within T fs := by
  refine each_andThen (within_ensureParent hq) fun _ fs₁ _ => ?_
  refine (Within.ask (c := .rename p q) hq fun l hl => ?_).bind fun r fs₂ _ => ?_
  · exact hl.elim (hp _ l) fun hl => hq' _ l (.inl hl)
  · cases r with
    | ok u => exact Each.pure _
    | error e =>
      refine each_andThen (Within.ask (c := .copy p q) hq fun l hl => hq' _ l (.inr hl))
        fun _ fs₃ _ => ?_
      exact Within.ask (c := .removeFile p) trivial fun l hl => hp _ l ⟨l, hl, List.suffix_refl l⟩

/-! ### Writing -/

/-- The place that a path leads to if there is a link at its end. -/
def Beyond (fs : FileSystem) (p : Path) (l : Location) : Prop :=
  fs.linkStatus p = .ok .link ∧ fs.realLocation p = .ok l

theorem resolveLink_spec (fs : FileSystem) (p : Path) :
    ∃ q, (resolveLink p).run fs = (q, fs) ∧
      (q = p ∨ ∃ l, Beyond fs p l ∧ q = Path.ofNames true l) := by
  simp only [resolveLink, run_bind, run_ask, Call.perform]
  split
  · next hlink =>
    simp only [run_bind, run_ask, Call.perform]
    cases h : fs.realPath p with
    | error e => exact ⟨p, rfl, .inl rfl⟩
    | ok q =>
      obtain ⟨l, hl, rfl⟩ : ∃ l, fs.realLocation p = .ok l ∧ Path.ofNames true l = q := by
        have hreal := eq_ok_of_named h
        cases hl : fs.realLocation p with
        | error e => simp [hl, Except.map] at hreal
        | ok l => exact ⟨l, rfl, by simpa [hl, Except.map] using hreal⟩
      exact ⟨_, rfl, .inr ⟨l, ⟨hlink, hl⟩, rfl⟩⟩
  · exact ⟨p, rfl, .inl rfl⟩

theorem within_resolveLink (p : Path) : (resolveLink p).Within T fs :=
  (Within.ask (c := .linkStatus p) trivial fun _ => False.elim).bind fun r _ _ => by
    rcases r with _ | ⟨_ | _ | _⟩
    · exact Each.pure _
    · exact Each.pure _
    · exact Each.pure _
    · refine (Within.ask (c := .realPath p) trivial fun _ => False.elim).bind fun r _ _ => ?_
      cases r <;> exact Each.pure _

theorem directoryOf_spec (fs : FileSystem) (p : Path) :
    ∃ d, (directoryOf p).run fs = (d, fs) ∧ d.isAbsolute = true := by
  unfold directoryOf
  extract_lets up
  split
  · next h => exact ⟨up, rfl, h⟩
  · exact ⟨fs.currentDirectory.join up, rfl, Path.isAbsolute_join (Path.isAbsolute_ofNames _)⟩

theorem within_directoryOf (p : Path) : (directoryOf p).Within T fs := by
  unfold directoryOf
  extract_lets up
  split
  · exact Each.pure _
  · exact (Within.ask (c := .currentDirectory) trivial fun _ => False.elim).bind fun _ _ _ =>
      Each.pure _

theorem install_error {t : Path} {e : OsError}
    (h : (install t q content).run.run fs = (.error e, fs')) :
    fs' = ((Call.fill t content).perform fs).2 := by
  simp only [install, attempt, ExceptT.run_bind, ExceptT.run_mk, run_bind, run_ask] at h
  cases hfill : (Call.fill t content).perform fs with
  | mk r fs₁ =>
    rw [hfill] at h
    cases r with
    | error e => exact (Prod.mk.inj h).2.symm
    | ok u =>
      dsimp only at h
      split at h
      · exact (Prod.mk.inj h).2.symm
      · simp only [ExceptT.run_mk, run_ask, Call.perform] at h
        cases hren : fs₁.rename t q with
        | error e => rw [hren] at h; exact (Prod.mk.inj h).2.symm
        | ok fs₂ => rw [hren] at h; cases (Prod.mk.inj h).1

theorem within_makeTemporary (hp : p.isAbsolute = true) : (makeTemporary p).run.Within T fs :=
  (Within.ask (c := .makeTemporary p) hp fun _ => False.elim).bind fun r _ _ => by
    rcases r with (_ | _ | _) | _ <;> exact Each.pure _

theorem makeTemporary_ok {t : Path} (h : (makeTemporary p).run.run fs = (.ok t, fs')) :
    fs.makeTemporary p = .ok (t, fs') := by
  simp only [makeTemporary, attempt, ExceptT.run_mk, run_bind, run_ask, Call.perform] at h
  cases hmake : fs.makeTemporary p with
  | error e =>
    rw [hmake] at h
    cases e <;> cases (Prod.mk.inj h).1
  | ok x =>
    rw [hmake] at h
    obtain ⟨ht, rfl⟩ := Prod.mk.inj h
    rw [← Except.ok.inj ht]

theorem reaches_target {k : FileSystem} {l : Location} (hs : fs.Sound) (hp : p.isAbsolute = true)
    (hq : q = p ∨ ∃ l, Beyond fs p l ∧ q = Path.ofNames true l)
    (hk : Spares fs (fun _ => False) k) (h : k.spot? q = some l) :
    k.spot? p = some l ∨ Beyond fs p l := by
  rcases hq with rfl | ⟨j, hj, rfl⟩
  · exact .inl h
  · obtain ⟨⟨e, he⟩, hnames⟩ := realLocation_spec hs hp hj.2
    have hl : l = j := spot?_ofNames hnames (fun i hi hne => by
      obtain ⟨m, hm⟩ := hs.above he hi hne
      exact ⟨m, hk.at_eq i _ hm id⟩) h
    exact .inr (hl ▸ hj)

def Writes (fs : FileSystem) (p : Path) (k : FileSystem) (l : Location) : Prop :=
  k.spot? p = some l ∨ Beyond fs p l ∨ fs.at l = none

/-- A temporary file at a place that was free is put in place of another file or discarded. -/
theorem within_install {t : Path} {fs₁ fs₂ : FileSystem} (hq : q.isAbsolute = true)
    (hfs : fs₂ = ((Call.fill t content).perform fs₁).2)
    (hgoal : ∀ l, fs₁.goal? t = some l → fs.at l = none)
    (hspot : ∀ j l, fs₂.spot? t = some j → j <:+ l → fs.at l = none)
    (htarget : ∀ l, fs₂.spot? q = some l → Writes fs p fs₂ l) :
    (attempt do
      match ← (install t q content).run with
      | .ok () => return .ok ()
      | .error e =>
        let _ ← Script.ask (.removeFile t)
        return .error e : Trial Unit).run.Within (Writes fs p) fs₁ := by
  refine Each.bind ?_ fun r fs₃ hr => ?_
  · refine each_andThen (Within.ask (c := .fill t content) trivial fun l hl =>
      .inr (.inr (hgoal l hl))) fun _ fs₃ hfill => ?_
    obtain rfl : fs₂ = fs₃ := hfs.trans (congrArg Prod.snd hfill)
    dsimp only
    split
    · exact Each.pure _
    · exact Within.ask (c := .rename t q) hq fun l hl => hl.elim
        (fun ⟨j, hj, hl⟩ => .inr (.inr (hspot j l hj hl))) (htarget l)
  · cases r with
    | ok u => exact Each.pure _
    | error e =>
      obtain rfl := hfs.trans (install_error hr).symm
      refine (Within.ask (c := .removeFile t) trivial fun l hl =>
        .inr (.inr (hspot l l hl (List.suffix_refl l)))).bind fun _ _ _ => Each.pure _

/-- A temporary file is made and filled: it is at a place that was free, where its path leads, and
nothing that stood has changed. -/
theorem makeTemporary_keeps {t dir : Path} {fs₁ fs₂ : FileSystem} (hdir : dir.isAbsolute = true)
    (hkeep : Spares fs (fun _ => False) fs₁)
    (h : (makeTemporary dir).run.run fs₁ = (.ok t, fs₂)) : ∃ j, fs.at j = none ∧
      (∀ l, fs₂.goal? t = some l → l = j) ∧
      (∀ l, ((Call.fill t content).perform fs₂).2.spot? t = some l → l = j) ∧
      Spares fs (fun _ => False) ((Call.fill t content).perform fs₂).2 := by
  obtain ⟨d, e, s, n, hwalk, hfree, ht, hedit, -⟩ := makeTemporary_inv hkeep.sound hdir (makeTemporary_ok h)
  have hname := isName_temporaryName n
  have hgoal : ∀ l, fs₂.goal? t = some l → l = temporaryName n :: d := by
    intro l hl
    rw [ht] at hl
    exact goal?_join hdir hname ((hedit.spares fun hc => by simp [hfree] at hc).walk hkeep.sound hwalk)
      (by simp [hedit.at_self]) hl
  have hfill : Spares fs₂ (· = temporaryName n :: d) ((Call.fill t content).perform fs₂).2 :=
    (Call.perform_spares hedit.sound (c := .fill t content) trivial).mono fun l _ => hgoal l
  have hkeep₁ : Spares fs₁ (fun _ => False) ((Call.fill t content).perform fs₂).2 := by
    refine ((hedit.spares (T := (· = temporaryName n :: d)) fun _ => rfl).trans hfill).mono fun l hl heq => ?_
    rw [heq, hfree] at hl
    cases hl
  generalize ((Call.fill t content).perform fs₂).2 = fs₃ at hkeep₁ ⊢
  refine ⟨temporaryName n :: d, ?_, hgoal, fun l hl => ?_, hkeep.trans hkeep₁⟩
  · by_contra h
    obtain ⟨x, hx⟩ := Option.ne_none_iff_exists'.1 h
    rw [hkeep.at_eq _ x hx id] at hfree
    cases hfree
  · rw [ht] at hl
    exact spot?_join hdir hname (hkeep₁.walk hkeep.sound hwalk) hl

/-- Writing a file hits the place of its path or the one that the path leads to, and free places. -/
theorem within_writeAtomic (hs : fs.Sound) (hp : p.isAbsolute = true) :
    (writeAtomic p content).run.Within (Writes fs p) fs := by
  obtain ⟨q, hresolve, hlead⟩ := resolveLink_spec fs p
  refine each_first (within_resolveLink p) fun _ _ h₀ => ?_
  obtain ⟨rfl, rfl⟩ := Prod.mk.inj (hresolve.symm.trans h₀)
  have hq : q.isAbsolute = true := by
    rcases hlead with rfl | ⟨l, -, rfl⟩
    · exact hp
    · rfl
  refine each_andThen (within_ensureParent hq) fun _ fs₁ h₁ => ?_
  have hkeep : Spares fs (fun _ => False) fs₁ := by
    have hkeep : Spares fs (fun _ => False) ((ensureParent q).run.run fs).2 :=
      (within_ensureParent hq).keeps hs
    rwa [h₁] at hkeep
  obtain ⟨dir, hdir, habs⟩ := directoryOf_spec fs₁ q
  refine each_first (within_directoryOf q) fun _ _ h₂ => ?_
  obtain ⟨rfl, rfl⟩ := Prod.mk.inj (hdir.symm.trans h₂)
  refine each_andThen (within_makeTemporary habs) fun t fs₂ h₃ => ?_
  obtain ⟨j, hvacant, hgoal, hspot, hkeep₁⟩ := makeTemporary_keeps habs hkeep h₃
  generalize hfs : ((Call.fill t content).perform fs₂).2 = fs₃ at hspot hkeep₁
  refine within_install hq hfs.symm (fun l hl => hgoal l hl ▸ hvacant) (fun i l hi hl => ?_) fun l hl =>
    (reaches_target hs hp hlead hkeep₁ hl).imp_right .inl
  rw [hspot i hi] at hl
  by_cases heq : j = l
  · exact heq ▸ hvacant
  · exact hs.none_below (by simp [hvacant]) hl heq

end Files

end Retrace
