import Retrace.Proofs.FileSystem.Refiled

/-!
Trees from which files have been removed (`Thinned`). What cannot be removed afterwards could not be
removed before (`Thinned.stuck`), and what could be removed under a name can be as long as it stands
(`Thinned.stuck_eq`).
-/
namespace Retrace.FileSystem

open Retrace.Path (IsName dot)

variable {fs fs' fs'' : FileSystem} {n : Nat} {here d l : Location} {w : Bytes} {xs : List Bytes}
  {s follow : Bool} {p f : Path} {a : Approach} {r : Found} {manner : Manner}

/-- Files are gone, each from a directory that could be written to. -/
structure Thinned (fs fs' : FileSystem) : Prop where
  sound : fs'.Sound
  at_eq : ∀ k, fs'.at k = fs.at k ∨ fs'.at k = none ∧
    ∃ w d m c, k = w :: d ∧ fs.at k = some (.file m c) ∧ fs.yields d = true

theorem Thinned.refl (hs : fs.Sound) : Thinned fs fs := ⟨hs, fun _ => .inl rfl⟩

theorem Thinned.refiled (h : Thinned fs fs') : Refiled fs fs' where
  sound := h.sound
  at_eq k e he hk := by
    rcases h.at_eq k with hsame | ⟨hnone, w, d, m, c, -, hfile, -⟩
    · exact hsame
    · rcases he with he | he
      · obtain rfl := Option.some.inj (hfile.symm.trans he)
        exact absurd rfl hk
      · rw [hnone] at he
        cases he

theorem Refiled.yields (h : Refiled fs fs') (hd : ∃ m, fs.at d = some (.directory m)) :
    fs'.yields d = fs.yields d := by
  obtain ⟨m, hm⟩ := hd
  rw [FileSystem.yields, FileSystem.yields, hm, h.directory hm]

theorem Thinned.at_none (h : Thinned fs fs') {k : Location} (hk : fs.at k = none) : fs'.at k = none := by
  rcases h.at_eq k with hsame | ⟨hnone, -⟩
  · exact hsame.trans hk
  · exact hnone

theorem Thinned.trans (h : Thinned fs fs') (hs : fs.Sound) (h' : Thinned fs' fs'') :
    Thinned fs fs'' where
  sound := h'.sound
  at_eq k := by
    rcases h'.at_eq k with hsame | ⟨hnone, w, d, m, c, rfl, hfile, hy⟩
    · rw [hsame]
      exact h.at_eq k
    · refine .inr ⟨hnone, w, d, m, c, rfl, ?_, ?_⟩
      · rcases h.at_eq (w :: d) with hsame | ⟨hgone, -⟩
        · exact hsame.symm.trans hfile
        · rw [hgone] at hfile
          cases hfile
      · rw [← hy, ((h.refiled).symm hs).yields (h.sound.parent hfile)]

/-! ### Ways that end nowhere -/

/-- A walk that finds nothing has looked at no file. -/
theorem not_file_of_stroll {detour : Location → Path → List Bytes → Except Errno Found}
    {way : Location → Path → List Bytes → List Location} (hs : fs.Sound)
    (hd : ∀ here t rest, (∃ m, fs.at here = some (.directory m)) →
      detour here t rest = .error .noEntry → ∀ k ∈ way here t rest, ∀ m c, fs.at k ≠ some (.file m c))
    (hhere : ∃ m, fs.at here = some (.directory m))
    (h : stroll fs manner detour here xs = .error .noEntry) :
    ∀ k ∈ strollWay fs way here xs, ∀ m c, fs.at k ≠ some (.file m c) := by
  have hfirst : ∀ {k : Location}, (∃ m, fs.at k = some (.directory m)) → ∀ m c, fs.at k ≠ some (.file m c) := by
    rintro k ⟨m, hm⟩ m' c hc
    rw [hm] at hc
    cases hc
  induction xs generalizing here with
  | nil =>
    intro k hk
    rw [strollWay, List.mem_singleton] at hk
    exact hk ▸ hfirst hhere
  | cons v rest ih =>
    intro k hk
    rw [strollWay] at hk
    rcases List.mem_cons.1 hk with rfl | hk
    · exact hfirst hhere
    rw [stroll] at h
    by_cases hv : v = []
    · rw [if_pos hv] at h
      rw [if_pos (.inl hv)] at hk
      exact ih hhere h k hk
    rw [if_neg hv] at h
    split at h
    · cases h
    by_cases hdot : v = [dot]
    · rw [if_pos hdot] at h
      rw [if_pos (.inr hdot)] at hk
      exact ih hhere h k hk
    rw [if_neg hdot] at h
    rw [if_neg (by simp [hv, hdot])] at hk
    by_cases hup : v = [dot, dot]
    · rw [if_pos hup] at h hk
      exact ih (hs.drop hhere) h k hk
    rw [if_neg hup] at h hk
    split at h
    · cases h
    cases hx : fs.at (v :: here) with
    | none =>
      rw [hx] at hk
      rw [List.mem_singleton.1 hk]
      simp [hx]
    | some e =>
      simp only [hx] at h hk
      cases e with
      | file m c => dsimp only at h; split at h <;> cases h
      | directory m =>
        rcases List.mem_cons.1 hk with rfl | hk
        · exact hfirst ⟨m, hx⟩
        · exact ih ⟨m, hx⟩ h k hk
      | link t =>
        rcases List.mem_cons.1 hk with rfl | hk
        · simp [hx]
        · dsimp only at h
          split at h
          · cases h
          · exact hd here t rest hhere h k hk

theorem not_file_of_walk (hs : fs.Sound) (hhere : ∃ m, fs.at here = some (.directory m))
    (h : fs.walk manner n here xs = .error .noEntry) :
    ∀ k ∈ fs.walkWay n here xs, ∀ m c, fs.at k ≠ some (.file m c) := by
  induction n generalizing here xs with
  | zero => exact not_file_of_stroll hs (fun _ _ _ _ h => by cases h) hhere h
  | succ n ih => exact not_file_of_stroll hs (fun _ _ _ hd h => ih (directory_start hd) h) hhere h

theorem Thinned.walk_noEntry (h : Thinned fs fs') (hs : fs.Sound)
    (hwalk : fs.walk manner n [] xs = .error .noEntry) :
    fs'.walk manner n [] xs = .error .noEntry := by
  rw [walk_congr fun k hk => ?_, hwalk]
  rcases h.at_eq k with hsame | ⟨-, w, d, m, c, -, hfile, -⟩
  · exact hsame
  · exact absurd hfile (not_file_of_walk hs ⟨_, at_nil fs⟩ hwalk k hk m c)

/-- A path whose directory is not there does not get one when files are removed. -/
theorem Thinned.approach_noEntry (h : Thinned fs fs') (hs : fs.Sound) (hp : p.isAbsolute = true)
    (ha : fs.approach p = .error .noEntry) : fs'.approach p = .error .noEntry := by
  rw [approach] at ha ⊢
  split at ha
  · next hne => exact absurd hne (Path.bytes_ne_nil_of_isAbsolute hp)
  next hne =>
  split at ha
  · cases ha
  next hfits =>
  rw [if_neg hne, if_neg hfits]
  dsimp only at ha ⊢
  split at ha
  · cases ha
  · rw [start_of_isAbsolute hp] at ha ⊢
    cases hwalk : fs.walk ⟨true, true⟩ mostLinks [] _ with
    | error e =>
      rw [hwalk] at ha
      obtain rfl := Except.error.inj ha
      rw [h.walk_noEntry hs hwalk]
      rfl
    | ok r =>
      rw [hwalk] at ha
      have hends := (walks_of_walk hwalk).ends hs ⟨_, at_nil fs⟩
      cases r with
      | entry k e s => cases ha
      | vacant d v s => exact absurd (by simp) hends.2.2

/-! ### What cannot be removed -/

/-- A path at which something stands, or may stand, that cannot be removed. -/
def stuck (fs : FileSystem) (p : Path) : Bool :=
  match fs.removeFile p with
  | .ok _ => false
  | .error e => !e.isNotFound

def Bars (fs : FileSystem) (a : Approach) : Prop :=
  ∀ w, a.ending = .name w → longestName < w.length ∨ ∃ x, fs.at (w :: a.directory) = some x ∧
    (a.slash = true ∨ fs.yields a.directory = false ∨ x.isDirectory = true)

theorem stuck_iff : fs.stuck p = true ↔ p.hasNul = true ∨
    (∃ err, fs.approach p = .error err ∧ err ≠ .noEntry) ∨ ∃ a, fs.approach p = .ok a ∧ fs.Bars a := by
  have hlast : Errno.nameTooLong ≠ .noEntry ∧ Errno.denied ≠ .noEntry ∧ Errno.isDirectory ≠ .noEntry ∧
      Errno.notDirectory ≠ .noEntry := by decide
  rw [stuck, removeFile, named]
  by_cases hnul : p.hasNul = true
  · simp [hnul, OsError.isNotFound]
  rw [if_neg hnul]
  cases ha : fs.approach p with
  | error err => simp [hnul, OsError.isNotFound, bind, Except.bind]
  | ok a =>
    cases hending : a.ending with
    | name w =>
      by_cases hlong : longestName < w.length
      · simp [hnul, Bars, hending, hlong, standing, OsError.isNotFound, bind, Except.bind, hlast]
      cases hx : fs.at (w :: a.directory) with
      | none => simp [hnul, Bars, hending, hlong, hx, standing, OsError.isNotFound, bind, Except.bind]
      | some x =>
        cases hslash : a.slash <;> cases hy : fs.yields a.directory <;> cases hdir : x.isDirectory <;>
          simp [hnul, Bars, hending, hlong, hx, hslash, hy, hdir, standing, OsError.isNotFound, bind,
            Except.bind, hlast]
    | _ => simp [hnul, Bars, hending, OsError.isNotFound, bind, Except.bind, hlast]

theorem Leads.spot?_of_free (h : Leads fs f d) (hw : IsName w) (hfree : fs.stuck (f.join ⟨w⟩) = false) :
    fs.spot? (f.join ⟨w⟩) = some (w :: d) := by
  have hfits : (f.join ⟨w⟩).bytes.length < longestPath := by
    by_contra hlong
    rw [stuck_iff.2 (.inr (.inl ⟨.nameTooLong, ?_, by decide⟩))] at hfree
    · cases hfree
    · rw [FileSystem.approach, if_neg (Path.bytes_join_name_ne_nil f hw), if_pos (Nat.not_lt.1 hlong)]
  exact spot?_of_approach (h.approach hw hfits) rfl

/-- What cannot be removed from a tree could not be removed before. -/
theorem Thinned.stuck (h : Thinned fs fs') (hs : fs.Sound) (hp : p.isAbsolute = true)
    (hstuck : fs'.stuck p = true) : fs.stuck p = true := by
  rw [stuck_iff] at hstuck ⊢
  rcases hstuck with hnul | hstuck
  · exact .inl hnul
  refine .inr ?_
  cases ha : fs.approach p with
  | error err =>
    refine .inl ⟨err, rfl, ?_⟩
    rintro rfl
    simp [h.approach_noEntry hs hp ha] at hstuck
  | ok a =>
    have ha' := h.refiled.approach hs hp ha
    obtain ⟨err, herr, -⟩ | ⟨a', hok, hbars⟩ := hstuck
    · rw [ha'] at herr
      cases herr
    obtain rfl := Except.ok.inj (ha'.symm.trans hok)
    refine .inr ⟨a, rfl, fun w hw => (hbars w hw).imp_right ?_⟩
    rintro ⟨x, hx, hwhy⟩
    rw [h.refiled.yields (approach_directory hs hp ha)] at hwhy
    refine ⟨x, ?_, hwhy⟩
    rcases h.at_eq (w :: a.directory) with hsame | ⟨hnone, -⟩
    · exact hsame.symm.trans hx
    · rw [hnone] at hx
      cases hx

/-! ### Names in a directory -/

/-- A path leads to a directory, or nothing stands there. -/
def Settled (fs : FileSystem) (f : Path) : Prop :=
  (∃ d, Leads fs f d) ∨
    f.hasNul = false ∧ fs.walk ⟨true, true⟩ mostLinks [] (f.named ++ [[dot]]) = .error .noEntry

/-- Where it is not known what stands at a path, nothing is removed under it. -/
theorem stuck_of_not_settled (hs : fs.Sound) (hf : f.isAbsolute = true) (ht : f.Tidy) (hw : IsName w)
    (h : ¬Settled fs f) : fs.stuck (f.join ⟨w⟩) = true := by
  rw [stuck_iff]
  by_cases hnul : (f.join ⟨w⟩).hasNul = true
  · exact .inl hnul
  refine .inr (.inl ?_)
  by_cases hfits : (f.join ⟨w⟩).bytes.length < longestPath
  · have hnul' : f.hasNul = false := by
      rw [Path.hasNul_join_name f hw] at hnul
      exact Bool.eq_false_iff.2 fun hc => hnul (by simp [hc])
    rw [approach_join_name hf hw hfits]
    cases hwalk : fs.walk ⟨true, true⟩ mostLinks [] (f.named ++ [[dot]]) with
    | error e => exact ⟨e, rfl, fun hc => h (.inr ⟨hnul', hc ▸ hwalk⟩)⟩
    | ok r =>
      have hends := (walks_of_walk hwalk).ends hs ⟨_, at_nil fs⟩
      cases r with
      | vacant d v s => exact absurd (by simp) hends.2.2
      | entry k e s =>
        have hdir := hends.2 (.inr (by simp))
        cases e with
        | directory m => exact absurd (.inl ⟨k, hf, hnul', ht, m, s, hwalk⟩) h
        | _ => cases hdir
  · refine ⟨.nameTooLong, ?_, by decide⟩
    rw [approach, if_neg (Path.bytes_join_name_ne_nil f hw), if_pos (Nat.not_lt.1 hfits)]

theorem cons_of_spot? (hf : f.isAbsolute = true) (hw : IsName w) (hl : fs.spot? (f.join ⟨w⟩) = some l) :
    ∃ d, fs.approach (f.join ⟨w⟩) = .ok ⟨d, .name w, false⟩ ∧ l = w :: d := by
  obtain ⟨a, ha, hal⟩ := approach_of_spot? hl
  have hfits : (f.join ⟨w⟩).bytes.length < longestPath := by
    by_contra hlong
    rw [approach, if_neg (Path.bytes_join_name_ne_nil f hw), if_pos (Nat.not_lt.1 hlong)] at ha
    cases ha
  rw [ha]
  rw [approach_join_name hf hw hfits] at ha
  split at ha
  · obtain rfl := Except.ok.inj ha
    exact ⟨_, rfl, (Option.some.inj hal).symm⟩
  · cases ha
  · cases ha

theorem Thinned.stuck_of_spot? (h : Thinned fs fs') (hs : fs.Sound) (hp : p.NamesFile)
    (hl : fs.spot? p = some l) (hstuck : fs.stuck p = true) : fs'.stuck p = true := by
  obtain ⟨f, w, hf, -, hw, rfl⟩ := hp
  obtain ⟨d, ha, rfl⟩ := cons_of_spot? hf hw hl
  rw [stuck_iff] at hstuck ⊢
  refine hstuck.imp_right fun hstuck => .inr ?_
  obtain ⟨err, herr, -⟩ | ⟨a, ha', hbars⟩ := hstuck
  · rw [ha] at herr
    cases herr
  obtain rfl := Except.ok.inj (ha'.symm.trans ha)
  have hp := Path.isAbsolute_join_name hf hw
  refine ⟨_, h.refiled.approach hs hp ha, fun v hv => (hbars v hv).imp_right ?_⟩
  rintro ⟨x, hx, hwhy⟩
  rw [h.refiled.yields (approach_directory hs hp ha)]
  rcases h.at_eq (v :: d) with hsame | ⟨-, u, k, m, c, heq, hfile, hy⟩
  · exact ⟨x, hsame.trans hx, hwhy⟩
  · -- what has been removed could be removed
    obtain ⟨-, rfl⟩ := List.cons.inj heq
    obtain rfl := Option.some.inj (hx.symm.trans hfile)
    simp [hy, Entry.isDirectory] at hwhy

/-- Removing files does not change what can be removed under a name, as long as the directory can be
told. -/
theorem Thinned.stuck_eq (h : Thinned fs fs') (hs : fs.Sound) (hf : f.isAbsolute = true) (ht : f.Tidy)
    (hw : IsName w) (hsettled : Settled fs f) : fs'.stuck (f.join ⟨w⟩) = fs.stuck (f.join ⟨w⟩) := by
  refine Bool.eq_iff_iff.2 ⟨h.stuck hs (Path.isAbsolute_join_name hf hw), fun hstuck => ?_⟩
  rcases stuck_iff.1 hstuck with hnul | ⟨err, herr, hne⟩ | ⟨a, ha, -⟩
  · exact stuck_iff.2 (.inl hnul)
  · refine stuck_iff.2 (.inr (.inl ⟨err, ?_, hne⟩))
    by_cases hfits : (f.join ⟨w⟩).bytes.length < longestPath
    · rw [approach_join_name hf hw hfits] at herr
      rcases hsettled with ⟨d, hlead⟩ | ⟨-, hwalk⟩
      · obtain ⟨m, s, hwalk⟩ := hlead.walk
        rw [hwalk] at herr
        cases herr
      · rw [hwalk] at herr
        exact absurd (Except.error.inj herr).symm hne
    · rw [approach, if_neg (Path.bytes_join_name_ne_nil f hw), if_pos (Nat.not_lt.1 hfits)] at herr ⊢
      exact herr
  · cases hnul : (f.join ⟨w⟩).hasNul with
    | true => exact stuck_iff.2 (.inl hnul)
    | false =>
      obtain ⟨-, hform, -⟩ := leads_of_approach hs hf ht hw hnul ha
      exact h.stuck_of_spot? hs ⟨f, w, hf, ht, hw, rfl⟩
        (spot?_of_approach ha (congrArg Approach.ending hform)) hstuck

/-! ### Removing a file -/

structure Without (fs : FileSystem) (p : Path) (fs' : FileSystem) : Prop where
  sound : fs'.Sound
  gone : ∀ l, fs.spot? p = some l → fs'.at l = none
  others : ∀ k, fs.spot? p ≠ some k → fs'.at k = fs.at k

theorem removeFile_without (hs : fs.Sound) (h : fs.removeFile p = .ok fs') :
    Without fs p fs' ∧
      ((∀ l t, fs.spot? p = some l → fs.at l ≠ some (.link t)) → Thinned fs fs') := by
  obtain ⟨a, w, e, ha, hw, he, hdir, rfl⟩ := removeFile_inv h
  have hspot := spot?_of_approach ha hw
  have hedit : Edit fs (w :: a.directory) none (fs.erase (w :: a.directory)) := by
    refine Edit.erase hs (hs.none_in fun m hm => ?_)
    obtain rfl := Option.some.inj (he.symm.trans hm)
    cases hdir
  have hyields : fs.yields a.directory = true := by
    by_contra hy
    have hstuck : fs.stuck p = true := stuck_iff.2 (.inr (.inr ⟨a, ha, fun v hv => ?_⟩))
    · rw [stuck, h] at hstuck
      cases hstuck
    · obtain rfl : w = v := by simpa [hw] using hv
      exact .inr ⟨e, he, .inr (.inl (by simpa using hy))⟩
  refine ⟨⟨hedit.sound, fun l hl => ?_, fun k hk => hedit.at_of_ne fun hc => hk (hc ▸ hspot)⟩,
    fun hlink => ⟨hedit.sound, fun k => ?_⟩⟩
  · obtain rfl := Option.some.inj (hspot.symm.trans hl)
    exact hedit.at_self
  · by_cases hk : k = w :: a.directory
    · subst hk
      cases e with
      | file m c => exact .inr ⟨hedit.at_self, w, a.directory, m, c, rfl, he, hyields⟩
      | directory m => cases hdir
      | link t => exact absurd he (hlink _ t hspot)
    · exact .inl (hedit.at_of_ne hk)

/-- Where nothing is found to be removed, nothing stands. -/
theorem none_of_removeFile {e : OsError} (h : fs.removeFile p = .error e) (he : e.isNotFound = true)
    (hl : fs.spot? p = some l) : fs.at l = none := by
  obtain ⟨a, ha, hal⟩ := approach_of_spot? hl
  have hstuck : fs.stuck p ≠ true := by simp [stuck, h, he]
  rw [Ne, stuck_iff] at hstuck
  by_contra hsome
  obtain ⟨x, hx⟩ := Option.ne_none_iff_exists'.1 hsome
  cases hending : a.ending with
  | name w =>
    obtain rfl : w :: a.directory = l := by simpa [Approach.location?, hending] using hal
    have hbars : ¬fs.Bars a := fun hb => hstuck (.inr (.inr ⟨a, ha, hb⟩))
    -- nothing keeps the entry from being removed, so it would have been
    have hfree : ¬longestName < w.length ∧ a.slash = false ∧ fs.yields a.directory = true ∧
        x.isDirectory = false := by
      refine ⟨fun hc => hbars fun v hv => ?_, ?_, ?_, ?_⟩
      · obtain rfl : w = v := by simpa [hending] using hv
        exact .inl hc
      all_goals
        by_contra hc
        refine hbars fun v hv => .inr ⟨x, ?_, ?_⟩
        · obtain rfl : w = v := by simpa [hending] using hv
          exact hx
        · simp_all
    have hnul : p.hasNul = false := Bool.eq_false_iff.2 fun hc => hstuck (.inl hc)
    obtain ⟨d, ending, slash⟩ := a
    dsimp only at hending hfree hx
    rw [hending, hfree.2.1] at ha
    rw [removeFile_of_approach hnul ha (Nat.not_lt.1 hfree.1), hx] at h
    simp [hfree.2.2.1, hfree.2.2.2] at h
  | _ => simp [Approach.location?, hending] at hal

/-! ### Removing several files -/

structure Dropped (fs : FileSystem) (P : Path → Prop) (fs' : FileSystem) : Prop where
  thinned : Thinned fs fs'
  gone : ∀ p, P p → fs.stuck p = false → ∀ l, fs.spot? p = some l → fs'.at l = none
  others : ∀ l, (∀ p, P p → fs.stuck p = false → fs.spot? p ≠ some l) → fs'.at l = fs.at l

theorem Dropped.refl (hs : fs.Sound) {P : Path → Prop} (h : ∀ p, P p → fs.stuck p = true) :
    Dropped fs P fs :=
  ⟨.refl hs, fun p hp hfree => by simp [h p hp] at hfree, fun _ _ => rfl⟩

theorem Dropped.congr {P P' : Path → Prop} (h : Dropped fs P fs') (hP : ∀ p, P p ↔ P' p) :
    Dropped fs P' fs' := by
  obtain rfl : P = P' := funext fun p => propext (hP p)
  exact h

theorem Dropped.trans {P P' : Path → Prop} (h : Dropped fs P fs') (hs : fs.Sound)
    (h' : Dropped fs' P' fs'') (hP' : ∀ p, P' p → p.NamesFile) :
    Dropped fs (fun p => P p ∨ P' p) fs'' where
  thinned := h.thinned.trans hs h'.thinned
  gone p hp hfree l hl := by
    rcases hp with hp | hp
    · exact h'.thinned.at_none (h.gone p hp hfree l hl)
    · have hfree' : fs'.stuck p = false := Bool.eq_false_iff.2 fun hc => by
        simp [h.thinned.stuck hs (hP' p hp).isAbsolute hc] at hfree
      refine h'.gone p hp hfree' l ?_
      rw [h.thinned.refiled.spot? hs (hP' p hp).isAbsolute, hl]
  others l hl := by
    rw [h'.others l fun p hp hfree hspot => ?_, h.others l fun p hp => hl p (.inl hp)]
    rw [h.thinned.refiled.spot? hs (hP' p hp).isAbsolute] at hspot
    refine hl p (.inr hp) (Bool.eq_false_iff.2 fun hc => ?_) hspot
    simp [h.thinned.stuck_of_spot? hs (hP' p hp) hspot hc] at hfree

structure Lacks (fs : FileSystem) (p : Path) : Prop where
  unseen : (fs.linkStatus p).isOk = false
  nothing : ∃ e, fs.removeFile p = .error e ∧ e.isNotFound = true

theorem Dropped.lacks {P : Path → Prop} (h : Dropped fs P fs') (hs : fs.Sound) (hp : P p)
    (hname : p.NamesFile) (hfree : fs.stuck p = false) : Lacks fs' p := by
  have hnone : ∀ l, fs'.spot? p = some l → fs'.at l = none := fun l hl =>
    h.gone p hp hfree l ((h.thinned.refiled.spot? hs hname.isAbsolute).symm.trans hl)
  refine ⟨linkStatus_of_none h.thinned.sound hname hnone, ?_⟩
  cases hremove : fs'.removeFile p with
  | ok fs₁ =>
    obtain ⟨a, w, e, ha, hw, he, -⟩ := removeFile_inv hremove
    rw [hnone _ (spot?_of_approach ha hw)] at he
    cases he
  | error e =>
    refine ⟨e, rfl, ?_⟩
    by_contra hnf
    have hstuck : fs'.stuck p = true := by simp [stuck, hremove, Bool.not_eq_true _ ▸ hnf]
    simp [h.thinned.stuck hs hname.isAbsolute hstuck] at hfree

/-- Other files are read as before. -/
theorem Dropped.read_iff {P : Path → Prop} {c : Bytes} (h : Dropped fs P fs') (hs : fs.Sound)
    (hp : p.NamesFile) (hlink : ∀ l t, fs.spot? p = some l → fs.at l ≠ some (.link t))
    (hother : ∀ q, P q → ∀ l, fs.spot? q = some l → fs.spot? p ≠ some l) :
    fs'.read p = .ok c ↔ fs.read p = .ok c :=
  h.thinned.refiled.read_iff hs hp hlink fun l hl =>
    h.others l fun q hq _ hspot => hother q hq l hspot hl

end Retrace.FileSystem
