import Retrace.Proofs.Files
import Retrace.Proofs.FileSystem.Growth
import Retrace.Proofs.FileSystem.Refiled
import Retrace.Proofs.Footprint

/-!
Files that are written whole, wherever their paths lead and whatever links are on the way. Either the
file has come to the place of its path, or of the link there, and nothing else but missing directories
has (`writeAtomic_written`); or writing has failed, and all that has come are missing directories. The
temporary file is gone in either case (`Temporary`).
-/
namespace Retrace

open FileSystem Script
open Retrace.Path (IsName dot)

/-- What is left of a path when pieces are taken off its end. -/
inductive Path.Above : Path → Path → Prop
  | parent {p q : Path} (h : p.parent? = some q) : Above q p
  | above {p q r : Path} (h : p.parent? = some q) (hr : Above r q) : Above r p

namespace FileSystem

variable {fs fs' fs'' : FileSystem} {l : Location} {p q t : Path} {e : Entry}

structure Landed (fs : FileSystem) (q : Path) (l : Location) (e : Entry) (fs' : FileSystem) : Prop where
  noNul : q.hasNul = false
  place : ∃ a w, fs.approach q = .ok a ∧ a.ending = .name w ∧ w.length ≤ longestName ∧
    l = w :: a.directory
  old : ∀ x ∈ fs.at l, x.isDirectory = false
  edit : Edit fs l (some e) fs'

theorem Landed.spot? (h : Landed fs q l e fs') : fs.spot? q = some l := by
  obtain ⟨a, w, ha, hw, -, rfl⟩ := h.place
  exact spot?_of_approach ha hw

/-- A new file that was renamed has come to the place of its new path. -/
theorem Edit.renamed (h : Edit fs l (some e) fs') (hs : fs.Sound) (hnew : fs.at l = none)
    (he : e.kind = .file) (hq : q.isAbsolute = true) (hspot : fs'.spot? t = some l)
    (hren : fs'.rename t q = .ok fs'') : ∃ k, Landed fs q k e fs'' := by
  have hdir : e.isDirectory = false := by cases e <;> first | rfl | cases he
  have hrefiled : Refiled fs fs' := h.refiled (by simp [hnew]) (by simpa using he)
  obtain ⟨-, hnul, hshort⟩ := rename_names hren
  obtain ⟨a, v, b, w, x, ha, hv, hb, hw, hx, hmoved⟩ := rename_inv h.sound hren
  obtain rfl : v :: a.directory = l := by
    rw [spot?_of_approach ha hv] at hspot
    exact Option.some.inj hspot
  obtain rfl : e = x := Option.some.inj (h.at_self.symm.trans hx)
  suffices hlanded : (∀ x ∈ fs.at (w :: b.directory), x.isDirectory = false) ∧
      Edit fs (w :: b.directory) (some e) fs'' from
    ⟨_, hnul, ⟨b, w, (hrefiled.symm hs).approach h.sound hq hb, hw, hshort b w hb hw, rfl⟩,
      hlanded.1, hlanded.2⟩
  rcases hmoved with ⟨hsame, rfl⟩ | ⟨hmove, hkind, rfl⟩
  · rw [← hsame]
    exact ⟨by simp [hnew], h⟩
  · have hne : w :: b.directory ≠ v :: a.directory := fun hc => hmove.not_into (hc ▸ List.suffix_refl _)
    have hold : ∀ x ∈ fs.at (w :: b.directory), x.isDirectory = false := fun x hx =>
      (hkind x ((h.at_of_ne hne).trans hx)).trans hdir
    refine ⟨hold, h.relocate hs hnew hdir hmove (fun m hm => ?_) (approach_directory h.sound hq hb)⟩
    cases hold _ hm

/-! ### Temporary files -/

/-- A path that is good for a file at a place that is free: while one is there, the path leads to it
and the file can be removed. -/
structure Temporary (fs : FileSystem) (t : Path) (l : Location) : Prop where
  free : fs.at l = none
  spot : ∀ {fs' m c}, Edit fs l (some (.file m c)) fs' → fs'.spot? t = some l
  goal : ∀ {fs' m c k}, Edit fs l (some (.file m c)) fs' → fs'.goal? t = some k → k = l
  remove : ∀ {fs' m c}, Edit fs l (some (.file m c)) fs' → fs'.removeFile t = .ok (fs'.erase l)

theorem makeTemporary_temporary (hs : fs.Sound) (hp : p.isAbsolute = true)
    (h : fs.makeTemporary p = .ok (t, fs')) :
    ∃ l, Temporary fs t l ∧ Edit fs l (some (.file 0o600 [])) fs' := by
  obtain ⟨d, e, s, k, hwalk, hfree, ht, hedit, hnul, hyields, hshort, hfits⟩ :=
    makeTemporary_inv hs hp h
  rw [ht]
  have hname := isName_temporaryName k
  suffices h : Temporary fs (p.join ⟨temporaryName k⟩) (temporaryName k :: d) from ⟨_, h, hedit⟩
  have hstill : ∀ {fs' m c}, Edit fs (temporaryName k :: d) (some (.file m c)) fs' →
      fs'.walk ⟨true, true⟩ mostLinks [] (p.named ++ [[dot]]) = .ok (.entry d e s) :=
    fun hedit => (hedit.spares (T := fun _ => False) (by simp [hfree])).walk hs hwalk
  have happroach : ∀ {fs' m c}, Edit fs (temporaryName k :: d) (some (.file m c)) fs' →
      fs'.approach (p.join ⟨temporaryName k⟩) = .ok ⟨d, .name (temporaryName k), false⟩ :=
    fun hedit => by rw [approach_join_name hp hname hfits, hstill hedit]
  refine ⟨hfree, fun hedit => spot?_of_approach (happroach hedit) rfl, fun hedit hgoal => ?_,
    fun hedit => ?_⟩
  · exact goal?_join hp hname (hstill hedit) (by simp [hedit.at_self]) hgoal
  · have hnul' : (p.join ⟨temporaryName k⟩).hasNul = false := by
      rw [Path.hasNul_join_name p hname, hnul]
      simpa using zero_not_mem_temporaryName k
    rw [removeFile_of_approach hnul' (happroach hedit) hshort, hedit.at_self, hedit.yields_eq, hyields]
    rfl

theorem Temporary.fill {m : Nat} {c content : Bytes} (h : Temporary fs t l)
    (hedit : Edit fs l (some (.file m c)) fs') (hfill : fs'.fill t content = .ok fs'') :
    Edit fs l (some (.file m content)) fs'' := by
  obtain ⟨⟨k, e⟩, hentry, hfill⟩ := exists_of_bind (eq_ok_of_named hfill)
  obtain ⟨hgoal, hat⟩ := goal?_of_entryAt hentry
  obtain rfl := h.goal hedit hgoal
  obtain rfl : e = .file m c := Option.some.inj (hat.symm.trans hedit.at_self)
  obtain rfl := Except.ok.inj hfill
  exact hedit.trans (Edit.insert_file hedit.sound (.inl hat) (by simp [hat]) _)

end FileSystem

namespace Script

variable {α β : Type} {s : Script α} {f : α → Script β} {N : Path → Entry → Prop}

def Adds (N : Path → Entry → Prop) (s : Script α) : Prop :=
  ∀ fs, fs.Sound → Grown fs N (s.run fs).2

theorem Looks.adds (h : Looks s) : Adds N s := fun fs hs => by
  rw [h.run fs]
  exact Grown.refl hs

theorem Adds.bind (h : Adds N s) (hf : ∀ a, Adds N (f a)) : Adds N (s >>= f) := fun fs hs => by
  have hgrown := h fs hs
  rw [run_bind]
  exact hgrown.trans (hf _ _ hgrown.sound)

theorem adds_ask_makeDirectory {p : Path} (hp : p.isAbsolute = true)
    (hN : ∀ m, N p (.directory m)) : Adds N (Script.ask (.makeDirectory p)) := fun fs hs => by
  change Grown fs N (Call.change fs (fs.makeDirectory p)).2
  cases h : fs.makeDirectory p with
  | error e => exact Grown.refl hs
  | ok fs' =>
    obtain ⟨a, w, ha, hw, hfree, rfl⟩ := makeDirectory_inv h
    have hedit : Edit fs (w :: a.directory) (some (fs.newDirectory a.directory)) _ :=
      Edit.insert hs (approach_directory hs hp ha) (.inl rfl)
    exact (Grown.refl hs).insert hedit hfree hp
      ((makeDirectory_spares hs hp h).spot? hs hp (spot?_of_approach ha hw)) (hN _)

end Script

namespace Files

variable {α β : Type} {fs fs' : FileSystem} {p q t : Path} {content : Bytes} {l : Location}
  {N : Path → Entry → Prop}

theorem adds_andThen {x : Trial α} {g : α → Trial β} (h : Adds N x.run) (hg : ∀ a, Adds N (g a).run) :
    Adds N (x >>= g).run := by
  rw [ExceptT.run_bind]
  refine h.bind fun r => ?_
  cases r with
  | ok a => exact hg a
  | error e => exact (Looks.pure _).adds

theorem adds_makeDirectory (hp : p.isAbsolute = true) (hN : ∀ m, N p (.directory m)) :
    Adds N (makeDirectory p).run := by
  refine (adds_ask_makeDirectory hp hN).bind fun r => ?_
  cases r with
  | ok u => exact (Looks.pure _).adds
  | error e =>
    refine (looks_isDirectory p).adds.bind fun b => ?_
    cases b <;> exact (Looks.pure _).adds

theorem adds_makeDirectories (hp : p.isAbsolute = true)
    (hN : ∀ q, q = p ∨ q.Above p → ∀ m, N q (.directory m)) (depth : Nat) :
    Adds N (makeDirectories depth p).run := by
  induction depth generalizing p with
  | zero => exact (Looks.pure _).adds
  | succ depth ih =>
    rw [makeDirectories, if_neg (Path.bytes_ne_nil_of_isAbsolute hp)]
    refine (adds_ask_makeDirectory hp (hN p (.inl rfl))).bind fun r => ?_
    cases r with
    | ok u => exact (Looks.pure _).adds
    | error e =>
      dsimp only
      split
      · split
        · exact (Looks.pure _).adds
        · next up hup =>
          refine adds_andThen (ih (Path.isAbsolute_of_parent? hp hup) fun q hq => hN q (.inr ?_))
            fun _ => adds_makeDirectory hp (hN p (.inl rfl))
          rcases hq with rfl | hq
          · exact .parent hup
          · exact .above hup hq
      · refine (looks_isDirectory p).adds.bind fun b => ?_
        cases b <;> exact (Looks.pure _).adds

theorem adds_ensureParent (hp : p.isAbsolute = true)
    (hN : ∀ q, q.Above p → ∀ m, N q (.directory m)) : Adds N (ensureParent p).run := by
  rw [ensureParent]
  split
  · exact (Looks.pure _).adds
  · next up hup =>
    split
    · exact (Looks.pure _).adds
    · rw [ExceptT.run_bind]
      change Adds N ((present up >>= fun a => pure (Except.ok a)) >>= _)
      rw [LawfulMonad.bind_assoc]
      refine (looks_present up).adds.bind fun b => ?_
      simp only [pure_bind]
      cases b with
      | true => exact (Looks.pure _).adds
      | false =>
        refine adds_makeDirectories (Path.isAbsolute_of_parent? hp hup) (fun q hq => hN q ?_) _
        rcases hq with rfl | hq
        · exact .parent hup
        · exact .above hup hq

/-! ### Writing -/

/-- What comes of the installation of a temporary file: it has gone to its place, or is still there. -/
theorem install_temporary (hs : fs.Sound) (h : Temporary fs t l) (hq : q.isAbsolute = true)
    (hedit : Edit fs l (some (.file 0o600 [])) fs') :
    Meets (install t q content).run fs' (fun _ => True) fun r fs'' =>
      (r = .ok () ∧ ∃ k, Landed fs q k (.file 0o600 content) fs'') ∨
        ∃ e c, r = .error e ∧ Edit fs l (some (.file 0o600 c)) fs'' := by
  refine meets_andThen (Q := fun r fs'' => (r = .ok () ∧ Edit fs l (some (.file 0o600 content)) fs'') ∨
    ∃ e, r = .error e ∧ fs'' = fs') ⟨fun _ _ => trivial, ?_⟩ ?_ ?_
  · rw [attempt, ExceptT.run_mk, run_ask, Call.perform]
    cases hfill : fs'.fill t content with
    | error e => exact .inr ⟨e, rfl, rfl⟩
    | ok fs'' => exact .inl ⟨rfl, h.fill hedit hfill⟩
  · rintro u fs₂ - (⟨-, hfilled⟩ | ⟨e, he, -⟩)
    · split
      · exact Meets.pure trivial (.inr ⟨_, _, rfl, hfilled⟩)
      · refine ⟨fun _ _ => trivial, ?_⟩
        simp only [attempt, ExceptT.run_mk, run_ask, Call.perform]
        cases hren : fs₂.rename t q with
        | error e => exact .inr ⟨e, _, rfl, hfilled⟩
        | ok fs₃ => exact .inl ⟨rfl, hfilled.renamed hs h.free rfl hq (h.spot hfilled) hren⟩
    · cases he
  · rintro e fs₂ - (⟨he, -⟩ | ⟨-, -, rfl⟩)
    · cases he
    · exact .inr ⟨e, [], rfl, hedit⟩

/-- A directory above a path. -/
def OnTheWay (q f : Path) (e : Entry) : Prop := f.Above q ∧ e.isDirectory = true

def Target (fs : FileSystem) (p q : Path) : Prop := q = p ∨ ∃ j, Beyond fs p j ∧ q = Path.ofNames true j

/-- What may come of a file that is written: it has its place in the tree with the directories that
were missing, or nothing but missing directories has come. -/
inductive Written (fs : FileSystem) (p : Path) (content : Bytes) (fs' : FileSystem) :
    Except OsError Unit → Prop
  | whole {q : Path} {fs₁ : FileSystem} {l : Location} (target : Target fs p q)
    (made : Grown fs (OnTheWay q) fs₁) (place : fs₁.spot? p = some l ∨ Beyond fs p l)
    (old : ∀ x ∈ fs₁.at l, x.isDirectory = false)
    (edit : Edit fs₁ l (some (.file 0o600 content)) fs') : Written fs p content fs' (.ok ())
  | failed {q : Path} {e : OsError} (target : Target fs p q) (made : Grown fs (OnTheWay q) fs') :
    Written fs p content fs' (.error e)

theorem meets_first {s : Script α} {a : α} {g : α → Trial β} {R : Except OsError β → FileSystem → Prop}
    (h : s.run fs = (a, fs')) (hg : Meets (g a).run fs' (fun _ => True) R) :
    Meets ((liftM s : Trial α) >>= g).run fs (fun _ => True) R := by
  rw [ExceptT.run_bind]
  change Meets ((s >>= fun a => pure (Except.ok a)) >>= _) fs _ R
  rw [LawfulMonad.bind_assoc]
  refine Meets.bind_run (Q := fun _ _ => True) ⟨fun _ _ => trivial, trivial⟩ ?_
  rw [h]
  simpa using hg

theorem makeTemporary_result (hs : fs.Sound) (hp : p.isAbsolute = true) :
    Meets (makeTemporary p).run fs (fun _ => True) fun r fs' =>
      (∃ t l, r = .ok t ∧ Temporary fs t l ∧ Edit fs l (some (.file 0o600 [])) fs') ∨
        ∃ e, r = .error e ∧ fs' = fs := by
  refine ⟨fun _ _ => trivial, ?_⟩
  simp only [makeTemporary, attempt, ExceptT.run_mk, run_bind, run_ask, Call.perform]
  cases hmake : fs.makeTemporary p with
  | ok x =>
    obtain ⟨l, htemp, hedit⟩ := makeTemporary_temporary hs hp hmake
    exact .inl ⟨x.1, l, rfl, htemp, hedit⟩
  | error e => cases e <;> exact .inr ⟨_, rfl, rfl⟩

/-- What comes of putting a temporary file in its place: where that fails, the file is removed. -/
theorem settle_temporary (hs : fs.Sound) (h : Temporary fs t l) (hq : q.isAbsolute = true)
    (hedit : Edit fs l (some (.file 0o600 [])) fs') :
    Meets (attempt do
      match ← (install t q content).run with
      | .ok () => return .ok ()
      | .error e =>
        let _ ← Script.ask (.removeFile t)
        return .error e : Trial Unit).run fs' (fun _ => True) fun r fs'' =>
      (r = .ok () ∧ ∃ k, Landed fs q k (.file 0o600 content) fs'') ∨
        (∃ e, r = .error e) ∧ fs''.Sound ∧ ∀ k, fs''.at k = fs.at k := by
  refine Meets.bind (install_temporary hs h hq hedit) ?_
  rintro r fs₁ - (hdone | ⟨e, c, rfl, hleft⟩)
  · obtain ⟨rfl, -⟩ := id hdone
    exact Meets.pure trivial (.inl hdone)
  · have hgone : Edit fs l none (fs₁.erase l) := by
      have hne : l ≠ [] := fun hc => by simpa [hc] using h.free
      obtain ⟨w, d, rfl⟩ := List.exists_cons_of_ne_nil hne
      exact hleft.trans (Edit.erase hleft.sound (hleft.sound.none_in fun m => by simp [hleft.at_self]))
    have hperform : Call.perform fs₁ (.removeFile t) = (.ok (), fs₁.erase l) := by
      rw [Call.perform, h.remove hleft]
      rfl
    refine Meets.bind (Meets.ask hperform trivial trivial) ?_
    rintro _ _ - ⟨-, rfl⟩
    refine Meets.pure trivial (.inr ⟨⟨e, rfl⟩, hgone.sound, fun k => ?_⟩)
    by_cases hk : k = l
    · rw [hk, hgone.at_self, h.free]
    · exact hgone.at_of_ne hk

/-- What comes of writing a file once it is known which path is written. -/
theorem writeAtomic_landed (hs : fs.Sound) (hq : q.isAbsolute = true)
    (hresolve : (resolveLink p).run fs = (q, fs)) (content : Bytes) :
    Meets (writeAtomic p content).run fs (fun _ => True) fun r fs' =>
      (r = .ok () ∧ ∃ fs₁ l, Grown fs (OnTheWay q) fs₁ ∧ Landed fs₁ q l (.file 0o600 content) fs') ∨
        (∃ e, r = .error e) ∧ Grown fs (OnTheWay q) fs' := by
  refine meets_first hresolve ?_
  refine meets_andThen (Q := fun _ fs₁ => Grown fs (OnTheWay q) fs₁)
    ⟨fun _ _ => trivial, adds_ensureParent hq (fun f hf m => ⟨hf, rfl⟩) fs hs⟩ ?_
    fun e fs' _ hmade => .inr ⟨⟨e, rfl⟩, hmade⟩
  rintro _ fs₁ - hmade
  obtain ⟨dir, hdir, habs⟩ := directoryOf_spec fs₁ q
  refine meets_first hdir ?_
  refine meets_andThen (makeTemporary_result hmade.sound habs) ?_ ?_
  · rintro _ fs₂ - (⟨t, l, ht, htemp, hedit⟩ | ⟨e, he, -⟩)
    · rw [Except.ok.inj ht]
      refine (settle_temporary hmade.sound htemp hq hedit).mono (fun _ _ => trivial) ?_
      rintro r fs₃ - (⟨rfl, k, hlanded⟩ | ⟨he, hsound, hsame⟩)
      · exact .inl ⟨rfl, fs₁, k, hmade, hlanded⟩
      · exact .inr ⟨he, hmade.congr hsound hsame⟩
    · cases he
  · rintro e fs₂ - (⟨t, l, he, -⟩ | ⟨-, -, rfl⟩)
    · cases he
    · exact .inr ⟨⟨e, rfl⟩, hmade⟩

/-- Writing a file writes all of it at its place, or leaves nothing but missing directories. -/
theorem writeAtomic_written (hs : fs.Sound) (hp : p.isAbsolute = true) (content : Bytes) :
    Written fs p content ((writeAtomic p content).run.run fs).2 ((writeAtomic p content).run.run fs).1 := by
  obtain ⟨q, hresolve, htarget⟩ := resolveLink_spec fs p
  have hq : q.isAbsolute = true := by
    rcases htarget with rfl | ⟨j, -, rfl⟩
    · exact hp
    · rfl
  rcases (writeAtomic_landed hs hq hresolve content).result with
    ⟨hok, fs₁, l, hmade, hlanded⟩ | ⟨⟨e, he⟩, hmade⟩
  · rw [hok]
    exact .whole htarget hmade (reaches_target hs hp htarget hmade.toSpares hlanded.spot?) hlanded.old
      hlanded.edit
  · rw [he]
    exact .failed htarget hmade

end Files

/-! ### Writing at a vacant path -/

namespace FileSystem

variable {fs fs' : FileSystem} {f p : Path} {d : Location} {w : Bytes}

/-- Nothing is found at a path, not even a link that leads nowhere. -/
def Vacant (fs : FileSystem) (p : Path) : Prop := (fs.linkStatus p).isOk = false

instance (fs : FileSystem) (p : Path) : Decidable (fs.Vacant p) := inferInstanceAs (Decidable (_ = _))

theorem Vacant.linkStatus (h : fs.Vacant p) (kind : FileKind) : fs.linkStatus p ≠ .ok kind := by
  intro hk
  rw [Vacant, hk] at h
  cases h

theorem Vacant.at (h : fs.Vacant (f.join ⟨w⟩)) (ha : Aims fs f d w) : fs.at (w :: d) = none := by
  cases hx : fs.at (w :: d) with
  | none => rfl
  | some e =>
    refine absurd ha.linkStatus ?_
    rw [hx]
    exact h.linkStatus e.kind

theorem vacant_of_free (hs : fs.Sound) (hf : f.isAbsolute = true) (ht : f.Tidy) (hw : IsName w)
    (hfree : ∀ d, Aims fs f d w → fs.at (w :: d) = none) : fs.Vacant (f.join ⟨w⟩) := by
  rw [Vacant]
  cases hk : fs.linkStatus (f.join ⟨w⟩) with
  | error e => rfl
  | ok kind =>
    have hnul := noNul_of_named hk
    have hentry := eq_ok_of_named hk
    cases hx : fs.entryAt false (f.join ⟨w⟩) with
    | error e => rw [hx] at hentry; cases hentry
    | ok x =>
      obtain ⟨r, hfind, -⟩ := exists_of_bind hx
      obtain ⟨d, haims⟩ := aims_of_find hs hf ht hw hnul hfind
      rw [haims.linkStatus, hfree d haims] at hk
      cases hk

theorem leads_of_makeTemporary {x : Path × FileSystem} (hs : fs.Sound) (hf : f.isAbsolute = true)
    (ht : f.Tidy) (h : fs.makeTemporary f = .ok x) : ∃ d, Leads fs f d := by
  obtain ⟨d, e, s, k, hwalk, -, -, -, hnul, -⟩ := makeTemporary_inv hs hf h
  obtain ⟨hat, hend⟩ := (walks_of_walk hwalk).ends hs ⟨_, at_nil fs⟩
  have hdir : e.isDirectory = true := hend (.inr (by simp))
  cases e with
  | directory m => exact ⟨d, hf, hnul, ht, m, s, hwalk⟩
  | _ => cases hdir

end FileSystem

namespace Files

variable {w : Bytes} {f : Path}

/-- What comes of a file that is written at a vacant path: it has come to its place, or nothing has
changed. -/
inductive Placed (fs : FileSystem) (f : Path) (w content : Bytes) (fs' : FileSystem) :
    Except OsError Unit → Prop
  | placed {d : Location} (room : Room fs f d) (aims : Aims fs f d w) (free : fs.at (w :: d) = none)
    (edit : Edit fs (w :: d) (some (.file 0o600 content)) fs') : Placed fs f w content fs' (.ok ())
  | failed {e : OsError} (sound : fs'.Sound) (same : ∀ k, fs'.at k = fs.at k) :
    Placed fs f w content fs' (.error e)

theorem ensureParent_join (hf : f.isAbsolute = true) (ht : f.Tidy) (hw : IsName w)
    (hthere : (fs.linkStatus f).isOk = true) :
    (ensureParent (f.join ⟨w⟩)).run.run fs = (.ok (), fs) := by
  rw [ensureParent, Path.parent?_join_name ht hw]
  simp only [Path.bytes_ne_nil_of_isAbsolute hf, if_false]
  rw [ExceptT.run_bind]
  change Script.run fs ((present f >>= fun a => pure (Except.ok a)) >>= _) = _
  rw [LawfulMonad.bind_assoc, run_bind, present_run, hthere]
  rfl

/-- A file that could not be written in a directory that is there has left nothing behind. -/
theorem writeAtomic_there (hs : fs.Sound) (hf : f.isAbsolute = true) (ht : f.Tidy) (hw : IsName w)
    (hthere : (fs.linkStatus f).isOk = true)
    (hlink : ∀ kind, fs.linkStatus (f.join ⟨w⟩) = .ok kind → kind ≠ .link) (content : Bytes) :
    Meets (writeAtomic (f.join ⟨w⟩) content).run fs (fun _ => True) fun r fs' =>
      (r = .ok () ∧ ∃ d, Leads fs f d) ∨ (∃ e, r = .error e) ∧ fs'.Sound ∧ ∀ k, fs'.at k = fs.at k := by
  refine meets_first (resolveLink_run hlink) ?_
  refine meets_andThen (Q := fun r fs₁ => r = .ok () ∧ fs₁ = fs)
    ⟨fun _ _ => trivial, by rw [ensureParent_join hf ht hw hthere]; exact ⟨rfl, rfl⟩⟩ ?_
    (by rintro e fs' - ⟨he, -⟩; cases he)
  rintro _ fs₁ - ⟨-, hfs⟩
  subst hfs
  rw [directoryOf_join hf ht hw]
  refine meets_first (run_pure fs₁ f) ?_
  cases hmake : fs₁.makeTemporary f with
  | error e =>
    refine meets_andThen (Q := fun r fs₂ => (∃ e, r = .error e) ∧ fs₂ = fs₁) ⟨fun _ _ => trivial, ?_⟩
      (by rintro _ fs₂ - ⟨⟨e, he⟩, -⟩; cases he)
      (by rintro e fs₂ - ⟨-, rfl⟩; exact .inr ⟨⟨e, rfl⟩, hs, fun _ => rfl⟩)
    simp only [makeTemporary, attempt, ExceptT.run_mk, run_bind, run_ask, Call.perform, hmake]
    cases e <;> exact ⟨⟨_, rfl⟩, rfl⟩
  | ok x =>
    refine meets_andThen (makeTemporary_result hs hf) ?_ ?_
    · rintro _ fs₂ - (⟨t, l, hr, htemp, hedit⟩ | ⟨e, he, -⟩)
      · rw [Except.ok.inj hr]
        refine (settle_temporary hs htemp (Path.isAbsolute_join_name hf hw) hedit).mono
          (fun _ _ => trivial) ?_
        rintro r fs₃ - (⟨rfl, -⟩ | hfailed)
        · exact .inl ⟨rfl, leads_of_makeTemporary hs hf ht hmake⟩
        · exact .inr hfailed
      · cases he
    · rintro e fs₂ - (⟨t, l, he, -⟩ | ⟨-, -, rfl⟩)
      · cases he
      · exact .inr ⟨⟨e, rfl⟩, hs, fun _ => rfl⟩

theorem writeAtomic_vacant (hs : fs.Sound) (hf : f.isAbsolute = true) (ht : f.Tidy) (hw : IsName w)
    (hthere : (fs.linkStatus f).isOk = true) (hvacant : fs.Vacant (f.join ⟨w⟩)) (content : Bytes) :
    Placed fs f w content ((writeAtomic (f.join ⟨w⟩) content).run.run fs).2
      ((writeAtomic (f.join ⟨w⟩) content).run.run fs).1 := by
  have hlink : ∀ kind, fs.linkStatus (f.join ⟨w⟩) = .ok kind → kind ≠ .link :=
    fun kind hk => absurd hk (hvacant.linkStatus kind)
  rcases (writeAtomic_there hs hf ht hw hthere hlink content).result with
    ⟨hok, d, hlead⟩ | ⟨⟨e, he⟩, hsound, hsame⟩
  · have hwrote : Wrote fs f d w content _ _ := (writeAtomic_direct hs hlead hw hlink).result
    rw [hok] at hwrote ⊢
    rcases hwrote with ⟨-, hedit, hroom, haims⟩ | ⟨⟨e, he⟩, -⟩
    · exact .placed hroom haims (hvacant.at haims) hedit
    · cases he
  · rw [he]
    exact .failed hsound hsame

theorem removeIfPresent_vacant (hs : fs.Sound) (hf : f.isAbsolute = true) (ht : f.Tidy) (hw : IsName w)
    (hvacant : fs.Vacant (f.join ⟨w⟩)) : ((removeIfPresent (f.join ⟨w⟩)).run.run fs).2 = fs := by
  rw [removeIfPresent_eq]
  cases h : fs.removeFile (f.join ⟨w⟩) with
  | error e => rfl
  | ok fs' =>
    obtain ⟨a, v, e, ha, hv, hx, -⟩ := removeFile_inv h
    obtain ⟨hlead, hend, -⟩ := leads_of_approach hs hf ht hw (noNul_of_named h) ha
    rcases hlead.aims_or_dead hw with haims | hdead
    · obtain rfl : w = v := by
        rw [hend] at hv
        exact (Ending.name.inj hv)
      rw [hvacant.at haims] at hx
      cases hx
    · obtain ⟨err, he, -⟩ := hdead.removeFile
      rw [he] at h
      cases h

end Files
end Retrace
