import Retrace.Proofs.FileSystem.Reach
import Retrace.Proofs.Script

/-!
Work on the files of one directory. Whatever becomes of a file that is written, at each stage the
directory is as before but for one temporary file, or has the whole new file (`writeAtomic_meets`).
-/
namespace Retrace.Files

open FileSystem Retrace.Path Script

variable {α β : Type} {fs fs' : FileSystem} {f p : Path} {d : Location} {w : Bytes}
  {content : Bytes} {P : FileSystem → Prop}

section Trial

variable {x : Trial α} {g : α → Trial β} {Q : Except OsError α → FileSystem → Prop}
  {R : Except OsError β → FileSystem → Prop}

theorem meets_andThen (h : Meets x.run fs P Q)
    (hok : ∀ a fs', P fs' → Q (.ok a) fs' → Meets (g a).run fs' P R)
    (herr : ∀ e fs', P fs' → Q (.error e) fs' → R (.error e) fs') :
    Meets (x >>= g).run fs P R := by
  rw [ExceptT.run_bind]
  refine h.bind fun r fs' hP hr => ?_
  cases r with
  | ok a => exact hok a fs' hP hr
  | error e => exact Meets.pure hP (herr e fs' hP hr)

theorem meets_lift {s : Script α} {result : α → FileSystem → Prop} (h : Meets s fs P result) :
    Meets (liftM s : Trial α).run fs P fun r fs' => ∃ a, r = .ok a ∧ result a fs' := by
  change Meets (s >>= fun a => pure (Except.ok a)) fs P _
  exact h.bind fun a fs' hP ha => Meets.pure hP ⟨a, rfl, ha⟩

end Trial

/-! ### Looking -/

theorem looks_present (p : Path) : Looks (present p) :=
  (Looks.ask fun _ => rfl).bind fun r => by cases r <;> exact Looks.pure _

theorem looks_isDirectory (p : Path) : Looks (isDirectory p) :=
  (Looks.ask fun _ => rfl).bind fun r => by
    rcases r with _ | ⟨_ | _ | _⟩ <;> exact Looks.pure _

theorem looks_resolveLink (p : Path) : Looks (resolveLink p) :=
  (Looks.ask fun _ => rfl).bind fun r => by
    rcases r with _ | ⟨_ | _ | _⟩
    · exact Looks.pure _
    · exact Looks.pure _
    · exact Looks.pure _
    · exact (Looks.ask fun _ => rfl).bind fun q => by cases q <;> exact Looks.pure _

theorem looks_snapshot (p : Path) : Looks (snapshot p).run :=
  (Looks.ask fun _ => rfl).bind fun r => by
    rcases r with e | ⟨_ | _ | _⟩
    · by_cases he : e.isNotFound = true
      · simpa [he] using Looks.pure _
      · simpa [he] using Looks.pure _
    · exact (Looks.ask fun _ => rfl).bind fun q => by cases q <;> exact Looks.pure _
    · exact Looks.pure _
    · exact Looks.pure _

theorem present_run (fs : FileSystem) (p : Path) :
    (present p).run fs = ((fs.linkStatus p).isOk, fs) := by
  simp only [present, run_bind, run_ask, Call.perform]
  cases fs.linkStatus p <;> rfl

theorem Aims.present_run (h : Aims fs f d w) :
    (present (f.join ⟨w⟩)).run fs = ((fs.at (w :: d)).isSome, fs) := by
  rw [Files.present_run, h.linkStatus]
  cases fs.at (w :: d) <;> rfl

theorem resolveLink_run (h : ∀ kind, fs.linkStatus p = .ok kind → kind ≠ .link) :
    (resolveLink p).run fs = (p, fs) := by
  simp only [resolveLink, run_bind, run_ask, Call.perform]
  cases hk : fs.linkStatus p with
  | error e => rfl
  | ok kind =>
    have hkind := h kind hk
    cases kind with
    | file => rfl
    | directory => rfl
    | link => exact absurd rfl hkind

theorem linkStatus_join (h : Leads fs f d) (hw : IsName w)
    (hleaf : ∀ t, fs.at (w :: d) ≠ some (.link t)) :
    ∀ kind, fs.linkStatus (f.join ⟨w⟩) = .ok kind → kind ≠ .link := by
  intro kind hk hlink
  rcases h.aims_or_dead hw with ha | hdead
  · rw [ha.linkStatus] at hk
    cases hx : fs.at (w :: d) with
    | none => simp [hx] at hk
    | some e =>
      cases e with
      | file m c => simp_all [Entry.kind]
      | directory m => simp_all [Entry.kind]
      | link t => exact hleaf t hx
  · obtain ⟨err, he, -⟩ := hdead.linkStatus
    simp [he] at hk

theorem resolveLink_join (h : Leads fs f d) (hw : IsName w)
    (hleaf : ∀ t, fs.at (w :: d) ≠ some (.link t)) :
    (resolveLink (f.join ⟨w⟩)).run fs = (f.join ⟨w⟩, fs) :=
  resolveLink_run (linkStatus_join h hw hleaf)

theorem directoryOf_join (hf : f.isAbsolute = true) (ht : f.Tidy) (hw : IsName w) :
    directoryOf (f.join ⟨w⟩) = pure f := by
  simp only [directoryOf, parent?_join_name ht hw, bytes_ne_nil_of_isAbsolute hf, if_false, hf,
    if_true]

theorem makePath_too_long (hf : f.bytes ≠ []) (hlong : longestPath ≤ f.bytes.length) :
    Meets (makePath f).run fs (· = fs) fun r fs' => fs' = fs ∧ ∃ e, r = .error e := by
  have happroach : fs.approach f = .error .nameTooLong := by
    rw [FileSystem.approach, if_neg hf, if_pos hlong]
  have hfind : fs.find ⟨true, true⟩ f = .error .nameTooLong := by
    rw [FileSystem.find, if_neg hf, if_pos hlong]
  have hmake : ∃ e : OsError, fs.makeDirectory f = .error e ∧ e.isNotFound = false := by
    cases hz : f.hasNul with
    | true => exact ⟨.nulByte, by simp [FileSystem.makeDirectory, FileSystem.named, hz], rfl⟩
    | false =>
      refine ⟨.errno .nameTooLong, ?_, by decide⟩
      rw [FileSystem.makeDirectory, named_of_noNul hz, happroach]
      rfl
  have hstatus : ∃ e : OsError, fs.status f = .error e := by
    cases hz : f.hasNul with
    | true => exact ⟨.nulByte, by simp [FileSystem.status, FileSystem.named, hz]⟩
    | false => exact ⟨_, by rw [FileSystem.status, named_of_noNul hz, FileSystem.entryAt, hfind]; rfl⟩
  obtain ⟨e, hmake, he⟩ := hmake
  obtain ⟨e', hstatus⟩ := hstatus
  have hperform : Call.perform fs (.makeDirectory f) = (.error e, fs) := by
    simp [Call.perform, hmake]
  have hlook : (isDirectory f).run fs = (false, fs) := by
    simp only [isDirectory, run_bind, run_ask, Call.perform, hstatus]
    rfl
  simp only [makePath, makeDirectories, hf, if_false]
  refine Meets.bind (Meets.ask hperform rfl rfl) ?_
  rintro _ fs' rfl ⟨rfl, -⟩
  simp only [he, Bool.false_eq_true, if_false]
  refine Meets.bind ((looks_isDirectory f).meets (P := (· = fs')) rfl) ?_
  rintro _ _ rfl ⟨-, rfl⟩
  rw [hlook]
  exact Meets.pure rfl ⟨rfl, e, rfl⟩

theorem ensureParent_meets (h : Leads fs f d) (hw : IsName w) :
    Meets (ensureParent (f.join ⟨w⟩)).run fs (· = fs) fun r fs' =>
      fs' = fs ∧ (f.bytes.length < longestPath → r = .ok ()) := by
  have hne : f.bytes ≠ [] := bytes_ne_nil_of_isAbsolute h.absolute
  simp only [ensureParent, parent?_join_name h.tidy hw, hne, if_false]
  refine meets_andThen (meets_lift ((looks_present f).meets rfl)) ?_ ?_
  · rintro b fs' rfl ⟨_, hb, -, rfl⟩
    obtain rfl : b = _ := by simpa using hb
    rw [Files.present_run]
    by_cases hfits : f.bytes.length < longestPath
    · obtain ⟨kind, hkind⟩ := h.linkStatus hfits
      rw [hkind]
      exact Meets.pure rfl ⟨rfl, fun _ => rfl⟩
    · split
      · exact Meets.pure rfl ⟨rfl, fun hc => absurd hc hfits⟩
      · exact (makePath_too_long hne (Nat.not_lt.1 hfits)).mono (fun _ h => h)
          fun r fs' _ hr => ⟨hr.1, fun hc => absurd hc hfits⟩
  · rintro e fs' rfl ⟨b, hb, -⟩
    cases hb

/-! ### Writing -/

def Littered (fs : FileSystem) (d : Location) (fs' : FileSystem) : Prop :=
  ∃ k o, fs.at (temporaryName k :: d) = none ∧ (∀ e ∈ o, ∃ c, e = .file 0o600 c) ∧
    Edit fs (temporaryName k :: d) o fs'

/-- A directory while a file in it is written. Once the file is there, nothing keeps it from being
written. -/
def Writing (fs : FileSystem) (f : Path) (d : Location) (w content : Bytes) (fs' : FileSystem) : Prop :=
  Littered fs d fs' ∨
    Edit fs (w :: d) (some (.file 0o600 content)) fs' ∧ Room fs f d ∧ Aims fs f d w

theorem Littered.refl (hs : fs.Sound) (d : Location) : Littered fs d fs := by
  obtain ⟨k, hk, hfree⟩ := fs.nextTemporary_spec d
  rw [hk] at hfree
  exact ⟨k, none, hfree, by simp, hfree ▸ Edit.refl hs _⟩

def MadeTemporary (fs : FileSystem) (f : Path) (d : Location) (r : Except OsError Path)
    (fs' : FileSystem) : Prop :=
  (∃ k, r = .ok (f.join ⟨temporaryName k⟩) ∧ fs.nextTemporary d = temporaryName k ∧
    fs.at (temporaryName k :: d) = none ∧ fs.yields d = true ∧
    Edit fs (temporaryName k :: d) (some (.file 0o600 [])) fs' ∧
    (Room fs f d → Aims fs f d (temporaryName k))) ∨
  (∃ e, r = .error e) ∧ fs' = fs ∧ ¬Room fs f d

theorem makeTemporary_meets (hs : fs.Sound) (h : Leads fs f d) :
    Meets (makeTemporary f).run fs (Littered fs d) (MadeTemporary fs f d) := by
  have hstart := Littered.refl hs d
  by_cases hroom : Room fs f d
  · obtain ⟨k, hk, hfree⟩ := fs.nextTemporary_spec d
    rw [hk] at hfree
    have hmake := h.makeTemporary hroom
    rw [hk] at hmake
    have hedit : Edit fs (temporaryName k :: d) (some (.file 0o600 []))
        (fs.insert (temporaryName k :: d) (.file 0o600 [])) :=
      Edit.insert hs h.directory (.inr fun m => by simp [hfree])
    have hlitter : Littered fs d (fs.insert (temporaryName k :: d) (.file 0o600 [])) :=
      ⟨k, _, hfree, fun e he => ⟨[], by simpa using he.symm⟩, hedit⟩
    have hperform : Call.perform fs (.makeTemporary f) =
        (.ok (f.join ⟨temporaryName k⟩), fs.insert (temporaryName k :: d) (.file 0o600 [])) := by
      simp only [Call.perform, hmake]
    refine Meets.bind (Meets.ask hperform hstart hlitter) ?_
    rintro _ _ - ⟨rfl, rfl⟩
    exact Meets.pure hlitter
      (.inl ⟨k, rfl, hk, hfree, hroom.yields, hedit, fun hr => hk ▸ h.aims_temporary hr⟩)
  · obtain ⟨err, hmake⟩ := h.makeTemporary_error hroom
    have hperform : Call.perform fs (.makeTemporary f) = (.error (.errno err), fs) := by
      simp only [Call.perform, hmake]
    refine Meets.bind (Meets.ask hperform hstart hstart) ?_
    rintro _ _ - ⟨rfl, rfl⟩
    exact Meets.pure hstart (.inr ⟨⟨_, rfl⟩, rfl, hroom⟩)

def Installed (fs : FileSystem) (f : Path) (d : Location) (w content : Bytes) (k : Nat)
    (r : Except OsError Unit) (fs' : FileSystem) : Prop :=
  r = .ok () ∧ Edit fs (w :: d) (some (.file 0o600 content)) fs' ∧
      Aims fs f d (temporaryName k) ∧ Aims fs f d w ∨
    (∃ e, r = .error e) ∧ (∃ c, Edit fs (temporaryName k :: d) (some (.file 0o600 c)) fs') ∧
      ¬(Aims fs f d (temporaryName k) ∧ Aims fs f d w ∧ ∀ m, fs.at (w :: d) ≠ some (.directory m))

/-- The content of a new file is put in place of another file, or stays in the new file. -/
theorem install_meets {k : Nat} (hs : fs.Sound) (h : Leads fs f d) (hw : IsName w)
    (hnew : fs.at (temporaryName k :: d) = none) (hy : fs.yields d = true)
    (hedit : Edit fs (temporaryName k :: d) (some (.file 0o600 [])) fs') :
    Meets (install (f.join ⟨temporaryName k⟩) (f.join ⟨w⟩) content).run fs'
      (fun fs' => Littered fs d fs' ∨ Edit fs (w :: d) (some (.file 0o600 content)) fs' ∧
        Aims fs f d (temporaryName k) ∧ Aims fs f d w)
      (Installed fs f d w content k) := by
  have hstage : ∀ {fs''} c, Edit fs (temporaryName k :: d) (some (.file 0o600 c)) fs'' →
      Littered fs d fs'' ∨ Edit fs (w :: d) (some (.file 0o600 content)) fs'' ∧
        Aims fs f d (temporaryName k) ∧ Aims fs f d w :=
    fun c he => .inl ⟨k, _, hnew, fun e h => ⟨c, by simpa using h.symm⟩, he⟩
  have hlead' : Leads fs' f d := h.beside hs hnew hedit
  have hself := hedit.at_self
  refine meets_andThen (Q := fun r fs'' =>
    r = .ok () ∧ Edit fs (temporaryName k :: d) (some (.file 0o600 content)) fs'' ∧
        Aims fs f d (temporaryName k) ∨
      (∃ e, r = .error e) ∧ fs'' = fs' ∧ ¬Aims fs f d (temporaryName k)) ?_ ?_ ?_
  · change Meets (Script.ask (.fill _ _)) fs' _ _
    rcases hlead'.aims_or_dead (isName_temporaryName k) with ha | hdead
    · have hfill := ha.fill hself content
      have hedit' := hedit.trans (Edit.insert hedit.sound hlead'.directory
        (.inr fun m => by simp [hself]) (e := .file 0o600 content))
      refine (Meets.ask (by rw [Call.perform, hfill]; rfl) (hstage _ hedit)
        (hstage _ hedit')).mono (fun _ h => h) ?_
      rintro _ _ - ⟨rfl, rfl⟩
      exact .inl ⟨rfl, hedit', ha.of_leads h⟩
    · obtain ⟨err, hfill, -⟩ := hdead.fill content
      refine (Meets.ask (by rw [Call.perform, hfill]; rfl) (hstage _ hedit)
        (hstage _ hedit)).mono (fun _ h => h) ?_
      rintro _ _ - ⟨rfl, rfl⟩
      refine .inr ⟨⟨err, rfl⟩, rfl, fun hc => ?_⟩
      exact (hc.of_leads hlead').not_dead hdead
  · rintro u fs₂ hP (⟨-, hedit₂, ht⟩ | ⟨⟨e, he⟩, -⟩)
    · have hlead₂ : Leads fs₂ f d := h.beside hs hnew hedit₂
      have hkept : ∀ e, ¬Aims fs f d w ∨ (∃ m, fs.at (w :: d) = some (.directory m)) →
          Installed fs f d w content k (.error e) fs₂ := by
        intro e hbad
        refine .inr ⟨⟨e, rfl⟩, ⟨content, hedit₂⟩, ?_⟩
        rintro ⟨-, hw, hdir⟩
        rcases hbad with hbad | ⟨m, hm⟩
        · exact hbad hw
        · exact hdir m hm
      by_cases hz : (f.join ⟨w⟩).hasNul = true
      · simp only [hz, if_true]
        exact Meets.pure hP (hkept _ (.inl fun hw => by simp [hw.hasNul] at hz))
      simp only [hz]
      change Meets (Script.ask (.rename _ _)) fs₂ _ _
      rcases hlead₂.aims_or_dead hw with ha | hdead
      · rcases hedit₂.rename_eq hs hnew hy (ht.of_leads hlead₂) ha with
          ⟨-, fs₃, hren, hedit₃⟩ | ⟨hdir, err, hren⟩
        · have haims := ha.of_leads h
          refine (Meets.ask (by rw [Call.perform, hren]; rfl) hP
            (.inr ⟨hedit₃, ht, haims⟩)).mono (fun _ h => h) ?_
          rintro _ _ - ⟨rfl, rfl⟩
          exact .inl ⟨rfl, hedit₃, ht, haims⟩
        · refine (Meets.ask (by rw [Call.perform, hren]; rfl) hP hP).mono (fun _ h => h) ?_
          rintro _ _ - ⟨rfl, rfl⟩
          exact hkept _ (.inr hdir)
      · obtain ⟨err, hren⟩ := hdead.rename_target (p := f.join ⟨temporaryName k⟩)
        refine (Meets.ask (by rw [Call.perform, hren]; rfl) hP hP).mono (fun _ h => h) ?_
        rintro _ _ - ⟨rfl, rfl⟩
        exact hkept _ (.inl fun hw => (hw.of_leads hlead₂).not_dead hdead)
    · cases he
  · rintro e fs₂ hP (⟨he, -⟩ | ⟨-, rfl, hnot⟩)
    · cases he
    · exact .inr ⟨⟨e, rfl⟩, ⟨[], hedit⟩, fun hc => hnot hc.1⟩

/-- A temporary file that was not put in place is taken away, if it can be. -/
theorem discard_meets {k : Nat} {c : Bytes} (hs : fs.Sound) (h : Leads fs f d)
    (hnew : fs.at (temporaryName k :: d) = none)
    (hedit : Edit fs (temporaryName k :: d) (some (.file 0o600 c)) fs') :
    Meets (Script.ask (.removeFile (f.join ⟨temporaryName k⟩))) fs' (Littered fs d)
      fun _ fs'' => Littered fs d fs'' := by
  have hstay : Littered fs d fs' := ⟨k, _, hnew, fun e he => ⟨c, by simpa using he.symm⟩, hedit⟩
  have hgone : Littered fs d (fs'.erase (temporaryName k :: d)) :=
    ⟨k, none, hnew, by simp,
      hedit.trans (Edit.erase hedit.sound (hedit.sound.none_in fun m => by simp [hedit.at_self]))⟩
  have hresult : ∃ r, Call.perform fs' (.removeFile (f.join ⟨temporaryName k⟩)) = (r, fs') ∨
      Call.perform fs' (.removeFile (f.join ⟨temporaryName k⟩)) =
        (r, fs'.erase (temporaryName k :: d)) := by
    simp only [Call.perform]
    rcases (h.beside hs hnew hedit).aims_or_dead (isName_temporaryName k) with ha | hdead
    · rw [ha.removeFile, hedit.at_self]
      by_cases hy : fs'.yields d = true
      · exact ⟨.ok (), .inr (by simp [hy, Entry.isDirectory])⟩
      · exact ⟨.error (.errno .denied), .inl (by simp [hy])⟩
    · obtain ⟨err, he, -⟩ := hdead.removeFile
      exact ⟨.error err, .inl (by rw [he]; rfl)⟩
  obtain ⟨r, hr | hr⟩ := hresult
  · refine (Meets.ask hr hstay hstay).mono (fun _ h => h) ?_
    rintro _ _ h -
    exact h
  · refine (Meets.ask hr hstay hgone).mono (fun _ h => h) ?_
    rintro _ _ h -
    exact h

def Wrote (fs : FileSystem) (f : Path) (d : Location) (w content : Bytes) (r : Except OsError Unit)
    (fs' : FileSystem) : Prop :=
  r = .ok () ∧ Edit fs (w :: d) (some (.file 0o600 content)) fs' ∧ Room fs f d ∧ Aims fs f d w ∨
    (∃ e, r = .error e) ∧ Littered fs d fs' ∧
      ¬(Room fs f d ∧ Aims fs f d w ∧ ∀ m, fs.at (w :: d) ≠ some (.directory m))

/-- A file whose path is not seen as a link is written whole or not at all, at any stage. -/
theorem writeAtomic_direct (hs : fs.Sound) (h : Leads fs f d) (hw : IsName w)
    (hlink : ∀ kind, fs.linkStatus (f.join ⟨w⟩) = .ok kind → kind ≠ .link) :
    Meets (writeAtomic (f.join ⟨w⟩) content).run fs (Writing fs f d w content)
      (Wrote fs f d w content) := by
  have hstart : Writing fs f d w content fs := .inl (Littered.refl hs d)
  have hfailed : ∀ e, ¬(Room fs f d ∧ Aims fs f d w) → Wrote fs f d w content (.error e) fs :=
    fun e hbad => .inr ⟨⟨e, rfl⟩, Littered.refl hs d, fun hc => hbad ⟨hc.1, hc.2.1⟩⟩
  refine meets_andThen (meets_lift ((looks_resolveLink _).meets hstart)) ?_
    (by rintro e fs' - ⟨_, he, -⟩; cases he)
  rintro target _ - ⟨_, ht, hfs, rfl⟩
  rw [resolveLink_run hlink] at ht
  obtain rfl := Except.ok.inj ht
  subst hfs
  refine meets_andThen ((ensureParent_meets h hw).mono (fun _ h => h ▸ hstart)
    fun _ _ _ h => h) ?_ ?_
  · rintro _ fs' - ⟨hfs, -⟩
    subst hfs
    rw [directoryOf_join h.absolute h.tidy hw]
    refine meets_andThen (meets_lift (Meets.pure (Q := fun a g => a = f ∧ g = fs') hstart
      ⟨rfl, rfl⟩)) ?_ (by rintro e fs' - ⟨_, he, -⟩; cases he)
    rintro _ _ - ⟨_, ha, rfl, hfs⟩
    obtain rfl := Except.ok.inj ha
    subst hfs
    refine meets_andThen ((makeTemporary_meets hs h).mono (fun _ => .inl) fun _ _ _ h => h)
      ?_ ?_
    · intro a fs₁ _ hmade
      rcases hmade with ⟨k, hk, hnext, hfree, hy, hedit, hroom⟩ | ⟨⟨e, he⟩, -⟩
      · have hk := Except.ok.inj hk
        rw [hk]
        refine ((install_meets hs h hw hfree hy hedit).mono (fun _ => Or.imp_right fun hc =>
          ⟨hc.1, ⟨hy, hnext ▸ hc.2.1.short, hnext ▸ hc.2.1.fits⟩, hc.2.2⟩) fun _ _ _ h => h).bind ?_
        rintro _ fs₂ hP (⟨rfl, hdone, ht, ha⟩ | ⟨⟨e, rfl⟩, ⟨c, hleft⟩, hbad⟩)
        · exact Meets.pure hP (.inl ⟨rfl, hdone, ⟨hy, hnext ▸ ht.short, hnext ▸ ht.fits⟩, ha⟩)
        · refine ((discard_meets hs h hfree hleft).mono (fun _ => .inl) fun _ _ _ h => h).bind ?_
          rintro r fs₃ hP hlitter
          exact Meets.pure hP (.inr ⟨⟨e, rfl⟩, hlitter, fun hc => hbad ⟨hroom hc.1, hc.2⟩⟩)
      · cases he
    · rintro e _ - (⟨k, hk, -⟩ | ⟨-, rfl, hroom⟩)
      · cases hk
      · exact hfailed e fun hc => hroom hc.1
  · rintro e fs' - ⟨hfs, hfits⟩
    subst hfs
    refine hfailed e fun hc => ?_
    have := hfits (Nat.lt_trans (lt_length_join_name f hw) hc.2.fits)
    cases this

/-- A file in a directory is written whole or not at all, at any stage. -/
theorem writeAtomic_meets (hs : fs.Sound) (h : Leads fs f d) (hw : IsName w)
    (hleaf : ∀ t, fs.at (w :: d) ≠ some (.link t)) :
    Meets (writeAtomic (f.join ⟨w⟩) content).run fs (Writing fs f d w content)
      (Wrote fs f d w content) :=
  writeAtomic_direct hs h hw (linkStatus_join h hw hleaf)

theorem writeAtomic_run (hs : fs.Sound) (h : Leads fs f d) (ha : Aims fs f d w) (hr : Room fs f d)
    (hleaf : fs.at (w :: d) = none ∨ ∃ m c, fs.at (w :: d) = some (.file m c)) (content : Bytes) :
    ∃ fs', (writeAtomic (f.join ⟨w⟩) content).run.run fs = (.ok (), fs') ∧
      Edit fs (w :: d) (some (.file 0o600 content)) fs' := by
  have hlink : ∀ t, fs.at (w :: d) ≠ some (.link t) := by
    rcases hleaf with h | ⟨m, c, h⟩ <;> simp [h]
  have hdir : ∀ m, fs.at (w :: d) ≠ some (.directory m) := by
    rcases hleaf with h | ⟨m, c, h⟩ <;> simp [h]
  have hmeets : Meets (writeAtomic (f.join ⟨w⟩) content).run fs _ _ :=
    writeAtomic_meets hs h ha.name hlink
  rcases hmeets.result with ⟨hok, hedit, -⟩ | ⟨-, -, hbad⟩
  · exact ⟨_, Prod.ext hok rfl, hedit⟩
  · exact absurd ⟨hr, ha, hdir⟩ hbad

/-! ### Removing -/

def Removed (fs : FileSystem) (d : Location) (w : Bytes) (r : Except OsError Bool)
    (fs' : FileSystem) : Prop :=
  r = .ok true ∧ Edit fs (w :: d) none fs' ∨
    r = .ok false ∧ fs' = fs ∧ fs.at (w :: d) = none ∨ (∃ e, r = .error e) ∧ fs' = fs

theorem removeIfPresent_eq (p : Path) (fs : FileSystem) :
    (removeIfPresent p).run.run fs =
      match fs.removeFile p with
      | .ok fs' => (.ok true, fs')
      | .error e => (if e.isNotFound then .ok false else .error e, fs) := by
  simp only [removeIfPresent, attempt, ExceptT.run_mk, run_bind, run_ask, Call.perform]
  cases fs.removeFile p with
  | ok fs' => rfl
  | error e => simp only [change_error]; split <;> rfl

/-- A removal is a single call. -/
theorem stages_removeIfPresent (p : Path) (fs : FileSystem) :
    ∀ k ∈ (removeIfPresent p).run.stages fs, k = fs ∨ k = ((removeIfPresent p).run.run fs).2 := by
  intro k hk
  rcases (mem_stages_bind _ _ _ _).1 hk with hk | hk
  · rcases List.mem_cons.1 hk with rfl | hk
    · exact .inl rfl
    · right
      rw [List.mem_singleton.1 hk]
      simp only [removeIfPresent, attempt, ExceptT.run_mk, run_bind, run_ask]
      cases (Call.perform fs (.removeFile p)).1 with
      | ok u => rfl
      | error e => dsimp only; split <;> rfl
  · right
    rw [removeIfPresent, attempt, ExceptT.run_mk, run_bind]
    generalize (Script.ask (.removeFile p)).run fs = out at hk ⊢
    obtain ⟨r, fs'⟩ := out
    cases r with
    | ok u => exact List.mem_singleton.1 hk
    | error e =>
      dsimp only at hk ⊢
      split at hk
      · next hnf => rw [if_pos hnf]; exact List.mem_singleton.1 hk
      · next hnf => rw [if_neg hnf]; exact List.mem_singleton.1 hk

theorem removeIfPresent_meets (hs : fs.Sound) (h : Leads fs f d) (hw : IsName w) :
    Meets (removeIfPresent (f.join ⟨w⟩)).run fs (fun fs' => fs' = fs ∨ Edit fs (w :: d) none fs')
      (Removed fs d w) := by
  have hstay : fs = fs ∨ Edit fs (w :: d) none fs := .inl rfl
  have hfailed : ∀ e, fs.removeFile (f.join ⟨w⟩) = .error e →
      (e.isNotFound = true → fs.at (w :: d) = none) →
      Meets (removeIfPresent (f.join ⟨w⟩)).run fs (fun fs' => fs' = fs ∨ Edit fs (w :: d) none fs')
        (Removed fs d w) := by
    intro e he hnone
    have hperform : Call.perform fs (.removeFile (f.join ⟨w⟩)) = (.error e, fs) := by
      simp only [Call.perform, he, change_error]
    refine Meets.bind (Meets.ask hperform hstay hstay) ?_
    rintro _ _ - ⟨rfl, rfl⟩
    by_cases hnf : e.isNotFound = true
    · simp only [hnf, if_true]
      exact Meets.pure hstay (.inr (.inl ⟨rfl, rfl, hnone hnf⟩))
    · simp only [hnf]
      exact Meets.pure hstay (.inr (.inr ⟨⟨e, rfl⟩, rfl⟩))
  rcases h.aims_or_dead hw with ha | hdead
  · have hremove := ha.removeFile
    cases hx : fs.at (w :: d) with
    | none => exact hfailed _ (by simpa [hx] using hremove) fun _ => hx
    | some e =>
      simp only [hx] at hremove
      by_cases hy : fs.yields d = true
      · by_cases hd : e.isDirectory = true
        · exact hfailed _ (by simpa [hy, hd] using hremove) fun hc => absurd hc (by decide)
        · have hleaf : ∀ m, fs.at (w :: d) ≠ some (.directory m) := by
            rintro m hm
            obtain rfl : e = .directory m := by simpa [hx] using hm
            exact hd rfl
          have hedit : Edit fs (w :: d) none (fs.erase (w :: d)) :=
            Edit.erase hs (hs.none_in hleaf)
          have hperform : Call.perform fs (.removeFile (f.join ⟨w⟩)) =
              (.ok (), fs.erase (w :: d)) := by
            simp only [Call.perform, hremove, hy, hd]; rfl
          refine Meets.bind (Meets.ask hperform hstay (.inr hedit)) ?_
          rintro _ _ - ⟨rfl, rfl⟩
          exact Meets.pure (.inr hedit) (.inl ⟨rfl, hedit⟩)
      · exact hfailed _ (by simpa [hy] using hremove) fun hc => absurd hc (by decide)
  · obtain ⟨e, he, hnf⟩ := hdead.removeFile
    exact hfailed e he fun hc => by simp [hnf] at hc

theorem removeIfPresent_run {e : Entry} (ha : Aims fs f d w) (hx : fs.at (w :: d) = some e)
    (he : e.isDirectory = false) (hy : fs.yields d = true) :
    (removeIfPresent (f.join ⟨w⟩)).run.run fs = (.ok true, fs.erase (w :: d)) := by
  have hremove : fs.removeFile (f.join ⟨w⟩) = .ok (fs.erase (w :: d)) := by
    simp [ha.removeFile, hx, he, hy]
  simp only [removeIfPresent, attempt, ExceptT.run_mk, run_bind, run_ask, Call.perform, hremove,
    change_ok, run_pure]

/-! ### Taking a copy of what is there -/

theorem snapshot_file {m : Nat} {previous : Option Bytes} (ha : Aims fs f d w)
    (hx : fs.at (w :: d) = some (.file m content))
    (h : ((snapshot (f.join ⟨w⟩)).run.run fs).1 = .ok previous) : previous = some content := by
  have hstatus : fs.status (f.join ⟨w⟩) = .ok .file := by
    rw [ha.status (by simp [hx]), hx]; rfl
  have hread := ha.read (by simp [hx])
  simp only [hx] at hread
  simp only [snapshot, attempt, ExceptT.run_mk, run_bind, run_ask, Call.perform, hstatus] at h
  by_cases hr : (Entry.file m content).isReadable = true
  · simp only [hr, if_true] at hread
    simpa [hread] using h.symm
  · simp [hread, hr] at h

theorem snapshot_none {previous : Option Bytes} (ha : Aims fs f d w) (hx : fs.at (w :: d) = none)
    (h : ((snapshot (f.join ⟨w⟩)).run.run fs).1 = .ok previous) : previous = none := by
  have hstatus : fs.status (f.join ⟨w⟩) = .error (.errno .noEntry) := by
    rw [ha.status (by simp [hx]), hx]
  have hnf : (OsError.errno Errno.noEntry).isNotFound = true := by decide
  simp only [snapshot, attempt, ExceptT.run_mk, run_bind, run_ask, Call.perform, hstatus, hnf,
    if_true] at h
  simpa using h.symm

end Retrace.Files
