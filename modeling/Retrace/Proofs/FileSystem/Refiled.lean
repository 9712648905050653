import Retrace.Proofs.FileSystem.Growth

/-!
Trees that differ in files only (`Refiled`). No way goes through a file, so a path leads to the same
directory in both (`Refiled.leads`), an operation gets to the same name at its end
(`Refiled.approach`), and a file is read the same where it is the same (`Refiled.read_iff`). Trees that
have more directories (`Widened`).
-/
namespace Retrace

open Retrace.Path (IsName dot)

def Path.NamesFile (p : Path) : Prop :=
  ∃ (f : Path) (w : Bytes), f.isAbsolute = true ∧ f.Tidy ∧ IsName w ∧ p = f.join ⟨w⟩

theorem Path.NamesFile.isAbsolute {p : Path} (h : p.NamesFile) : p.isAbsolute = true := by
  obtain ⟨f, w, hf, -, hw, rfl⟩ := h
  exact isAbsolute_join_name hf hw

namespace FileSystem

variable {fs fs' fs'' : FileSystem} {n m : Nat} {here d l : Location} {w : Bytes} {xs : List Bytes}
  {s follow : Bool} {p f : Path} {a : Approach} {o : Option Entry} {r : Found} {manner : Manner}

/-- Where one of two trees has a directory or a link, the other one has the same. -/
structure Refiled (fs fs' : FileSystem) : Prop where
  sound : fs'.Sound
  at_eq : ∀ k e, fs.at k = some e ∨ fs'.at k = some e → e.kind ≠ .file → fs'.at k = fs.at k

theorem Refiled.symm (h : Refiled fs fs') (hs : fs.Sound) : Refiled fs' fs :=
  ⟨hs, fun k e he hk => (h.at_eq k e he.symm hk).symm⟩

theorem Edit.refiled (h : Edit fs l o fs') (hl : ∀ e ∈ fs.at l, e.kind = .file)
    (ho : ∀ e ∈ o, e.kind = .file) : Refiled fs fs' where
  sound := h.sound
  at_eq k e he hk := by
    by_cases hkl : k = l
    · subst hkl
      rcases he with he | he
      · exact absurd (hl e he) hk
      · exact absurd (ho e (h.at_self ▸ he)) hk
    · exact h.at_of_ne hkl

theorem Refiled.link_iff {t : Path} (h : Refiled fs fs') :
    fs'.at l = some (.link t) ↔ fs.at l = some (.link t) := by
  have hkind : (Entry.link t).kind ≠ .file := by simp [Entry.kind]
  exact ⟨fun he => (h.at_eq l _ (.inr he) hkind).symm.trans he, fun he => (h.at_eq l _ (.inl he) hkind).trans he⟩

theorem Refiled.directory (h : Refiled fs fs') (hd : fs.at d = some (.directory m)) :
    fs'.at d = some (.directory m) :=
  (h.at_eq d _ (.inl hd) (by simp [Entry.kind])).trans hd

theorem Refiled.walk (h : Refiled fs fs') (hs : fs.Sound)
    (hwalk : fs.walk ⟨true, true⟩ n [] xs = .ok (.entry d (.directory m) s)) :
    fs'.walk ⟨true, true⟩ n [] xs = .ok (.entry d (.directory m) s) := by
  have hwalks := walks_of_walk hwalk
  refine hwalks.congr hs rfl ⟨_, at_nil fs⟩ fun k hk _ => ?_
  obtain ⟨x, hx, hfile⟩ := hwalks.occupied hs rfl ⟨_, at_nil fs⟩ rfl k hk
  refine h.at_eq k x (.inl hx) fun hkind => ?_
  rw [hfile hkind] at hkind
  cases hkind

theorem Refiled.admits (h : Refiled fs fs') (hd : ∃ m, fs.at d = some (.directory m)) :
    fs'.admits d = fs.admits d := by
  obtain ⟨m, hm⟩ := hd
  rw [FileSystem.admits, FileSystem.admits, hm, h.directory hm]

theorem Refiled.looked (h : Refiled fs fs') (hd : ∃ m, fs.at d = some (.directory m))
    (hw : Looked fs d w) : Looked fs' d w :=
  { hw with admits := (h.admits hd).trans hw.admits }

theorem Walks.refiled {m' : Nat} {c c' : Bytes} (h : Walks fs manner n here xs r) (hfs : Refiled fs fs')
    (hs : fs.Sound) (hd : ∃ m, fs.at here = some (.directory m)) (hr : r = .entry l (.file m c) s)
    (hl : fs'.at l = some (.file m' c')) : Walks fs' manner n here xs (.entry l (.file m' c') s) := by
  induction h with
  | arrive hx =>
    obtain ⟨k, hk⟩ := hd
    rw [hk, (Found.entry.inj hr).2.1] at hx
    cases hx
  | blank _ ih => exact .blank (ih hd hr)
  | stay ha _ ih => exact .stay (fun hm => (hfs.admits hd).trans (ha hm)) (ih hd hr)
  | up ha _ ih => exact .up (fun hm => (hfs.admits hd).trans (ha hm)) (ih (hs.drop hd) hr)
  | vacant => cases hr
  | down hw hx _ ih => exact .down (hfs.looked hd hw) (hfs.directory hx) (ih ⟨_, hx⟩ hr)
  | file hw hx hlast =>
    obtain ⟨rfl, -, rfl⟩ := Found.entry.inj hr
    exact .file (hfs.looked hd hw) hl hlast
  | link => cases hr
  | follow hw hx hf _ ih => exact .follow (hfs.looked hd hw) (hfs.link_iff.2 hx) hf (ih (directory_start hd) hr)

/-- A path that leads to a file leads to the file that is there instead. -/
theorem Refiled.entryAt {m' : Nat} {c c' : Bytes} (h : Refiled fs fs') (hs : fs.Sound)
    (hp : p.isAbsolute = true) (hentry : fs.entryAt true p = .ok (l, .file m c))
    (hl : fs'.at l = some (.file m' c')) : fs'.entryAt true p = .ok (l, .file m' c') := by
  obtain ⟨r, hr, hreached⟩ := exists_of_bind hentry
  cases r with
  | vacant => cases hreached
  | entry k x s =>
    rw [Found.reached] at hreached
    split at hreached
    · cases hreached
    next hslash =>
    obtain ⟨rfl, rfl⟩ := Prod.mk.inj (Except.ok.inj hreached)
    rw [find] at hr
    split at hr
    · cases hr
    next hne =>
    split at hr
    · cases hr
    next hfits =>
    rw [start_of_isAbsolute hp] at hr
    rw [FileSystem.entryAt, find, if_neg hne, if_neg hfits, start_of_isAbsolute hp,
      ((walks_of_walk hr).refiled h hs ⟨_, at_nil fs⟩ rfl hl).walk]
    exact if_neg hslash

theorem Refiled.leads (h : Refiled fs fs') (hs : fs.Sound) (hlead : Leads fs f d) : Leads fs' f d where
  absolute := hlead.absolute
  noNul := hlead.noNul
  tidy := hlead.tidy
  walk := by
    obtain ⟨m, s, hwalk⟩ := hlead.walk
    exact ⟨m, s, h.walk hs hwalk⟩

theorem Refiled.leads_iff (h : Refiled fs fs') (hs : fs.Sound) : Leads fs' f d ↔ Leads fs f d :=
  ⟨(h.symm hs).leads h.sound, h.leads hs⟩

theorem Refiled.approach (h : Refiled fs fs') (hs : fs.Sound) (hp : p.isAbsolute = true)
    (ha : fs.approach p = .ok a) : fs'.approach p = .ok a := by
  rw [FileSystem.approach] at ha ⊢
  split at ha
  · cases ha
  next hne =>
  split at ha
  · cases ha
  next hfits =>
  rw [if_neg hne, if_neg hfits]
  dsimp only at ha ⊢
  split at ha
  · exact ha
  · rw [start_of_isAbsolute hp] at ha ⊢
    obtain ⟨r, hr, ha⟩ := exists_of_bind ha
    cases r with
    | vacant => cases ha
    | entry k e s =>
      -- the walk stops at a dot, so it ends at a directory
      have hdir := ((walks_of_walk hr).ends hs ⟨_, at_nil fs⟩).2 (.inr (by simp))
      cases e with
      | directory m =>
        rw [h.walk hs hr]
        exact ha
      | _ => cases hdir

theorem Refiled.spot? (h : Refiled fs fs') (hs : fs.Sound) (hp : p.isAbsolute = true) :
    fs'.spot? p = fs.spot? p := by
  have hle : ∀ {g g' : FileSystem}, Refiled g g' → g.Sound → ∀ l, g.spot? p = some l → g'.spot? p = some l := by
    intro g g' hg hsound l hl
    obtain ⟨a, ha, hal⟩ := approach_of_spot? hl
    rw [FileSystem.spot?, hg.approach hsound hp ha]
    exact hal
  cases hl : fs.spot? p with
  | some l => exact hle h hs l hl
  | none =>
    by_contra hne
    obtain ⟨l, hl'⟩ := Option.ne_none_iff_exists'.1 hne
    rw [hle (h.symm hs) h.sound l hl'] at hl
    cases hl

/-! ### Names that are found -/

theorem linkStatus_of_none (hs : fs.Sound) (hp : p.NamesFile)
    (h : ∀ l, fs.spot? p = some l → fs.at l = none) : (fs.linkStatus p).isOk = false := by
  obtain ⟨f, w, hf, ht, hw, rfl⟩ := hp
  cases hnul : (f.join ⟨w⟩).hasNul with
  | true => simp [linkStatus, named, hnul, Except.isOk, Except.toBool]
  | false =>
    cases hr : fs.find ⟨false, true⟩ (f.join ⟨w⟩) with
    | error e =>
      rw [linkStatus, named_of_noNul hnul, entryAt, hr]
      rfl
    | ok r =>
      obtain ⟨d, ha⟩ := aims_of_find hs hf ht hw hnul hr
      rw [ha.linkStatus, h _ ha.spot?]
      rfl

theorem aims_of_read {c : Bytes} (hs : fs.Sound) (hf : f.isAbsolute = true) (ht : f.Tidy)
    (hw : IsName w) (h : fs.read (f.join ⟨w⟩) = .ok c) : ∃ d, Aims fs f d w := by
  obtain ⟨x, hx, -⟩ := exists_of_bind (eq_ok_of_named h)
  obtain ⟨r, hr, -⟩ := exists_of_bind hx
  exact aims_of_find hs hf ht hw (noNul_of_named h) hr

/-- A file is read the same where the same stands at its place. -/
theorem Refiled.read_iff {c : Bytes} (h : Refiled fs fs') (hs : fs.Sound) (hp : p.NamesFile)
    (hlink : ∀ l t, fs.spot? p = some l → fs.at l ≠ some (.link t))
    (hsame : ∀ l, fs.spot? p = some l → fs'.at l = fs.at l) :
    fs'.read p = .ok c ↔ fs.read p = .ok c := by
  obtain ⟨f, w, hf, ht, hw, rfl⟩ := hp
  have hread : ∀ d, Aims fs f d w → (fs'.read (f.join ⟨w⟩) = .ok c ↔ fs.read (f.join ⟨w⟩) = .ok c) := by
    intro d ha
    have ha' := ha.of_leads (h.leads hs ha.toLeads)
    have hsame' := hsame _ ha.spot?
    rw [ha.read fun t => hlink _ t ha.spot?, ha'.read fun t => by rw [hsame']; exact hlink _ t ha.spot?,
      hsame']
  refine ⟨fun hc => ?_, fun hc => ?_⟩
  · obtain ⟨d, ha'⟩ := aims_of_read h.sound hf ht hw hc
    exact (hread d (ha'.of_leads ((h.leads_iff hs).1 ha'.toLeads))).1 hc
  · obtain ⟨d, ha⟩ := aims_of_read hs hf ht hw hc
    exact (hread d ha).2 hc

/-! ### Directories that have come -/

/-- Nothing has come to a tree but directories, and nothing has gone. -/
def Widened (fs fs' : FileSystem) : Prop := Grown fs (fun _ e => e.isDirectory = true) fs'

theorem Widened.refl (hs : fs.Sound) : Widened fs fs := Grown.refl hs

theorem Widened.read {c : Bytes} (h : Widened fs fs') (hs : fs.Sound) (hp : p.isAbsolute = true)
    (hc : fs.read p = .ok c) : fs'.read p = .ok c := h.toSpares.read hs hp hc

theorem Widened.at_eq_some {e : Entry} (h : Widened fs fs') (he : e.isDirectory = false)
    (hl : fs'.at l = some e) : fs.at l = some e := by
  cases hx : fs.at l with
  | none =>
    obtain ⟨-, -, -, hdir⟩ := h.new l e hx hl
    rw [he] at hdir
    cases hdir
  | some x => rw [← h.at_eq l x hx id, hl]

end FileSystem
end Retrace
