import Retrace.Proofs.Attempts

/-!
What writing a file promises, wherever its path leads (`writeAtomic_delivers`). The bytes have come to the
place of the path, or of the file that a link there leads to, and nothing else has changed but that missing
directories have come; or nothing but missing directories has come. Afterwards the bytes are read under
the path, unless what has been written cannot be found there: the system may refuse to follow a link whose
real path it finds, and a link that was replaced may have been on the way to itself.
-/
namespace Retrace

open FileSystem Script
open Retrace.Path (IsName dot ofNames)

namespace FileSystem

variable {fs fs' : FileSystem} {p f : Path} {l k : Location} {e : Entry} {m : Nat} {c content w : Bytes}

/-! ### Where a link leads -/

theorem realLocation_of_entryAt (h : fs.entryAt true p = .ok (l, e)) : fs.realLocation p = .ok l := by
  obtain ⟨r, hr, hreached⟩ := exists_of_bind h
  suffices hfind : fs.find ⟨true, false⟩ p = .ok r by
    rw [realLocation, hfind]
    simp [Bind.bind, Except.bind, Pure.pure, Except.pure, hreached]
  rw [find] at hr ⊢
  split at hr
  · cases hr
  next hne =>
  split at hr
  · cases hr
  next hfits => rw [if_neg hne, if_neg hfits, (walks_of_walk hr).undotted.walk]

/-- What is no directory at the real place of a path is a file. -/
theorem file_of_realLocation (hs : fs.Sound) (hp : p.isAbsolute = true) (h : fs.realLocation p = .ok l)
    (hdir : ∀ x ∈ fs.at l, x.isDirectory = false) : ∃ m c, fs.at l = some (.file m c) := by
  obtain ⟨⟨e, he⟩, -⟩ := realLocation_spec hs hp h
  obtain ⟨r, hr, h⟩ := exists_of_bind h
  obtain ⟨x, hreached, h⟩ := exists_of_bind h
  obtain rfl := Except.ok.inj h
  cases r with
  | vacant => cases hreached
  | entry k x s =>
    rw [Found.reached] at hreached
    split at hreached
    · cases hreached
    obtain rfl := Except.ok.inj hreached
    rw [find] at hr
    split at hr
    · cases hr
    split at hr
    · cases hr
    rw [start_of_isAbsolute hp] at hr
    have hwalk := walks_of_walk hr
    obtain rfl : e = x := Option.some.inj (he.symm.trans (walk_entry hr))
    cases e with
    | file m c => exact ⟨m, c, he⟩
    | directory m => cases hdir _ he
    | link t => exact absurd rfl (hwalk.not_link hs rfl ⟨_, at_nil fs⟩)

theorem refiled_of_written (hfile : fs.at l = some (.file m c)) (hs' : fs'.Sound)
    (hself : fs'.at l = some (.file 0o600 content)) (hothers : ∀ k, k ≠ l → fs'.at k = fs.at k) :
    Refiled fs fs' := by
  refine ⟨hs', fun k e he hk => hothers k ?_⟩
  rintro rfl
  rcases he with he | he
  · exact hk (by rw [← Option.some.inj (hfile.symm.trans he)]; rfl)
  · exact hk (by rw [← Option.some.inj (hself.symm.trans he)]; rfl)

section Beyond

variable (hs : fs.Sound) (hp : p.isAbsolute = true) (hnul : p.hasNul = false)
  (hfile : fs.at l = some (.file m c)) (hs' : fs'.Sound) (hself : fs'.at l = some (.file 0o600 content))
  (hothers : ∀ k, k ≠ l → fs'.at k = fs.at k)
include hs hp hnul hfile hs' hself hothers

theorem status_of_read {b : Bytes} (h : fs'.read p = .ok b) : (fs.status p).isOk = true := by
  have hrefiled := refiled_of_written hfile hs' hself hothers
  obtain ⟨⟨k, x⟩, hentry, h⟩ := exists_of_bind (eq_ok_of_named h)
  obtain ⟨-, hx⟩ := goal?_of_entryAt hentry
  obtain ⟨n, b, rfl⟩ : ∃ n b, x = .file n b := by
    dsimp only at h
    split at h
    · cases h
    cases x with
    | file n b => exact ⟨n, b, rfl⟩
    | _ => cases h
  obtain ⟨n', b', hk⟩ : ∃ n' b', fs.at k = some (.file n' b') := by
    by_cases hkl : k = l
    · exact ⟨m, c, hkl ▸ hfile⟩
    · exact ⟨n, b, (hothers k hkl).symm.trans hx⟩
  rw [status, named_of_noNul hnul, (hrefiled.symm hs).entryAt hs' hp hentry hk]
  rfl

theorem read_beyond (hreal : fs.realLocation p = .ok l) :
    fs'.read p = .ok content ↔ (fs.status p).isOk = true := by
  have hrefiled := refiled_of_written hfile hs' hself hothers
  refine ⟨status_of_read hs hp hnul hfile hs' hself hothers, fun h => ?_⟩
  cases hentry : fs.entryAt true p with
  | error err => rw [status, named_of_noNul hnul, hentry] at h; cases h
  | ok x =>
    obtain ⟨k, x⟩ := x
    obtain rfl := Except.ok.inj ((realLocation_of_entryAt hentry).symm.trans hreal)
    obtain rfl := Option.some.inj ((goal?_of_entryAt hentry).2.symm.trans hfile)
    rw [read, named_of_noNul hnul, hrefiled.entryAt hs hp hentry hself]
    simp [Bind.bind, Except.bind, isReadable_of_written content]

end Beyond

/-! ### What has landed -/

theorem Landed.aims (h : Landed fs (f.join ⟨w⟩) l e fs') (hs : fs.Sound) (hf : f.isAbsolute = true)
    (ht : f.Tidy) (hw : IsName w) : ∃ d, l = w :: d ∧ Aims fs f d w := by
  obtain ⟨a, v, ha, hv, hshort, rfl⟩ := h.place
  obtain ⟨-, hform, -⟩ := leads_of_approach hs hf ht hw h.noNul ha
  rw [hform] at hv
  obtain rfl := Ending.name.inj hv
  exact ⟨a.directory, rfl, aims_of_approach hs hf ht hw h.noNul hshort ha⟩

theorem Landed.not_mem_way {b : Bytes} (h : Landed fs (f.join ⟨w⟩) l (.file 0o600 content) fs')
    (hf : f.isAbsolute = true) (ht : f.Tidy) (hw : IsName w) (hread : fs'.read (f.join ⟨w⟩) = .ok b) :
    l ∉ fs.way f := by
  obtain ⟨d, haims⟩ := aims_of_read h.edit.sound hf ht hw hread
  obtain ⟨n, s, hwalk⟩ := haims.walk
  -- the way does not go through the file that has come to the place, so it was the same before
  have hmiss : l ∉ fs'.way f := by
    intro hmem
    obtain ⟨x, hx, hfile⟩ := (walks_of_walk hwalk).occupied h.edit.sound rfl ⟨_, at_nil fs'⟩ rfl _ hmem
    obtain rfl := Option.some.inj (h.edit.at_self.symm.trans hx)
    cases hfile rfl
  rwa [way_congr fun k hk => (h.edit.at_of_ne fun hc => hmiss (hc ▸ hk)).symm]

/-- A file that has landed is read under its path, unless a link was there that was on the way. -/
theorem Landed.read_iff (h : Landed fs (f.join ⟨w⟩) l (.file 0o600 content) fs') (hs : fs.Sound)
    (hf : f.isAbsolute = true) (ht : f.Tidy) (hw : IsName w) :
    fs'.read (f.join ⟨w⟩) = .ok content ↔ ∀ t, fs.at l = some (.link t) → l ∉ fs.way f := by
  refine ⟨fun hread t _ => h.not_mem_way hf ht hw hread, fun hway => ?_⟩
  obtain ⟨d, rfl, haims⟩ := h.aims hs hf ht hw
  have hself := h.edit.at_self
  have hlead : Leads fs' f d := by
    cases hx : fs.at (w :: d) with
    | none => exact haims.toLeads.beside hs hx h.edit
    | some x =>
      cases x with
      | file m c => exact haims.toLeads.past_file hs hx h.edit
      | directory m => cases h.old _ hx
      | link t => exact haims.toLeads.congr fun k hk => h.edit.at_of_ne fun hc => hway t hx (hc ▸ hk)
  rw [(haims.of_leads hlead).read (by simp [hself]), hself]
  exact if_pos (isReadable_of_written content)

theorem Grown.at_eq_all (h : Grown fs (fun _ _ => False) fs') (k : Location) : fs'.at k = fs.at k := by
  cases hx : fs.at k with
  | some e => exact h.at_eq k e hx id
  | none =>
    cases hx' : fs'.at k with
    | none => rfl
    | some e =>
      obtain ⟨-, -, -, hnone⟩ := h.new k e hx hx'
      exact hnone.elim

end FileSystem

namespace Files

variable {fs fs' : FileSystem} {p : Path} {content : Bytes}

theorem resolveLink_beyond {l : Location} (h : Beyond fs p l) :
    (resolveLink p).run fs = (ofNames true l, fs) := by
  have hreal : fs.realPath p = .ok (ofNames true l) := by
    rw [realPath, named_of_noNul (noNul_of_named h.1), h.2]
    rfl
  simp only [resolveLink, run_bind, run_ask, Call.perform, h.1, hreal, run_pure]

/-- What may come of writing a file. -/
inductive Delivered (fs : FileSystem) (p : Path) (content : Bytes) (fs' : FileSystem) :
    Except OsError Unit → Prop
  /-- There is a link at the path that leads to a file: the file there has the content. The path leads to
  it where the system follows the link at all. -/
  | through {l : Location} {m : Nat} {c : Bytes} (link : Beyond fs p l) (file : fs.at l = some (.file m c))
    (sound : fs'.Sound) (at_eq : ∀ k, fs'.at k = if k = l then some (.file 0o600 content) else fs.at k)
    (read : fs'.read p = .ok content ↔ (fs.status p).isOk = true) : Delivered fs p content fs' (.ok ())
  /-- There is no such link: the file is at the place of the path, with the directories around it that were
  missing. The path leads to it unless it went through a link that was there. -/
  | placed {fs₁ : FileSystem} {l : Location} (itself : ∀ k, ¬Beyond fs p k)
    (made : Grown fs (OnTheWay p) fs₁) (place : ∀ k, fs.spot? p = some k → k = l)
    (landed : Landed fs₁ p l (.file 0o600 content) fs')
    (read : fs'.read p = .ok content ↔
      ∀ t, fs₁.at l = some (.link t) → ∀ f ∈ p.parent?, l ∉ fs₁.way f) :
    Delivered fs p content fs' (.ok ())
  /-- At most directories above the path have come. -/
  | failed {e : OsError} (made : Grown fs (OnTheWay p) fs') : Delivered fs p content fs' (.error e)

theorem delivered_through {l : Location} (hs : fs.Sound) (hp : p.isAbsolute = true) (h : Beyond fs p l) :
    Delivered fs p content ((writeAtomic p content).run.run fs).2
      ((writeAtomic p content).run.run fs).1 := by
  obtain ⟨⟨x, hx⟩, hnames⟩ := realLocation_spec hs hp h.2
  have hsome : (fs.at l).isSome := by simp [hx]
  rcases (writeAtomic_landed hs rfl (resolveLink_beyond h) content).result with
    ⟨hok, fs₁, k, hmade, hlanded⟩ | ⟨⟨e, he⟩, hmade⟩
  · rw [hok]
    -- nothing is missing above the file that the link leads to
    have hsame : ∀ k, fs₁.at k = fs.at k := (hmade.of_entry hs hnames hsome).at_eq_all
    obtain rfl : k = l := spot?_ofNames hnames (fun j hj hne => by
      obtain ⟨m, hm⟩ := hs.above hx hj hne
      exact ⟨m, (hsame j).trans hm⟩) hlanded.spot?
    obtain ⟨m, c, hfile⟩ := file_of_realLocation hs hp h.2 fun x hx => hlanded.old x ((hsame k).trans hx)
    exact .through h hfile hlanded.edit.sound (fun j => by rw [hlanded.edit.at_eq, hsame])
      (read_beyond hs hp (noNul_of_named h.1) hfile hlanded.edit.sound hlanded.edit.at_self
        (fun j hj => (hlanded.edit.at_of_ne hj).trans (hsame j)) h.2)
  · rw [he]
    exact .failed (hmade.of_entry hs hnames hsome)

theorem delivered_placed {f : Path} {w : Bytes} (hs : fs.Sound) (hf : f.isAbsolute = true) (ht : f.Tidy)
    (hw : IsName w) (h : ∀ l, ¬Beyond fs (f.join ⟨w⟩) l) :
    Delivered fs (f.join ⟨w⟩) content ((writeAtomic (f.join ⟨w⟩) content).run.run fs).2
      ((writeAtomic (f.join ⟨w⟩) content).run.run fs).1 := by
  have hp := Path.isAbsolute_join_name hf hw
  obtain ⟨q, hresolve, rfl | ⟨l, hl, -⟩⟩ := resolveLink_spec fs (f.join ⟨w⟩)
  · rcases (writeAtomic_landed hs hp hresolve content).result with
      ⟨hok, fs₁, l, hmade, hlanded⟩ | ⟨⟨e, he⟩, hmade⟩
    · rw [hok]
      refine .placed h hmade (fun k hk => ?_) hlanded ?_
      · exact Option.some.inj ((hmade.toSpares.spot? hs hp hk).symm.trans hlanded.spot?)
      rw [Path.parent?_join_name ht hw, hlanded.read_iff hmade.sound hf ht hw]
      simp
    · rw [he]
      exact .failed hmade
  · exact absurd hl (h l)

theorem delivered_root (hs : fs.Sound) (h : ∀ l, ¬Beyond fs (ofNames true []) l) :
    Delivered fs (ofNames true []) content ((writeAtomic (ofNames true []) content).run.run fs).2
      ((writeAtomic (ofNames true []) content).run.run fs).1 := by
  obtain ⟨q, hresolve, rfl | ⟨l, hl, -⟩⟩ := resolveLink_spec fs (ofNames true [])
  · rcases (writeAtomic_landed hs rfl hresolve content).result with
      ⟨-, fs₁, l, -, hlanded⟩ | ⟨⟨e, he⟩, hmade⟩
    · obtain ⟨a, w, ha, hw, -⟩ := hlanded.place
      have happroach : fs₁.approach (ofNames true []) = .ok ⟨[], .root, true⟩ := rfl
      obtain rfl := Except.ok.inj (happroach.symm.trans ha)
      cases hw
    · rw [he]
      exact .failed hmade
  · exact absurd hl (h l)

theorem Delivered.read_eq {f : Path} {w b : Bytes} (h : Delivered fs (f.join ⟨w⟩) content fs' (.ok ()))
    (hs : fs.Sound) (hf : f.isAbsolute = true) (ht : f.Tidy) (hw : IsName w)
    (hread : fs'.read (f.join ⟨w⟩) = .ok b) : b = content := by
  cases h with
  | through link file sound at_eq read =>
    have hfound := status_of_read hs (Path.isAbsolute_join_name hf hw) (noNul_of_named link.1) file sound
      (by rw [at_eq, if_pos rfl]) (fun k hk => by rw [at_eq, if_neg hk]) hread
    exact Except.ok.inj (hread.symm.trans (read.2 hfound))
  | placed itself made place landed read =>
    have hway := landed.not_mem_way hf ht hw hread
    exact Except.ok.inj (hread.symm.trans ((landed.read_iff made.sound hf ht hw).2 fun _ _ => hway))

theorem writeAtomic_delivers_in {f : Path} {w : Bytes} (hs : fs.Sound) (hf : f.isAbsolute = true)
    (ht : f.Tidy) (hw : IsName w) (content : Bytes) :
    Delivered fs (f.join ⟨w⟩) content ((writeAtomic (f.join ⟨w⟩) content).run.run fs).2
      ((writeAtomic (f.join ⟨w⟩) content).run.run fs).1 := by
  by_cases hlink : ∃ l, Beyond fs (f.join ⟨w⟩) l
  · obtain ⟨l, hl⟩ := hlink
    exact delivered_through hs (Path.isAbsolute_join_name hf hw) hl
  · exact delivered_placed hs hf ht hw fun l hl => hlink ⟨l, hl⟩

/-- Writing a file delivers the bytes at the place of its path or where the link there leads, and leaves
everything else alone but for missing directories; or it leaves nothing but those. -/
theorem writeAtomic_delivers (hs : fs.Sound) (hp : p.IsNormal) (content : Bytes) :
    Delivered fs p content ((writeAtomic p content).run.run fs).2
      ((writeAtomic p content).run.run fs).1 := by
  obtain ⟨names, hn, rfl⟩ := hp
  cases names with
  | nil =>
    by_cases hlink : ∃ l, Beyond fs (ofNames true []) l
    · obtain ⟨l, hl⟩ := hlink
      exact delivered_through hs rfl hl
    · exact delivered_root hs fun l hl => hlink ⟨l, hl⟩
  | cons w names =>
    have hnames : ∀ v ∈ names, IsName v := fun v hv => hn v (List.mem_cons_of_mem _ hv)
    have hw := hn w List.mem_cons_self
    rw [← Path.ofNames_join names hnames hw]
    exact writeAtomic_delivers_in hs rfl (Path.tidy_ofNames hnames) hw content

end Files
namespace Sample

/-- A directory with a link to itself, and a link that goes out of a directory that may not be searched. -/
def tangled : FileSystem where
  entries :=
    let name := fun s : String => Utf8.encode s
    [([name "p"], .directory 0o755),
      ([name "w", name "p"], .link (.ofString ".")),
      ([name "f", name "p"], .file 0o644 [120]),
      ([name "d", name "p"], .directory 0),
      ([name "l", name "p"], .link (.ofString "d/../f")),
      ([name "k", name "p"], .link (.ofString "w/f"))]
  rootMode := 0o755
  workplace := []

def linked : Path := ofNames true [Utf8.encode "k", Utf8.encode "p"]

def round : Path := ofNames true (List.replicate (mostLinks + 1) (Utf8.encode "w") ++ [Utf8.encode "p"])

def across : Path := ofNames true [Utf8.encode "l", Utf8.encode "p"]

end Sample

theorem writeAtomic_delivers_through_link :
    Sample.tangled.Sound ∧ Sample.linked.IsNormal ∧
      ((Files.writeAtomic Sample.linked [121]).run.run Sample.tangled).1.isOk = true ∧
      Files.Delivered Sample.tangled Sample.linked [121]
        ((Files.writeAtomic Sample.linked [121]).run.run Sample.tangled).2
        ((Files.writeAtomic Sample.linked [121]).run.run Sample.tangled).1 ∧
      ((Files.writeAtomic Sample.linked [121]).run.run Sample.tangled).2.read Sample.linked = .ok [121] := by
  have hs : Sample.tangled.Sound := by decide +kernel
  have hp : Sample.linked.IsNormal := ⟨_, by decide +kernel, rfl⟩
  exact ⟨hs, hp, by decide +kernel, Files.writeAtomic_delivers hs hp [121], by decide +kernel⟩

/-- What has been written need not be found under its path: the system may go round too often, or may not
follow what the real path crosses out. -/
theorem written_out_of_reach :
    Sample.tangled.Sound ∧
      (Sample.round.IsNormal ∧
        ((Files.writeAtomic Sample.round [121]).run.run Sample.tangled).1.isOk = true ∧
        (((Files.writeAtomic Sample.round [121]).run.run Sample.tangled).2.read Sample.round).isOk = false) ∧
      Sample.across.IsNormal ∧
        ((Files.writeAtomic Sample.across [121]).run.run Sample.tangled).1.isOk = true ∧
        (((Files.writeAtomic Sample.across [121]).run.run Sample.tangled).2.read Sample.across).isOk = false :=
  ⟨by decide +kernel, ⟨⟨_, by decide +kernel, rfl⟩, by decide +kernel, by decide +kernel⟩,
    ⟨_, by decide +kernel, rfl⟩, by decide +kernel, by decide +kernel⟩

end Retrace
