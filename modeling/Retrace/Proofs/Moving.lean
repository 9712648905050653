import Retrace.Proofs.Attempts

/-!
What moving an entry comes to (`move_moves_or_rests`). The entry goes to the place of its new path with all
that is below it, in place of what gives way there, and nothing else has changed but that missing
directories have come; or nothing but missing directories has come. A move that cannot be made by renaming
goes on by copying, and the copy is made where one of the two directories cannot be written to
(`rename_refused`): a file that stood at the end of the new path is then overwritten, and the file that was
copied is left where it was if its own directory is the closed one.
-/
namespace Retrace

open FileSystem Script
open Retrace.Path (IsName ofNames)

namespace FileSystem

variable {fs fs' : FileSystem} {p q f source target : Path} {d j l k : Location} {e : Entry} {v w : Bytes}
  {N : Path → Entry → Prop} {names i i' : List Bytes}

/-! ### Directories that have come above a path -/

theorem Leads.before (h : Leads fs (f.join ⟨v⟩) d) (hs : fs.Sound) (hf : f.isAbsolute = true) (ht : f.Tidy)
    (hv : IsName v) :
    ∃ d', Leads fs f d' ∧ ((∀ t, fs.at (v :: d') ≠ some (.link t)) → d = v :: d') := by
  obtain ⟨m, s, hwalk⟩ := h.walk
  rw [Path.named_join_name f hv] at hwalk
  obtain ⟨hname, -⟩ := (walks_of_walk hwalk).before_dot rfl rfl rfl
  obtain ⟨d', m', hbefore⟩ := hname.before_name hs rfl rfl hv ⟨_, at_nil fs⟩
  have hnul := h.noNul
  rw [Path.hasNul_join_name f hv, Bool.or_eq_false_iff] at hnul
  refine ⟨d', ⟨hf, hnul.1, ht, m', _, hbefore.walk⟩, fun hleaf => ?_⟩
  have hlast : fs.walk ⟨true, true⟩ mostLinks [] (f.named ++ [v]) = fs.lookUp d' v :=
    walk_last hv (.inr (.inr hleaf)) hbefore.walk
  rw [hname.walk, lookUp] at hlast
  split at hlast
  · cases hlast
  · rw [foundAt] at hlast
    split at hlast <;> cases hlast
    rfl

/-- Where only directories have come, what is new on the way of a path is above the place that it leads
to: the way goes on from there through new directories alone. -/
theorem Grown.above_leads {x : Entry} (h : Grown fs N fs') (hs : fs.Sound)
    (hN : ∀ f e, N f e → e.isDirectory = true) (hi : ∀ u ∈ i, IsName u) (hsuffix : i' <:+ i)
    (hlead : Leads fs' (ofNames true i) d) (hnone : fs.at j = none) (hx : fs'.at j = some x)
    (hspot : fs'.spot? (ofNames true i') = some j) : j <:+ d := by
  have hnew : ∀ l t, fs.at l = none → fs'.at l ≠ some (.link t) := by
    intro l t hl ht
    obtain ⟨f, -, -, hf⟩ := h.new l _ hl ht
    cases hN f _ hf
  induction i generalizing d with
  | nil =>
    obtain rfl := List.suffix_nil.1 hsuffix
    have hroot : fs'.spot? (ofNames true []) = none := rfl
    rw [hroot] at hspot
    cases hspot
  | cons u i ih =>
    have hu := hi u List.mem_cons_self
    have hnames : ∀ v ∈ i, IsName v := fun v hv => hi v (List.mem_cons_of_mem _ hv)
    rw [← Path.ofNames_join i hnames hu] at hlead
    obtain ⟨d', hlead', hstep⟩ := hlead.before h.sound rfl (Path.tidy_ofNames hnames) hu
    rcases List.suffix_cons_iff.1 hsuffix with rfl | hsuffix
    · rw [← Path.ofNames_join i hnames hu] at hspot
      obtain ⟨m, s, hwalk⟩ := hlead'.walk
      obtain rfl := spot?_join rfl hu hwalk hspot
      exact hstep (fun t => hnew _ t hnone) ▸ List.suffix_refl _
    · have hd := ih hnames hsuffix hlead'
      have hbelow : fs.at (u :: d') = none :=
        hs.none_below (by simp [hnone]) (hd.trans (List.suffix_cons u d')) fun hc => by
          rw [hc] at hd
          exact absurd hd.length_le (by simp)
      exact hstep (fun t => hnew _ t hbelow) ▸ hd.trans (List.suffix_cons u d')

/-! ### Entries that go from place to place -/

/-- An entry has gone from one place to another with all that is below it, in place of what gave way
there: nothing, a file for a file, or an empty directory for a directory. -/
structure Relocated (fs : FileSystem) (l k : Location) (fs' : FileSystem) : Prop where
  entry : (fs.at l).isSome
  there : ∀ x, fs'.at (x ++ k) = fs.at (x ++ l)
  gone : l ≠ k → ∀ x, fs'.at (x ++ l) = none
  alike : ∀ e ∈ fs.at l, ∀ x ∈ fs.at k, x.isDirectory = e.isDirectory
  empty : l ≠ k → ∀ x, x ≠ [] → fs.at (x ++ k) = none
  others : ∀ j, ¬l <:+ j → ¬k <:+ j → fs'.at j = fs.at j

theorem Movable.relocated (h : Movable fs l k) (hs : fs.Sound) (he : fs.at l = some e)
    (hkind : ∀ x ∈ fs.at k, x.isDirectory = e.isDirectory) : Relocated fs l k (fs.relocate l k) where
  entry := by simp [he]
  there x := by
    rw [at_relocate hs h, if_pos (List.suffix_append x k),
      show (x ++ k).take ((x ++ k).length - k.length) = x by simp]
  gone _ x := by
    have hapart : ¬k <:+ x ++ l := fun hk =>
      (List.suffix_or_suffix_of_suffix hk (List.suffix_append x l)).elim h.not_out h.not_into
    rw [at_relocate hs h, if_neg hapart, if_pos (List.suffix_append x l)]
  alike y hy x hx := by
    obtain rfl := Option.some.inj (he.symm.trans hy)
    exact hkind x hx
  empty _ x hx := hs.none_below_empty h.vacant (List.suffix_append x k) (by simpa using hx)
  others j hl hk := by rw [at_relocate hs h, if_neg hk, if_neg hl]

/-- A rename takes the entry at the place of a path to the place of another, and neither lies in the
other. -/
theorem rename_relocated (hs : fs.Sound) (h : fs.rename source target = .ok fs') :
    ∃ l k, fs.spot? source = some l ∧ fs.spot? target = some k ∧ Relocated fs l k fs' ∧
      (l ≠ k → ¬l <:+ k ∧ ¬k <:+ l) := by
  obtain ⟨a, v, b, w, e, ha, hv, hb, hw, he, hmoved⟩ := rename_inv hs h
  refine ⟨_, _, spot?_of_approach ha hv, spot?_of_approach hb hw, ?_⟩
  rcases hmoved with ⟨hsame, rfl⟩ | ⟨hmove, hkind, rfl⟩
  · rw [← hsame]
    refine ⟨⟨by simp [he], fun _ => rfl, fun hne => absurd rfl hne, fun x hx y hy => ?_,
      fun hne => absurd rfl hne, fun _ _ _ => rfl⟩, fun hne => absurd rfl hne⟩
    rw [Option.some.inj (hx.symm.trans hy)]
  · exact ⟨hmove.relocated hs he hkind, fun _ => ⟨hmove.not_into, hmove.not_out⟩⟩

/-- The place of a path of names at which something was renamed to is a name in the directory that the
path before it leads to. -/
theorem rename_target (hs : fs.Sound) (hn : ∀ u ∈ names, IsName u)
    (h : fs.rename source (ofNames true names) = .ok fs')
    (hspot : fs.spot? (ofNames true names) = some k) :
    ∃ w i d, names = w :: i ∧ k = w :: d ∧ Leads fs (ofNames true i) d := by
  obtain ⟨-, hnul, -⟩ := rename_names h
  obtain ⟨_, _, b, _, _, -, -, hb, -⟩ := rename_inv hs h
  cases names with
  | nil =>
    have hroot : fs.spot? (ofNames true []) = none := rfl
    rw [hroot] at hspot
    cases hspot
  | cons w i =>
    have hw := hn w List.mem_cons_self
    have hi : ∀ u ∈ i, IsName u := fun u hu => hn u (List.mem_cons_of_mem _ hu)
    rw [← Path.ofNames_join i hi hw] at hnul hb hspot
    obtain ⟨hlead, hform, -⟩ := leads_of_approach hs rfl (Path.tidy_ofNames hi) hw hnul hb
    have hending : b.ending = .name w := congrArg Approach.ending hform
    exact ⟨w, i, b.directory, rfl, Option.some.inj (hspot.symm.trans (spot?_of_approach hb hending)), hlead⟩

/-! ### Renames that are refused -/

theorem aims_of_opened {opened : Location × FileSystem} {mode : Nat} (hs : fs.Sound)
    (hn : ∀ u ∈ names, IsName u) (h : fs.openEmpty (ofNames true names) mode = .ok opened) :
    ∃ w i d, names = w :: i ∧ Aims fs (ofNames true i) d w ∧ ∀ x ∈ fs.at (w :: d), x.isDirectory = false := by
  cases names with
  | nil =>
    have hroot : fs.openEmpty (ofNames true []) mode = .error (.errno .isDirectory) := rfl
    rw [hroot] at h
    cases h
  | cons w i =>
    have hw := hn w List.mem_cons_self
    have hi : ∀ u ∈ i, IsName u := fun u hu => hn u (List.mem_cons_of_mem _ hu)
    rw [← Path.ofNames_join i hi hw] at h
    obtain ⟨d, ha⟩ := aims_of_openEmpty hs rfl (Path.tidy_ofNames hi) hw h
    refine ⟨w, i, d, rfl, ha, fun x hx => ?_⟩
    cases x with
    | directory m =>
      rw [ha.openEmpty (by simp [show fs.at (w :: d) = _ from hx]), show fs.at (w :: d) = _ from hx] at h
      cases h
    | _ => rfl

/-- What is no directory can go to another name where none is, as far as the directories of the two names
can be written to. -/
theorem renameBar_eq_none {c : Location} (hs : fs.Sound) (he : fs.at (v :: c) = some e)
    (hfile : e.isDirectory = false) (hd : ∃ m, fs.at d = some (.directory m))
    (hold : ∀ x ∈ fs.at (w :: d), x.isDirectory = false) (hne : v :: c ≠ w :: d)
    (hc : fs.yields c = true) (hyields : fs.yields d = true) : fs.renameBar e c v d w = none := by
  have hinto : ¬(v :: c) <:+ (w :: d) := by
    intro hsuffix
    have hbelow := (List.suffix_cons_iff.1 hsuffix).resolve_left hne
    obtain ⟨m, hm⟩ := hd
    obtain ⟨m', hm'⟩ : ∃ m', fs.at (v :: c) = some (.directory m') := by
      by_cases hsame : v :: c = d
      · exact ⟨m, hsame ▸ hm⟩
      · exact hs.above hm hbelow hsame
    obtain rfl := Option.some.inj (he.symm.trans hm')
    cases hfile
  have hout : ¬(w :: d) <:+ (v :: c) := by
    intro hsuffix
    obtain ⟨m, hm⟩ := hs.above he hsuffix hne.symm
    cases hold _ hm
  have hbar : fs.moveBar e c w d (fs.at (w :: d)) = none := by
    cases hx : fs.at (w :: d) with
    | none => simp [moveBar, hc, hyields, hfile]
    | some x =>
      have hxfile := hold x hx
      simp [moveBar, hc, hyields, hfile, mismatch, hxfile]
  simp [renameBar, hinto, hout, hbar]

/-- Where a file can be copied but not renamed, one of the two directories cannot be written to. -/
theorem rename_refused (hs : fs.Sound) (hp : source.IsNormal) (hq : target.IsNormal)
    (hrename : (fs.rename source target).isOk = false) (hcopy : fs.copy source target = .ok fs') :
    ∃ l k, fs.spot? source = some l ∧ fs.spot? target = some k ∧ l ≠ k ∧
      (fs.yields l.tail = false ∨ fs.yields k.tail = false) := by
  obtain ⟨names, hn, rfl⟩ := hp
  obtain ⟨names', hn', rfl⟩ := hq
  obtain ⟨_, _, _, hentry, -⟩ := copy_edit hs rfl hcopy
  obtain ⟨v, i, c, e, rfl, ha, he, hfile⟩ := aims_of_entryAt hs hn hentry
  obtain ⟨_, _, hopen⟩ := openEmpty_of_copy hcopy
  obtain ⟨w, i', d, rfl, hb, hold⟩ := aims_of_opened hs hn' hopen
  rw [← Path.ofNames_join i (fun u hu => hn u (List.mem_cons_of_mem _ hu)) ha.name,
    ← Path.ofNames_join i' (fun u hu => hn' u (List.mem_cons_of_mem _ hu)) hb.name] at hrename ⊢
  rw [ha.rename hb, he] at hrename
  have hne : v :: c ≠ w :: d := fun hc => by
    simp [hc, Except.isOk, Except.toBool] at hrename
  refine ⟨_, _, ha.spot?, hb.spot?, hne, ?_⟩
  by_contra hopen
  simp only [List.tail_cons, not_or, Bool.not_eq_false] at hopen
  simp only [if_neg hne, renameBar_eq_none hs he hfile hb.directory hold hne hopen.1 hopen.2] at hrename
  cases hrename

/-! ### Copies -/

/-- The file that one path leads to was copied to where another leads, and to itself it was emptied. It was
not renamed, as one of the directories of the two names cannot be written to. -/
structure Duplicated (fs : FileSystem) (source target : Path) (l k : Location) (fs' : FileSystem) : Prop where
  source_place : fs.spot? source = some l
  target_place : fs.spot? target = some k
  apart : l ≠ k
  closed : fs.yields l.tail = false ∨ fs.yields k.tail = false
  copy : ∃ s m c g n, fs.goal? source = some s ∧ fs.at s = some (.file m c) ∧ fs.goal? target = some g ∧
    (∀ e ∈ fs.at g, e.kind = .file) ∧ Edit fs g (some (.file n (if s = g then [] else c))) fs'

theorem duplicated_of_copy (hs : fs.Sound) (hp : source.IsNormal) (hq : target.IsNormal)
    (hrename : (fs.rename source target).isOk = false) (hcopy : fs.copy source target = .ok fs') :
    ∃ l k, Duplicated fs source target l k fs' := by
  obtain ⟨l, k, hl, hk, hne, hclosed⟩ := rename_refused hs hp hq hrename hcopy
  obtain ⟨s, m, c, hentry, g, n, hgoal, hold, hedit⟩ := copy_edit hs hq.isAbsolute hcopy
  obtain ⟨hs', hfile⟩ := goal?_of_entryAt (eq_ok_of_named hentry)
  exact ⟨l, k, hl, hk, hne, hclosed, s, m, c, g, n, hs', hfile, hgoal, hold, hedit⟩

end FileSystem

namespace Files

variable {fs fs' : FileSystem} {source target : Path}

/-- What may come of moving an entry. -/
inductive Moves (fs : FileSystem) (source target : Path) : Except OsError Unit × FileSystem → Prop
  /-- The entry has gone to its new place, in a tree with the directories that were missing. Nothing has
  come to either place or below before. -/
  | moved {fs₁ fs' : FileSystem} {l k : Location} (made : Grown fs (OnTheWay target) fs₁)
    (source_place : fs₁.spot? source = some l) (before : ∀ j, fs.spot? source = some j → j = l)
    (target_place : fs₁.spot? target = some k)
    (untouched : ∀ x, fs₁.at (x ++ l) = fs.at (x ++ l) ∧ fs₁.at (x ++ k) = fs.at (x ++ k))
    (relocated : Relocated fs₁ l k fs') : Moves fs source target (.ok (), fs')
  /-- At most directories above the new path have come. -/
  | rested {e : OsError} {fs' : FileSystem} (made : Grown fs (OnTheWay target) fs') :
    Moves fs source target (.error e, fs')
  /-- The file was copied where nothing can be put in place of the new path, and was removed. -/
  | copied {fs₁ fs₂ fs' : FileSystem} {l k : Location} (made : Grown fs (OnTheWay target) fs₁)
    (duplicated : Duplicated fs₁ source target l k fs₂) (yielding : fs₁.yields l.tail = true)
    (removed : Edit fs₂ l none fs') : Moves fs source target (.ok (), fs')
  /-- The file was copied where nothing can be taken from its directory, and has stayed there. -/
  | doubled {fs₁ fs₂ : FileSystem} {e : OsError} {l k : Location} (made : Grown fs (OnTheWay target) fs₁)
    (duplicated : Duplicated fs₁ source target l k fs₂) (closed : fs₁.yields l.tail = false) :
    Moves fs source target (.error e, fs₂)

/-- What is new above the target is neither at the places of a rename nor below. -/
theorem untouched_of_rename {fs₁ : FileSystem} {l k : Location} (hs : fs.Sound)
    (hq : target.IsNormal) (hmade : Grown fs (OnTheWay target) fs₁)
    (hrename : fs₁.rename source target = .ok fs') (hk : fs₁.spot? target = some k)
    (happart : l ≠ k → ¬l <:+ k ∧ ¬k <:+ l) (x : List Bytes) :
    fs₁.at (x ++ l) = fs.at (x ++ l) ∧ fs₁.at (x ++ k) = fs.at (x ++ k) := by
  obtain ⟨names, hn, rfl⟩ := hq
  obtain ⟨w, i, d, rfl, rfl, hlead⟩ := rename_target hmade.sound hn hrename hk
  have hi : ∀ u ∈ i, IsName u := fun u hu => hn u (List.mem_cons_of_mem _ hu)
  -- new entries are above the target, where neither of the places is
  have hsame : ∀ j, ¬j <:+ d → fs₁.at j = fs.at j := by
    intro j hj
    cases hx : fs.at j with
    | some e => exact hmade.at_eq j e hx id
    | none =>
      by_contra hne
      obtain ⟨e, he⟩ := Option.ne_none_iff_exists'.1 hne
      obtain ⟨f, -, hspot, habove, -⟩ := hmade.new j e hx he
      obtain ⟨i', hi', hne', rfl⟩ := habove.of_ofNames rfl hn
      exact hj (hmade.above_leads hs (fun f e h => h.2) hi
        ((List.suffix_cons_iff.1 hi').resolve_left hne') hlead hx he hspot)
  have hbelow : ¬(x ++ (w :: d)) <:+ d := fun hc => absurd hc.length_le (by simp; omega)
  refine ⟨?_, hsame _ hbelow⟩
  by_cases hlk : l = w :: d
  · rw [hlk]
    exact hsame _ hbelow
  · exact hsame _ fun hc =>
      (happart hlk).1 (((List.suffix_append x l).trans hc).trans (List.suffix_cons w d))

/-- Moving an entry takes it to its new place with all that is below it, or leaves it where it is, and
nothing else changes but that missing directories come; unless a file was copied because the directory of
one of the two names cannot be written to. -/
theorem move_moves_or_rests (hs : fs.Sound) (hp : source.IsNormal) (hq : target.IsNormal) :
    Moves fs source target ((move source target).run.run fs) := by
  have hrun : MoveRun fs source target _ := move_stages hs hq.isAbsolute
  generalize (move source target).run.run fs = out at hrun ⊢
  cases hrun with
  | rested made => exact .rested made
  | renamed made rename =>
    obtain ⟨l, k, hl, hk, hrelocated, hapart⟩ := rename_relocated made.sound rename
    refine .moved made hl (fun j hj => ?_) hk (untouched_of_rename hs hq made rename hk hapart) hrelocated
    exact Option.some.inj ((made.toSpares.spot? hs hp.isAbsolute hj).symm.trans hl)
  | @copied fs₁ fs₂ made refused copy =>
    obtain ⟨l, k, hduplicated⟩ := duplicated_of_copy made.sound hp hq refused copy
    obtain ⟨l', hl', -, -, hopen, hclosed⟩ := removeFile_of_copy made.sound hp hq.isAbsolute copy
    obtain rfl : l = l' := Option.some.inj (hduplicated.source_place.symm.trans hl')
    cases hyields : fs₁.yields l.tail with
    | true =>
      obtain ⟨fs', hremove, hedit⟩ := hopen hyields
      rw [hremove]
      exact .copied made hduplicated hyields hedit
    | false =>
      have hkept := hclosed hyields
      cases hremove : fs₂.removeFile source with
      | ok fs' => rw [hremove] at hkept; cases hkept
      | error e => exact .doubled made hduplicated hyields

end Files

namespace Sample

def fenced : FileSystem where
  entries :=
    let name := fun s : String => Utf8.encode s
    [([name "d"], .directory 0o555),
      ([name "m", name "d"], .file 0o644 [107]),
      ([name "l", name "d"], .link (.ofString "../f")),
      ([name "f"], .file 0o644 [120])]
  rootMode := 0o755
  workplace := []

def held : Path := ofNames true [Utf8.encode "m", Utf8.encode "d"]

def vacant : Path := ofNames true [Utf8.encode "a"]

end Sample

theorem move_moves_or_rests_fenced :
    Sample.fenced.Sound ∧ Sample.held.IsNormal ∧ Sample.vacant.IsNormal ∧
      Files.Moves Sample.fenced Sample.held Sample.vacant
        ((Files.move Sample.held Sample.vacant).run.run Sample.fenced) ∧
      ((Files.move Sample.held Sample.vacant).run.run Sample.fenced).1.isOk = false ∧
      ((Files.move Sample.held Sample.vacant).run.run Sample.fenced).2.read Sample.held = .ok [107] ∧
      ((Files.move Sample.held Sample.vacant).run.run Sample.fenced).2.read Sample.vacant = .ok [107] := by
  have hs : Sample.fenced.Sound := by decide +kernel
  have hp : Sample.held.IsNormal := ⟨_, by decide +kernel, rfl⟩
  have hq : Sample.vacant.IsNormal := ⟨_, by decide +kernel, rfl⟩
  exact ⟨hs, hp, hq, Files.move_moves_or_rests hs hp hq, by decide +kernel, by decide +kernel,
    by decide +kernel⟩

/-- A file that is moved to a link to itself in a closed directory is emptied and then removed. -/
example :
    let name := fun s : String => Utf8.encode s
    let out := (Files.move (ofNames true [name "f"]) (ofNames true [name "l", name "d"])).run.run
      Sample.fenced
    out.1.isOk = true ∧ out.2.at [name "f"] = none := by
  decide +kernel

end Retrace
