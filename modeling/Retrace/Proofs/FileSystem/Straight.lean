import Retrace.Proofs.Ancestors
import Retrace.Proofs.FileSystem.Unlinked
import Retrace.Proofs.Revert

/-!
Paths whose pieces are not all names. Where no link stands at any place that the pieces pass, such a path
is gone along as it is spelled, `.` and `..` included: a walk that gets to its end has found something at
every place on its way (`Walks.passes`), and one that gets to a directory has found open directories
(`Walks.opens`). So a directory is made under such a path as it is under its normalized form
(`makeDirectory_back`).
-/
namespace Retrace.FileSystem

open Retrace.Path (IsName dot ofNames stack back spot isBlank)

variable {fs fs' : FileSystem} {manner : Manner} {n : Nat} {here d k l : Location} {c w : Bytes}
  {xs cs : List Bytes} {e : Entry} {s : Bool} {r : Found} {x : Location × Entry}

def Straight (fs : FileSystem) (here : Location) (xs : List Bytes) : Prop :=
  ∀ zs, zs <+: xs → ∀ t, fs.at (zs.foldl stack here) ≠ some (.link t)

theorem Straight.tail (h : Straight fs here (w :: xs)) : Straight fs (stack here w) xs :=
  fun zs hzs => h (w :: zs) (List.cons_prefix_cons.2 ⟨rfl, hzs⟩)

theorem Straight.not_link (h : Straight fs here (w :: xs)) (hw : Looked fs here w) (t : Path) :
    fs.at (w :: here) ≠ some (.link t) := by
  have h := h [w] (List.cons_prefix_cons.2 ⟨rfl, List.nil_prefix⟩) t
  rwa [List.foldl_cons, List.foldl_nil, stack, if_neg (by simp [hw.ne_nil, hw.ne_dot]),
    if_neg hw.ne_up] at h

theorem Looked.stack_eq (hw : Looked fs here w) : stack here w = w :: here := by
  rw [stack, if_neg (by simp [hw.ne_nil, hw.ne_dot]), if_neg hw.ne_up]

structure Near (fs : FileSystem) (here : Location) : Prop where
  directory : ∃ m, fs.at here = some (.directory m)
  above : ∀ k, k <:+ here → k ≠ here →
    ∃ m, fs.at k = some (.directory m) ∧ (Entry.directory m).isSearchable = true
  short : ∀ w ∈ here, w.length ≤ longestName

theorem Near.root (fs : FileSystem) : Near fs [] :=
  ⟨⟨_, at_nil fs⟩, fun _ hk hne => absurd (List.suffix_nil.1 hk) hne, by simp⟩

theorem Near.clear (h : Near fs here) (ha : fs.admits here = true) : Clear fs here where
  searchable k hk := by
    by_cases hkh : k = here
    · obtain ⟨m, hm⟩ := h.directory
      exact ⟨m, hkh ▸ hm, by simpa [admits, hm] using ha⟩
    · exact h.above k hk hkh
  short := h.short

theorem Clear.near (h : Clear fs d) : Near fs d :=
  ⟨h.directory, fun k hk _ => h.searchable k hk, h.short⟩

theorem Clear.above (h : Clear fs d) (hk : k <:+ d) : Clear fs k :=
  ⟨fun j hj => h.searchable j (hj.trans hk), fun w hw => h.short w (hk.subset hw)⟩

theorem Clear.near_cons (h : Clear fs here) (hw : Looked fs here w)
    (hx : ∃ m, fs.at (w :: here) = some (.directory m)) : Near fs (w :: here) where
  directory := hx
  above k hk hne := h.searchable k ((List.suffix_cons_iff.1 hk).resolve_left hne)
  short v hv := by
    rcases List.mem_cons.1 hv with rfl | hv
    · exact hw.short
    · exact h.short v hv

/-- A walk that gets to a directory has gone through open directories, to the place that is spelled. -/
theorem Walks.opens (hl : Straight fs here xs) (hn : Near fs here)
    (h : Walks fs ⟨true, true⟩ n here (xs ++ [[dot]]) (.entry k e s)) :
    k = xs.foldl stack here ∧ Clear fs k := by
  induction xs generalizing here with
  | nil =>
    cases h with
    | stay ha h =>
      cases h
      exact ⟨rfl, hn.clear (ha rfl)⟩
    | down hw | file hw | link hw | follow hw => exact absurd rfl hw.ne_dot
  | cons x xs ih =>
    have htail := hl.tail
    rw [List.cons_append] at h
    generalize hrest : xs ++ [[dot]] = rest at h
    cases h with
    | blank h =>
      subst hrest
      exact ih htail hn h
    | stay ha h =>
      subst hrest
      exact ih htail hn h
    | up ha h =>
      subst hrest
      have hclear := hn.clear (ha rfl)
      rw [Path.stack_up] at htail
      rw [List.foldl_cons, Path.stack_up]
      rw [List.drop_one] at h
      exact ih htail (hclear.above (List.tail_suffix here)).near h
    | down hw hx h =>
      subst hrest
      rw [hw.stack_eq] at htail
      rw [List.foldl_cons, hw.stack_eq]
      exact ih htail ((hn.clear hw.admits).near_cons hw ⟨_, hx⟩) h
    | file hw hx hlast =>
      subst hrest
      simp at hlast
    | link hw hx => exact absurd hx (hl.not_link hw _)
    | follow hw hx => exact absurd hx (hl.not_link hw _)

theorem foldl_stack_blank (h : xs.all (· = []) = true) (here : Location) :
    xs.foldl stack here = here := by
  induction xs with
  | nil => rfl
  | cons x xs ih =>
    simp only [List.all_cons, Bool.and_eq_true, decide_eq_true_eq] at h
    rw [List.foldl_cons, Path.stack_blank (.inl h.1), ih h.2]

/-- A walk that finds something has found something at every place on its way. -/
theorem Walks.passes (hs : fs.Sound) (hl : Straight fs here xs)
    (hd : ∃ m, fs.at here = some (.directory m)) (h : Walks fs manner n here xs r)
    (hr : r.reached = .ok x) : ∀ zs, zs <+: xs → (fs.at (zs.foldl stack here)).isSome := by
  have hhere : (fs.at here).isSome := by
    obtain ⟨m, hm⟩ := hd
    simp [hm]
  induction xs generalizing here with
  | nil =>
    intro zs hzs
    rw [List.prefix_nil.1 hzs]
    exact hhere
  | cons v xs ih =>
    intro zs hzs
    cases zs with
    | nil => exact hhere
    | cons z zs =>
      obtain ⟨rfl, hrest⟩ := List.cons_prefix_cons.1 hzs
      have htail := hl.tail
      rw [List.foldl_cons]
      cases h with
      | blank h => exact ih htail hd h hhere zs hrest
      | stay ha h => exact ih htail hd h hhere zs hrest
      | up ha h =>
        rw [Path.stack_up] at htail ⊢
        have hup := hs.drop hd
        rw [List.drop_one] at h hup
        refine ih htail hup h ?_ zs hrest
        obtain ⟨m, hm⟩ := hup
        simp [hm]
      | down hw hx h =>
        rw [hw.stack_eq] at htail ⊢
        exact ih htail ⟨_, hx⟩ h (by simp [hx]) zs hrest
      | vacant => cases hr
      | file hw hx hlast =>
        have hblank : zs.all (· = []) = true :=
          List.all_eq_true.2 fun y hy => List.all_eq_true.1 hlast y (hrest.subset hy)
        rw [foldl_stack_blank hblank, hw.stack_eq, hx]
        rfl
      | link hw hx => exact absurd hx (hl.not_link hw _)
      | follow hw hx => exact absurd hx (hl.not_link hw _)

/-! ### Paths -/

theorem Straight.initial {ys : List Bytes} (h : Straight fs here xs) (hys : ys <+: xs) :
    Straight fs here ys := fun zs hzs => h zs (hzs.trans hys)

theorem foldl_stack_filter (xs : List Bytes) (here : Location) :
    (xs.filter (· ≠ [])).foldl stack here = xs.foldl stack here := by
  induction xs generalizing here with
  | nil => rfl
  | cons x xs ih =>
    by_cases hx : x = []
    · rw [List.filter_cons_of_neg (by simpa using hx), ih, List.foldl_cons, Path.stack_blank (.inl hx)]
    · rw [List.filter_cons_of_pos (by simpa using hx), List.foldl_cons, List.foldl_cons, ih]

theorem Straight.filter (h : Straight fs here xs) : Straight fs here (xs.filter (· ≠ [])) := by
  rintro zs ⟨ys, hys⟩
  obtain ⟨a, b, rfl, rfl, -⟩ := List.filter_eq_append_iff.1 hys.symm
  rw [foldl_stack_filter]
  exact h a (List.prefix_append a b)

/-- Where a path leads to something, something stands at every place that it passes. -/
theorem linkStatus_back (hs : fs.Sound) (hc : ∀ w ∈ cs, Path.slash ∉ w) (hl : Straight fs [] cs.reverse)
    (h : (fs.linkStatus (back cs)).isOk = true) {zs : List Bytes} (hzs : zs <:+ cs) :
    (fs.at (spot zs)).isSome := by
  induction cs generalizing zs with
  | nil => rw [List.suffix_nil.1 hzs]; rfl
  | cons c cs ih =>
    cases hb : isBlank c with
    | true =>
      have hcs : ∀ w ∈ cs, Path.slash ∉ w := fun w hw => hc w (List.mem_cons_of_mem _ hw)
      rw [List.reverse_cons] at hl
      have hrest := fun {zs} => @ih hcs (hl.initial (List.prefix_append _ _)) (Path.back_blank hb ▸ h) zs
      rcases List.suffix_cons_iff.1 hzs with rfl | hzs
      · rw [Path.spot_blank hb]
        exact hrest (List.suffix_refl cs)
      · exact hrest hzs
    | false =>
      obtain ⟨kind, hkind⟩ : ∃ kind, fs.linkStatus (back (c :: cs)) = .ok kind := by
        cases hstatus : fs.linkStatus (back (c :: cs)) with
        | error err => rw [hstatus] at h; cases h
        | ok kind => exact ⟨kind, rfl⟩
      cases hx : fs.entryAt false (back (c :: cs)) with
      | error err =>
        have hentry := eq_ok_of_named hkind
        rw [hx] at hentry
        cases hentry
      | ok x =>
        obtain ⟨r, hfind, hr⟩ := exists_of_bind hx
        rw [find, if_neg (Path.bytes_ne_nil_of_isAbsolute rfl)] at hfind
        split at hfind
        · cases hfind
        rw [start_of_isAbsolute rfl, pathPieces_of_tidy (Path.tidy_back hc), Path.named_back hc,
          List.dropWhile_cons_of_neg (by simp [hb])] at hfind
        have hpasses := (walks_of_walk hfind).passes hs hl.filter ⟨_, at_nil fs⟩ hr
          _ ((List.reverse_prefix.2 hzs).filter _)
        rwa [foldl_stack_filter] at hpasses

structure Builds (fs : FileSystem) (w : Bytes) (d : Location) (fs' : FileSystem) : Prop where
  aims : Aims fs (ofNames true d) d w
  free : fs.at (w :: d) = none
  yields : fs.yields d = true
  eq : fs' = fs.insert (w :: d) (fs.newDirectory d)

theorem put_of_lookup_none {es : List (Location × Entry)} (h : es.lookup l = none) :
    put l e es = es ++ [(l, e)] := by
  induction es with
  | nil => rfl
  | cons x es ih =>
    obtain ⟨k, y⟩ := x
    rw [List.lookup_cons] at h
    split at h
    · cases h
    · next hk =>
      have hkl : k ≠ l := fun hc => by simp [hc] at hk
      rw [put, if_neg hkl, ih h, List.cons_append]

theorem erase_insert (hl : l ≠ []) (h : fs.at l = none) : (fs.insert l e).erase l = fs := by
  obtain ⟨entries, mode, workplace⟩ := fs
  rw [at_of_ne_nil _ hl] at h
  have hkeep : entries.filter (·.1 ≠ l) = entries := List.filter_eq_self.2 fun x hx =>
    decide_eq_true (bne_iff_ne.1 (List.lookup_eq_none_iff.1 h x hx)).symm
  rw [insert, if_neg hl, erase]
  simp only [put_of_lookup_none h, List.filter_append, hkeep]
  simp

theorem newDirectory_eq (fs : FileSystem) (d : Location) : ∃ m, fs.newDirectory d = .directory m ∧
    (Entry.directory m).isReadable = true := by
  rw [newDirectory]
  split <;> exact ⟨_, rfl, by decide⟩

theorem Builds.edit (h : Builds fs w d fs') (hs : fs.Sound) :
    ∃ m, Edit fs (w :: d) (some (.directory m)) fs' ∧ (Entry.directory m).isReadable = true := by
  obtain ⟨m, hm, hread⟩ := newDirectory_eq fs d
  refine ⟨m, ?_, hread⟩
  rw [h.eq, hm]
  exact Edit.insert hs h.aims.directory (.inl rfl)

theorem Builds.taken (h : Builds fs w d fs') (hs : fs.Sound) :
    (Rollback.removeDirectory ((ofNames true d).join ⟨w⟩)).run fs' = (.done, fs) := by
  obtain ⟨m, hedit, hread⟩ := h.edit hs
  have haims : Aims fs' (ofNames true d) d w := h.aims.of_leads (h.aims.toLeads.beside hs h.free hedit)
  have hempty : ∀ v, fs'.at (v :: w :: d) = none := fun v => by
    rw [hedit.at_of_ne (by simp)]
    exact hs.none_in (by simp [h.free]) v
  have hyields : fs'.yields d = true := hedit.yields_eq.trans h.yields
  rw [Rollback.removeDirectory_run haims hedit.at_self hread hempty hyields, h.eq,
    erase_insert (List.cons_ne_nil w d) h.free]

theorem makeDirectory_checks {p : Path} {a : Approach} (h : fs.makeDirectory p = .ok fs')
    (ha : fs.approach p = .ok a) (hw : a.ending = .name w) :
    w.length ≤ longestName ∧ fs.yields a.directory = true := by
  obtain ⟨a', ha', h⟩ := exists_of_bind (eq_ok_of_named h)
  obtain rfl := Except.ok.inj (ha.symm.trans ha')
  rw [hw] at h
  obtain ⟨o, hst, h⟩ := exists_of_bind h
  refine ⟨standing_short hst, ?_⟩
  split at h
  · cases h
  · split at h
    · assumption
    · cases h

/-- To go to the last component of a path is to go to the place before it. -/
theorem approach_back {a : Approach} (hc : ∀ w ∈ c :: cs, Path.slash ∉ w) (hb : isBlank c = false)
    (hl : Straight fs [] cs.reverse) (h : fs.approach (back (c :: cs)) = .ok a) :
    Clear fs (spot cs) ∧ a.directory = spot cs ∧ a.ending = endingOf c ∧
      (back (c :: cs)).bytes.length < longestPath := by
  have hpieces : ((back (c :: cs)).pieces.filter (· ≠ [])).reverse = c :: cs.filter (· ≠ []) := by
    rw [Path.pieces_back hc hb, List.filter_cons_of_neg (by simp), List.filter_reverse,
      List.reverse_reverse, List.filter_cons_of_pos (by simpa using (Path.isBlank_eq_false_iff.1 hb).1)]
  rw [approach, if_neg (Path.bytes_ne_nil_of_isAbsolute rfl)] at h
  split at h
  · cases h
  next hfits =>
  simp only [hpieces, start_of_isAbsolute (Path.isAbsolute_back _)] at h
  obtain ⟨r, hwalk, h⟩ := exists_of_bind h
  rw [← List.filter_reverse] at hwalk
  cases r with
  | vacant => cases h
  | entry k e s =>
    obtain ⟨hk, hclear⟩ := (walks_of_walk hwalk).opens hl.filter (.root fs)
    obtain rfl := Except.ok.inj h
    rw [foldl_stack_filter] at hk
    subst hk
    exact ⟨hclear, rfl, rfl, Nat.not_le.1 hfits⟩

theorem makeDirectory_back (hc : ∀ w ∈ c :: cs, Path.slash ∉ w) (hb : isBlank c = false)
    (hl : Straight fs [] cs.reverse) (h : fs.makeDirectory (back (c :: cs)) = .ok fs') :
    spot (c :: cs) = c :: spot cs ∧ Builds fs c (spot cs) fs' := by
  obtain ⟨a, w, ha, hw, hfree, rfl⟩ := makeDirectory_inv h
  obtain ⟨hshort, hyields⟩ := makeDirectory_checks h ha hw
  obtain ⟨hclear, hdirectory, hending, hfits⟩ := approach_back hc hb hl ha
  rw [hdirectory] at hfree hyields ⊢
  obtain ⟨hc₁, hc₂⟩ := Path.isBlank_eq_false_iff.1 hb
  have hup : c ≠ [dot, dot] := by
    rintro rfl
    rw [hending] at hw
    cases hw
  obtain rfl : c = w := by
    rw [hending, endingOf, if_neg hc₂, if_neg hup] at hw
    exact Ending.name.inj hw
  have hspot : spot (c :: cs) = c :: spot cs := by
    rw [Path.spot_cons, Path.stack_name ⟨hc₁, hc₂, hup, hc c List.mem_cons_self⟩]
  have hnames : ∀ v ∈ c :: spot cs, IsName v := hspot ▸ Path.isName_spot hc
  refine ⟨hspot, hclear.aims hnames hshort ?_ ?_, hfree, hyields, rfl⟩
  · rw [← hspot]
    exact Path.hasNul_spot hb (noNul_of_named h)
  · rw [← hspot]
    exact (Path.length_spot_le hb).trans_lt hfits

end Retrace.FileSystem
