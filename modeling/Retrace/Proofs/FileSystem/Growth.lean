import Retrace.Proofs.FileSystem.Operations
import Retrace.Proofs.FileSystem.Reach

/-!
Trees that have only gained entries (`Grown`). Whatever links are on the way, an operation that gets to
the last name of a path shows that the path before it leads to a directory (`leads_of_approach`), and
what it puts there is found under its path as long as nothing is taken away (`Spares.spot?`).
-/
namespace Retrace.FileSystem

open Retrace.Path (IsName dot)

variable {fs fs' fs'' : FileSystem} {n : Nat} {here d l : Location} {w : Bytes} {xs ys zs : List Bytes}
  {e : Entry} {s follow : Bool} {r : Found} {p q f : Path} {a : Approach} {N N' : Path → Entry → Prop}

/-! ### The directory before a name -/

/-- A walk to a directory goes on from there. -/
theorem Walks.extend {found : Found} {manner : Manner} (h : Walks fs manner n here zs found)
    (hmanner : manner = ⟨true, true⟩) (hfound : found = .entry d e s) (hz : zs = xs ++ [[dot]])
    (hys : ys ≠ []) (hnext : fs.admits d = true → ∀ n, Walks fs ⟨follow, true⟩ n d ys r) :
    Walks fs ⟨follow, true⟩ n here (xs ++ ys) r := by
  induction h generalizing xs with
  | arrive => simp at hz
  | blank h ih =>
    cases xs with
    | nil => simp at hz
    | cons x xs =>
      obtain ⟨rfl, hrest⟩ := List.cons.inj hz
      exact .blank (ih hfound hrest)
  | stay ha h ih =>
    subst hmanner
    cases xs with
    | nil =>
      obtain ⟨-, rfl⟩ := List.cons.inj hz
      subst hfound
      cases h
      exact hnext (ha rfl) _
    | cons x xs =>
      obtain ⟨rfl, hrest⟩ := List.cons.inj hz
      exact .stay ha (ih hfound hrest)
  | up ha h ih =>
    subst hmanner
    cases xs with
    | nil => simp at hz
    | cons x xs =>
      obtain ⟨rfl, hrest⟩ := List.cons.inj hz
      exact .up ha (ih hfound hrest)
  | vacant => cases hfound
  | down hw hx h ih =>
    cases xs with
    | nil => exact absurd (List.cons.inj hz).1 hw.ne_dot
    | cons x xs =>
      obtain ⟨rfl, hrest⟩ := List.cons.inj hz
      exact .down hw hx (ih hfound hrest)
  | file hw hx hlast =>
    cases xs with
    | nil => exact absurd (List.cons.inj hz).1 hw.ne_dot
    | cons x xs =>
      obtain ⟨rfl, rfl⟩ := List.cons.inj hz
      simp at hlast
  | link hw hx hf => simp [hmanner] at hf
  | follow hw hx hf h ih =>
    cases xs with
    | nil => exact absurd (List.cons.inj hz).1 hw.ne_dot
    | cons x xs =>
      obtain ⟨rfl, rfl⟩ := List.cons.inj hz
      have hrest := ih hfound (List.append_assoc ..).symm
      rw [List.append_assoc] at hrest
      exact .follow hw hx (by simp [hys]) hrest

theorem Walks.stop {manner : Manner} {m : Nat} (h : Walks fs manner n here xs r)
    (hmanner : manner = ⟨true, true⟩) (hr : r = .entry d (.directory m) s)
    (ha : fs.admits d = true) : Walks fs ⟨true, true⟩ n here (xs ++ [[dot]]) r := by
  induction h with
  | arrive hx =>
    obtain ⟨rfl, -⟩ := Found.entry.inj hr
    exact .stay (fun _ => ha) (.arrive hx)
  | blank _ ih => exact .blank (ih hr)
  | stay ha' _ ih => subst hmanner; exact .stay ha' (ih hr)
  | up ha' _ ih => subst hmanner; exact .up ha' (ih hr)
  | vacant => cases hr
  | down hw hx _ ih => exact .down hw hx (ih hr)
  | file => cases hr
  | link _ _ hf => simp [hmanner] at hf
  | follow hw hx _ _ ih =>
    have hrest := ih hr
    rw [List.append_assoc] at hrest
    exact .follow hw hx (by simp) hrest

/-- A walk that stops at a dot gets to its directory without it. -/
theorem Walks.before_dot {manner : Manner} {zs : List Bytes} (h : Walks fs manner n here zs r)
    (hmanner : manner = ⟨true, true⟩) (hr : r = .entry d e s) (hz : zs = xs ++ [[dot]]) :
    Walks fs ⟨true, true⟩ n here xs r ∧ fs.admits d = true := by
  induction h generalizing xs with
  | arrive => simp at hz
  | blank h ih =>
    cases xs with
    | nil => simp at hz
    | cons x xs =>
      obtain ⟨rfl, hrest⟩ := List.cons.inj hz
      exact (ih hr hrest).imp_left .blank
  | stay ha h ih =>
    subst hmanner
    cases xs with
    | nil =>
      obtain ⟨-, rfl⟩ := List.cons.inj hz
      subst hr
      cases h with
      | arrive hx => exact ⟨.arrive hx, ha rfl⟩
    | cons x xs =>
      obtain ⟨rfl, hrest⟩ := List.cons.inj hz
      exact (ih hr hrest).imp_left (.stay ha)
  | up ha h ih =>
    subst hmanner
    cases xs with
    | nil => simp at hz
    | cons x xs =>
      obtain ⟨rfl, hrest⟩ := List.cons.inj hz
      exact (ih hr hrest).imp_left (.up ha)
  | vacant => cases hr
  | down hw hx h ih =>
    cases xs with
    | nil => exact absurd (List.cons.inj hz).1 hw.ne_dot
    | cons x xs =>
      obtain ⟨rfl, hrest⟩ := List.cons.inj hz
      exact (ih hr hrest).imp_left (.down hw hx)
  | file hw hx hlast =>
    cases xs with
    | nil => exact absurd (List.cons.inj hz).1 hw.ne_dot
    | cons x xs =>
      obtain ⟨rfl, rfl⟩ := List.cons.inj hz
      simp at hlast
  | link _ _ hf => simp [hmanner] at hf
  | follow hw hx hf h ih =>
    cases xs with
    | nil => exact absurd (List.cons.inj hz).1 hw.ne_dot
    | cons x xs =>
      obtain ⟨rfl, rfl⟩ := List.cons.inj hz
      exact (ih hr (List.append_assoc ..).symm).imp_left (.follow hw hx (by simp))

/-- A walk that gets to a name finds the directory before it. -/
theorem Walks.before_name {manner : Manner} {zs : List Bytes} (h : Walks fs manner n here zs r)
    (hs : fs.Sound) (hdots : manner.dots = true) (hz : zs = xs ++ [w]) (hw : IsName w)
    (hd : ∃ m, fs.at here = some (.directory m)) :
    ∃ d m, Walks fs ⟨true, true⟩ n here (xs ++ [[dot]]) (.entry d (.directory m) false) := by
  -- where the name comes next the walk stands in its directory, which it can search
  have hstop : ∀ {n : Nat} {here : Location} {v : Bytes}, Looked fs here v →
      (∃ m, fs.at here = some (.directory m)) →
      ∃ d m, Walks fs ⟨true, true⟩ n here [[dot]] (.entry d (.directory m) false) :=
    fun hlooked ⟨m, hm⟩ => ⟨_, m, .stay (fun _ => hlooked.admits) (.arrive hm)⟩
  obtain ⟨hw₁, hw₂, hw₃, -⟩ := id hw
  induction h generalizing xs with
  | arrive => simp at hz
  | blank h ih =>
    cases xs with
    | nil => exact absurd (List.cons.inj hz).1.symm hw₁
    | cons x xs =>
      obtain ⟨rfl, hrest⟩ := List.cons.inj hz
      obtain ⟨d, m, hwalk⟩ := ih hrest hd
      exact ⟨d, m, .blank hwalk⟩
  | stay ha h ih =>
    cases xs with
    | nil => exact absurd (List.cons.inj hz).1.symm hw₂
    | cons x xs =>
      obtain ⟨rfl, hrest⟩ := List.cons.inj hz
      obtain ⟨d, m, hwalk⟩ := ih hrest hd
      exact ⟨d, m, .stay (fun _ => ha hdots) hwalk⟩
  | up ha h ih =>
    cases xs with
    | nil => exact absurd (List.cons.inj hz).1.symm hw₃
    | cons x xs =>
      obtain ⟨rfl, hrest⟩ := List.cons.inj hz
      obtain ⟨d, m, hwalk⟩ := ih hrest (hs.drop hd)
      exact ⟨d, m, .up (fun _ => ha hdots) hwalk⟩
  | vacant hv _ hlast =>
    cases xs with
    | nil => exact hstop hv hd
    | cons x xs =>
      obtain ⟨rfl, rfl⟩ := List.cons.inj hz
      simp [hw₁] at hlast
  | @down n here v rest m r hv hx h ih =>
    cases xs with
    | nil => exact hstop hv hd
    | cons x xs =>
      obtain ⟨rfl, hrest⟩ := List.cons.inj hz
      obtain ⟨d, m', hwalk⟩ := ih hrest ⟨m, hx⟩
      exact ⟨d, m', .down hv hx hwalk⟩
  | file hv _ hlast =>
    cases xs with
    | nil => exact hstop hv hd
    | cons x xs =>
      obtain ⟨rfl, rfl⟩ := List.cons.inj hz
      simp [hw₁] at hlast
  | link hv =>
    cases xs with
    | nil => exact hstop hv hd
    | cons x xs => simp at hz
  | follow hv hx hf h ih =>
    cases xs with
    | nil => exact hstop hv hd
    | cons x xs =>
      obtain ⟨rfl, rfl⟩ := List.cons.inj hz
      obtain ⟨d, m, hwalk⟩ := ih (List.append_assoc ..).symm (directory_start hd)
      rw [List.append_assoc] at hwalk
      exact ⟨d, m, .follow hv hx (by simp) hwalk⟩

theorem leads_of_entryAt {m : Nat} (hf : f.isAbsolute = true) (ht : f.Tidy) (hnul : f.hasNul = false)
    (h : fs.entryAt true f = .ok (d, .directory m)) (ha : fs.admits d = true) : Leads fs f d := by
  obtain ⟨r, hfind, hreached⟩ := exists_of_bind h
  rw [FileSystem.find, if_neg (Path.bytes_ne_nil_of_isAbsolute hf)] at hfind
  split at hfind
  · cases hfind
  rw [start_of_isAbsolute hf, pathPieces_of_tidy ht] at hfind
  cases r with
  | vacant => cases hreached
  | entry k x s =>
    obtain ⟨rfl, rfl⟩ : k = d ∧ x = .directory m := by
      rw [Found.reached] at hreached
      split at hreached
      · cases hreached
      · exact Prod.mk.inj (Except.ok.inj hreached)
    exact ⟨hf, hnul, ht, m, s, ((walks_of_walk hfind).stop rfl rfl ha).walk⟩

theorem Leads.eq_of_entryAt {k : Location} (h : Leads fs f d) (hx : fs.entryAt true f = .ok (k, e)) :
    k = d ∧ fs.admits d = true := by
  obtain ⟨m, s, hwalk⟩ := h.walk
  obtain ⟨hfirst, hadmits⟩ := (walks_of_walk hwalk).before_dot rfl rfl rfl
  obtain ⟨r, hfind, hreached⟩ := exists_of_bind hx
  rw [FileSystem.find, if_neg (Path.bytes_ne_nil_of_isAbsolute h.absolute)] at hfind
  split at hfind
  · cases hfind
  rw [start_of_isAbsolute h.absolute, pathPieces_of_tidy h.tidy, hfirst.walk] at hfind
  obtain rfl := Except.ok.inj hfind
  rw [Found.reached] at hreached
  split at hreached
  · cases hreached
  · exact ⟨(Prod.mk.inj (Except.ok.inj hreached)).1.symm, hadmits⟩

theorem aims_of_find (hs : fs.Sound) (hf : f.isAbsolute = true) (ht : f.Tidy) (hw : IsName w)
    (hnul : (f.join ⟨w⟩).hasNul = false) (h : fs.find ⟨follow, true⟩ (f.join ⟨w⟩) = .ok r) :
    ∃ d, Aims fs f d w := by
  have hwalk := h
  rw [FileSystem.find, if_neg (Path.bytes_join_name_ne_nil f hw)] at hwalk
  split at hwalk
  · cases hwalk
  rw [start_of_isAbsolute (Path.isAbsolute_join_name hf hw), pathPieces_join_name f hw] at hwalk
  obtain ⟨d, m, hbefore⟩ := (walks_of_walk hwalk).before_name hs rfl rfl hw ⟨_, at_nil fs⟩
  have hnul' : f.hasNul = false := by
    rw [Path.hasNul_join_name f hw, Bool.or_eq_false_iff] at hnul
    exact hnul.1
  have hlead : Leads fs f d := ⟨hf, hnul', ht, m, _, hbefore.walk⟩
  rcases hlead.aims_or_dead hw with haims | hdead
  · exact ⟨d, haims⟩
  · rcases hdead.find with hz | hlong
    · rw [hnul] at hz
      cases hz
    · rw [hlong follow] at h
      cases h

/-- A directory under a name that can be looked up is where the path of the name leads. -/
theorem Aims.leads {m : Nat} (h : Aims fs f d w) (hx : fs.at (w :: d) = some (.directory m))
    (hm : (Entry.directory m).isSearchable = true) : Leads fs (f.join ⟨w⟩) (w :: d) where
  absolute := Path.isAbsolute_join_name h.absolute h.name
  noNul := h.hasNul
  tidy := Path.tidy_join_name h.absolute h.name
  walk := by
    obtain ⟨m', s, hwalk⟩ := h.walk
    obtain ⟨hw₁, hw₂, hw₃, -⟩ := h.name
    have hadmits : fs.admits (w :: d) = true := by simp [admits, hx, hm]
    refine ⟨m, false, ?_⟩
    rw [Path.named_join_name f h.name, List.append_assoc]
    exact ((walks_of_walk hwalk).extend rfl rfl rfl (by simp) fun ha n =>
      .down ⟨hw₁, hw₂, hw₃, ha, h.short⟩ hx (.stay (fun _ => hadmits) (.arrive hx))).walk

/-- An operation that gets to a name of a path has found the directory before it. -/
theorem leads_of_approach (hs : fs.Sound) (hf : f.isAbsolute = true) (ht : f.Tidy) (hw : IsName w)
    (hnul : (f.join ⟨w⟩).hasNul = false) (h : fs.approach (f.join ⟨w⟩) = .ok a) :
    Leads fs f a.directory ∧ a = ⟨a.directory, .name w, false⟩ ∧
      (f.join ⟨w⟩).bytes.length < longestPath := by
  have hfits : (f.join ⟨w⟩).bytes.length < longestPath := by
    by_contra hlong
    rw [approach, if_neg (Path.bytes_join_name_ne_nil f hw), if_pos (Nat.not_lt.1 hlong)] at h
    cases h
  have hdir := approach_directory hs (Path.isAbsolute_join_name hf hw) h
  rw [approach_join_name hf hw hfits] at h
  split at h
  · next k e s hwalk =>
    obtain rfl := Except.ok.inj h
    obtain ⟨m, hm⟩ := hdir
    obtain rfl := Option.some.inj ((walk_entry hwalk).symm.trans hm)
    rw [Path.hasNul_join_name f hw, Bool.or_eq_false_iff] at hnul
    exact ⟨⟨hf, hnul.1, ht, m, s, hwalk⟩, rfl, hfits⟩
  · cases h
  · cases h

theorem aims_of_approach (hs : fs.Sound) (hf : f.isAbsolute = true) (ht : f.Tidy) (hw : IsName w)
    (hnul : (f.join ⟨w⟩).hasNul = false) (hshort : w.length ≤ longestName)
    (h : fs.approach (f.join ⟨w⟩) = .ok a) : Aims fs f a.directory w := by
  obtain ⟨hleads, -, hfits⟩ := leads_of_approach hs hf ht hw hnul h
  rw [Path.hasNul_join_name f hw, Bool.or_eq_false_iff] at hnul
  exact ⟨hleads, hw, by simpa using hnul.2, hshort, hfits⟩

theorem Aims.spot? (h : Aims fs f d w) : fs.spot? (f.join ⟨w⟩) = some (w :: d) :=
  spot?_of_approach h.approach rfl

/-- An entry that can be reached by its path is reached by it as long as nothing is taken away. -/
theorem Spares.spot? (h : Spares fs (fun _ => False) fs') (hs : fs.Sound) (hp : p.isAbsolute = true)
    (hl : fs.spot? p = some l) : fs'.spot? p = some l := by
  obtain ⟨a, ha, hal⟩ := approach_of_spot? hl
  suffices hsame : fs'.approach p = .ok a by rw [FileSystem.spot?, hsame]; exact hal
  rw [approach] at ha ⊢
  split at ha
  · cases ha
  next hne =>
  split at ha
  · cases ha
  next hfits =>
  rw [if_neg hne, if_neg hfits]
  dsimp only at ha ⊢
  split at ha
  · exact ha
  · next v above =>
    rw [start_of_isAbsolute hp] at ha ⊢
    obtain ⟨r, hr, ha⟩ := exists_of_bind ha
    cases r with
    | vacant => cases ha
    | entry k e s =>
      rw [h.walk hs hr]
      exact ha

/-! ### Entries that have come -/

/-- All that stood in a tree still stands, and what is new is found at the end of a path that may have
it. -/
structure Grown (fs : FileSystem) (N : Path → Entry → Prop) (fs' : FileSystem) : Prop extends
    Spares fs (fun _ => False) fs' where
  new : ∀ l e, fs.at l = none → fs'.at l = some e →
    ∃ p, p.isAbsolute = true ∧ fs'.spot? p = some l ∧ N p e

theorem Grown.refl (hs : fs.Sound) : Grown fs N fs where
  toSpares := Spares.refl hs
  new l e hl he := by simp [hl] at he

theorem Grown.mono (h : Grown fs N fs') (hN : ∀ p e, N p e → N' p e) : Grown fs N' fs' where
  toSpares := h.toSpares
  new l e hl he := by
    obtain ⟨p, hp, hspot, hpe⟩ := h.new l e hl he
    exact ⟨p, hp, hspot, hN p e hpe⟩

theorem Grown.insert (h : Grown fs N fs') (hedit : Edit fs' l (some e) fs'') (hl : fs'.at l = none)
    (hp : p.isAbsolute = true) (hspot : fs''.spot? p = some l) (hpe : N p e) : Grown fs N fs'' := by
  have hstep : Spares fs' (fun _ => False) fs'' := hedit.spares fun hc => by simp [hl] at hc
  refine ⟨h.toSpares.trans hstep, fun k x hk hx => ?_⟩
  by_cases hkl : k = l
  · subst hkl
    obtain rfl := Option.some.inj (hedit.at_self.symm.trans hx)
    exact ⟨p, hp, hspot, hpe⟩
  · rw [hedit.at_of_ne hkl] at hx
    obtain ⟨q, hq, hqk, hqx⟩ := h.new k x hk hx
    exact ⟨q, hq, hstep.spot? h.sound hq hqk, hqx⟩

theorem Grown.trans (h : Grown fs N fs') (h' : Grown fs' N fs'') : Grown fs N fs'' where
  toSpares := h.toSpares.trans h'.toSpares
  new l e hl he := by
    cases hx : fs'.at l with
    | none => exact h'.new l e hx he
    | some x =>
      obtain rfl := Option.some.inj ((h'.at_eq l x hx id).symm.trans he)
      obtain ⟨p, hp, hspot, hpx⟩ := h.new l x hl hx
      exact ⟨p, hp, h'.toSpares.spot? h.sound hp hspot, hpx⟩

/-- Trees with the same entries have gained the same. -/
theorem Grown.congr (h : Grown fs N fs') (hs : fs''.Sound) (hk : ∀ k, fs''.at k = fs'.at k) :
    Grown fs N fs'' := by
  have hstep : Spares fs' (fun _ => False) fs'' := ⟨hs, fun k e he _ => (hk k).trans he⟩
  refine ⟨h.toSpares.trans hstep, fun k x hnone hx => ?_⟩
  obtain ⟨q, hq, hqk, hqx⟩ := h.new k x hnone ((hk k).symm.trans hx)
  exact ⟨q, hq, hstep.spot? h.sound hq hqk, hqx⟩

/-- A directory that was made is where its path leads. -/
theorem makeDirectory_grown (hs : fs.Sound) (hf : f.isAbsolute = true) (ht : f.Tidy) (hw : IsName w)
    (h : fs.makeDirectory (f.join ⟨w⟩) = .ok fs') :
    ∃ d m, fs.at (w :: d) = none ∧ Edit fs (w :: d) (some (.directory m)) fs' ∧
      Leads fs' (f.join ⟨w⟩) (w :: d) ∧ fs'.spot? (f.join ⟨w⟩) = some (w :: d) ∧
      (f.join ⟨w⟩).bytes.length < longestPath := by
  have haims : ∃ d, Aims fs f d w := by
    obtain ⟨a, ha, hrest⟩ := exists_of_bind (eq_ok_of_named h)
    obtain ⟨-, hform, -⟩ := leads_of_approach hs hf ht hw (noNul_of_named h) ha
    rw [hform] at hrest
    obtain ⟨o, hst, -⟩ := exists_of_bind hrest
    refine ⟨_, aims_of_approach hs hf ht hw (noNul_of_named h) (Nat.not_lt.1 fun hlong => ?_) ha⟩
    rw [standing, if_pos hlong] at hst
    cases hst
  obtain ⟨d, haims⟩ := haims
  rw [haims.makeDirectory] at h
  split at h
  · cases h
  next hnone =>
  split at h
  · obtain rfl := Except.ok.inj h
    obtain ⟨m, hm, hsearch⟩ : ∃ m, fs.newDirectory d = .directory m ∧
        (Entry.directory m).isSearchable = true :=
      ⟨_, rfl, by split <;> decide⟩
    rw [hm]
    have hedit : Edit fs (w :: d) (some (.directory m)) (fs.insert (w :: d) (.directory m)) :=
      Edit.insert hs haims.directory (.inr (by simp [hnone]))
    obtain ⟨m', s, hwalk⟩ := haims.walk
    have hstep : Spares fs (fun _ => False) _ := hedit.spares fun hc => by simp [hnone] at hc
    have haims' := haims.of_leads
      ⟨haims.absolute, haims.noNul, haims.tidy, m', s, hstep.walk hs hwalk⟩
    exact ⟨d, m, hnone, hedit, haims'.leads hedit.at_self hsearch, haims'.spot?, haims.fits⟩
  · cases h

theorem makeDirectory_ofNames {j : Location} (hs : fs.Sound) (hn : ∀ v ∈ j, IsName v)
    (h : fs.makeDirectory (Path.ofNames true j) = .ok fs') :
    ∃ l m, fs.at l = none ∧ Edit fs l (some (.directory m)) fs' ∧ Leads fs' (Path.ofNames true j) l ∧
      (∀ v, fs'.at (v :: l) = none) ∧ fs'.spot? (Path.ofNames true j) = some l ∧
      (Path.ofNames true j).bytes.length < longestPath := by
  cases j with
  | nil =>
    have happroach : fs.approach (Path.ofNames true []) = .ok ⟨[], .root, true⟩ := rfl
    have hroot := eq_ok_of_named h
    rw [happroach] at hroot
    cases hroot
  | cons w j =>
    have hnames : ∀ v ∈ j, IsName v := fun v hv => hn v (List.mem_cons_of_mem _ hv)
    have hw := hn w List.mem_cons_self
    rw [← Path.ofNames_join j hnames hw] at h ⊢
    obtain ⟨d, m, hnone, hedit, hleads, hspot, hfits⟩ :=
      makeDirectory_grown hs rfl (Path.tidy_ofNames hnames) hw h
    refine ⟨w :: d, m, hnone, hedit, hleads, fun v => ?_, hspot, hfits⟩
    rw [hedit.at_of_ne (by simp)]
    exact hs.none_in (by simp [hnone]) v

theorem aims_of_openEmpty {opened : Location × FileSystem} {mode : Nat} (hs : fs.Sound)
    (hf : f.isAbsolute = true) (ht : f.Tidy) (hw : IsName w)
    (h : fs.openEmpty (f.join ⟨w⟩) mode = .ok opened) : ∃ d, Aims fs f d w := by
  obtain ⟨a, -, hrest⟩ := exists_of_bind (eq_ok_of_named h)
  split at hrest
  · cases hrest
  obtain ⟨r, hr, -⟩ := exists_of_bind hrest
  exact aims_of_find hs hf ht hw (noNul_of_named h) hr

theorem openEmpty_of_copy (h : fs.copy q p = .ok fs') : ∃ m r, fs.openEmpty p m = .ok r := by
  obtain ⟨⟨l, e⟩, -, h⟩ := exists_of_bind h
  dsimp only at h
  split at h
  · cases h
  split at h
  · next m c _ =>
    obtain ⟨r, hopen, -⟩ := exists_of_bind h
    exact ⟨m, r, hopen⟩
  · cases h

/-- A copy at a free place is a new file there. -/
theorem Aims.copy_ok (ha : Aims fs f d w) (hs : fs.Sound) (hnone : fs.at (w :: d) = none)
    (h : fs.copy q (f.join ⟨w⟩) = .ok fs') :
    fs.yields d = true ∧ ∃ m c, Edit fs (w :: d) (some (.file m c)) fs' := by
  obtain ⟨⟨l, e⟩, -, h⟩ := exists_of_bind h
  dsimp only at h
  split at h
  · cases h
  split at h
  · next m c _ =>
    obtain ⟨⟨k, fs₁⟩, hopen, h⟩ := exists_of_bind h
    rw [ha.openEmpty (by simp [hnone]), hnone] at hopen
    dsimp only at hopen
    split at hopen
    · next hyields =>
      obtain ⟨rfl, rfl⟩ := Prod.mk.inj (Except.ok.inj hopen)
      have hempty : Edit fs (w :: d) (some (.file m [])) (fs.insert (w :: d) (.file m [])) :=
        Edit.insert hs ha.directory (.inr (by simp [hnone]))
      dsimp only at h
      split at h
      · obtain rfl := Except.ok.inj h
        exact ⟨hyields, _, _, hempty.trans
          (Edit.insert_file hempty.sound (.inl hempty.at_self) (by simp [hempty.at_self]) _)⟩
      · obtain rfl := Except.ok.inj h
        exact ⟨hyields, _, _, hempty⟩
    · cases hopen
  · cases h

theorem copy_grown (hs : fs.Sound) (hf : f.isAbsolute = true) (ht : f.Tidy) (hw : IsName w)
    (hfree : ∀ d, Aims fs f d w → fs.at (w :: d) = none)
    (h : fs.copy q (f.join ⟨w⟩) = .ok fs') :
    ∃ d m c, fs.at (w :: d) = none ∧ Edit fs (w :: d) (some (.file m c)) fs' ∧
      fs'.spot? (f.join ⟨w⟩) = some (w :: d) := by
  obtain ⟨m, opened, hopen⟩ := openEmpty_of_copy h
  obtain ⟨d, haims⟩ := aims_of_openEmpty hs hf ht hw hopen
  have hnone := hfree d haims
  obtain ⟨-, m, c, hedit⟩ := haims.copy_ok hs hnone h
  have hstep : Spares fs (fun _ => False) fs' := hedit.spares fun hc => by simp [hnone] at hc
  exact ⟨d, m, c, hnone, hedit, hstep.spot? hs (Path.isAbsolute_join_name hf hw) haims.spot?⟩

end Retrace.FileSystem
