import Retrace.Proofs.Atomic
import Retrace.Proofs.Loading
import Retrace.Proofs.Interleaving.Calls

/-!
Missing directories that several rollbacks need. Whoever comes first makes one, and the others are
satisfied with it, so to make the directories before a path comes to the same end alone and among others
(`settles_ensureParent`). Where others have made directories that a rollback alone would not find, both it
alone and it among the others come to have all of them (`Chain.settles`).
-/
namespace Retrace

open FileSystem
open Retrace.Path (IsName dot)

namespace FileSystem

variable {fs fs' : FileSystem} {d l : Location} {w : Bytes} {p : Path}

theorem newDirectory_child (h : fs'.at l = some (fs.newDirectory d)) :
    fs'.newDirectory l = fs.newDirectory d := by
  rw [newDirectory, h, newDirectory]
  split <;> rfl

theorem makeDirectory_of_approach (hp : p.hasNul = false) (ha : fs.approach p = .ok ⟨d, .name w, false⟩)
    (hw : w.length ≤ longestName) :
    fs.makeDirectory p =
      match fs.at (w :: d) with
      | some _ => .error (.errno .alreadyExists)
      | none =>
        if fs.yields d then .ok (fs.insert (w :: d) (fs.newDirectory d)) else .error (.errno .denied) := by
  rw [makeDirectory, named_of_noNul hp, ha]
  simp only [bind, Except.bind, standing, if_neg (Nat.not_lt.2 hw)]
  cases fs.at (w :: d) with
  | none => cases fs.yields d <;> simp
  | some e => rfl

end FileSystem

namespace Division

variable {ι : Type} (D : Division ι) (i : ι)

/-- A way to directories that may be made, from one that is there on. -/
structure Making (made : Location → Prop) (fs : FileSystem) (us pre : List Bytes) (d : Location) : Prop where
  isName : ∀ v ∈ us ++ pre, IsName v
  short : ∀ v ∈ us, v.length ≤ longestName
  goes : ∃ n, LeadsOn fs true mostLinks [] pre.reverse n d
  admits : fs.admits d = true
  yields : fs.yields d = true
  directory : ∃ m, fs.at d = some (.directory m)
  way : ∀ x ∈ fs.walkPassage mostLinks [] (pre.reverse.map (·, true)),
    fs.at x.1 ≠ none ∧ (D.Seen i x.1 ∨ D.Soft x.1)
  place {vs : List Bytes} : vs <:+ us → vs ≠ [] →
    D.own i (vs ++ d) ∨ D.Soft (vs ++ d) ∧ made (vs ++ d) ∧ D.Above i (vs ++ d)

structure Partly (fs g : FileSystem) (us pre : List Bytes) (d : Location) (h : FileSystem) : Prop where
  orderly : D.Orderly h
  way : ∀ x ∈ fs.walkPassage mostLinks [] (pre.reverse.map (·, true)), h.at x.1 = fs.at x.1
  root : h.at [] = fs.at []
  seen {k : Location} : D.Seen i k → (∀ vs, vs <:+ us → vs ≠ [] → k ≠ vs ++ d) → h.at k = g.at k
  stay {k : Location} : D.Soft k → g.at k ≠ none → h.at k = g.at k
  owned {vs : List Bytes} : vs <:+ us → vs ≠ [] → D.own i (vs ++ d) →
    h.at (vs ++ d) = none ∨ h.at (vs ++ d) = some (fs.newDirectory d)

def Whole (us : List Bytes) (d : Location) (h : FileSystem) : Prop :=
  ∀ vs, vs <:+ us → vs ≠ [] → h.at (vs ++ d) ≠ none

variable {D i} {fs fs' g g' h h' : FileSystem} {names ns us pre vs ws xs : List Bytes} {d k l : Location}
  {v w : Bytes} {made : Location → Prop} {P : Path → Prop}
  {R : FileSystem → Prop} {p : Path} {n depth : Nat}

/-! ### Making directories that are missing -/

theorem Making.still (hmk : D.Making i made fs us pre d) (hp : D.Partly i fs g us pre d h) :
    (∃ n, LeadsOn h true mostLinks [] pre.reverse n d) ∧ h.at d = fs.at d := by
  obtain ⟨n, hgoes⟩ := hmk.goes
  exact hgoes.still hmk.admits hmk.directory hp.way hp.root

/-- What stands at one of the places is a directory that was made. -/
theorem Making.newborn (hmk : D.Making i made fs us pre d) (hp : D.Partly i fs g us pre d h)
    (hvs : vs <:+ us) (hne : vs ≠ []) :
    h.at (vs ++ d) = none ∨ h.at (vs ++ d) = some (fs.newDirectory d) := by
  induction vs with
  | nil => exact absurd rfl hne
  | cons v vs ih =>
    rcases hmk.place hvs hne with hown | ⟨hsoft, -, -⟩
    · exact hp.owned hvs hne hown
    · rcases hp.orderly.soft hsoft with hnone | ⟨hnew, -⟩
      · exact .inl hnone
      · right
        rw [hnew]
        change some (h.newDirectory (vs ++ d)) = _
        by_cases hvs' : vs = []
        · subst hvs'
          exact congrArg some (newDirectory_congr (hmk.still hp).2)
        · rcases ih ((List.suffix_cons v vs).trans hvs) hvs' with hnone | hmade
          · -- a directory is not without the one around it
            have habove : h.at (v :: (vs ++ d)) = none := hp.orderly.sound.none_in (by simp [hnone]) v
            rw [List.cons_append, habove] at hnew
            cases hnew
          · exact congrArg some (newDirectory_child hmade)

theorem Making.open (hmk : D.Making i made fs us pre d) (hp : D.Partly i fs g us pre d h)
    (hvs : vs <:+ us) (hthere : Whole vs d h) :
    h.admits (vs ++ d) = true ∧ h.yields (vs ++ d) = true ∧
      h.newDirectory (vs ++ d) = fs.newDirectory d ∧ ∃ m, h.at (vs ++ d) = some (.directory m) := by
  by_cases hne : vs = []
  · subst hne
    obtain ⟨-, hd⟩ := hmk.still hp
    rw [List.nil_append, admits_congr hd, yields_congr hd, newDirectory_congr hd, hd]
    exact ⟨hmk.admits, hmk.yields, rfl, hmk.directory⟩
  · have hnew := (hmk.newborn hp hvs hne).resolve_left (hthere vs List.suffix_rfl hne)
    obtain ⟨ha, hy⟩ := newDirectory_open hnew
    exact ⟨ha, hy, newDirectory_child hnew, _, hnew⟩

theorem Partly.others (hmk : D.Making i made fs us pre d) (hD : D.Fair) (hp : D.Partly i fs g us pre d h)
    (ho : D.Others i none h h') : D.Partly i fs g us pre d h' where
  orderly := ho.orderly
  way x hx := by
    obtain ⟨hne, hseen | hsoft⟩ := hmk.way x hx
    · exact (ho.same hseen).trans (hp.way x hx)
    · exact (ho.stay hsoft (by rw [hp.way x hx]; exact hne)).trans (hp.way x hx)
  root := (ho.same (seen_root hD)).trans hp.root
  seen hk hne := (ho.same hk).trans (hp.seen hk hne)
  stay hk hne := by
    have := hp.stay hk hne
    exact (ho.stay hk (by rw [this]; exact hne)).trans this
  owned hvs hne hown := by
    rw [ho.same (seen_of_own hD hown)]
    exact hp.owned hvs hne hown

theorem Whole.others (hmk : D.Making i made fs us pre d) (hD : D.Fair) (hvs : vs <:+ us)
    (hw : Whole vs d h) (ho : D.Others i none h h') : Whole vs d h' := by
  intro ws hws hne
  rcases hmk.place (hws.trans hvs) hne with hown | ⟨hsoft, -, -⟩
  · rw [ho.same (seen_of_own hD hown)]
    exact hw ws hws hne
  · rw [ho.stay hsoft (hw ws hws hne)]
    exact hw ws hws hne

/-- One more directory is made. -/
theorem Making.make (hD : D.Fair) (hmk : D.Making i made fs us pre d) (hp : D.Partly i fs g us pre d h)
    (hvs : v :: vs <:+ us) (hthere : Whole vs d h) (hnone : h.at (v :: (vs ++ d)) = none) :
    let h' := h.insert (v :: (vs ++ d)) (h.newDirectory (vs ++ d))
    D.Step i made none none h h' ∧ D.Partly i fs g us pre d h' ∧ Whole (v :: vs) d h' := by
  intro h'
  have hvs' : vs <:+ us := (List.suffix_cons v vs).trans hvs
  obtain ⟨ha, hy, hnew, hdir⟩ := hmk.open hp hvs' hthere
  have hedit : Edit h (v :: (vs ++ d)) (some (h.newDirectory (vs ++ d))) h' :=
    Edit.insert hp.orderly.sound hdir (.inl rfl)
  have hplace := hmk.place hvs (List.cons_ne_nil v vs)
  rw [List.cons_append] at hplace
  have hstep : D.Step i made none none h h' := by
    rcases hplace with hown | ⟨hsoft, hmade, habove⟩
    · exact .within hD hp.orderly (.of_edit hedit hown)
    · exact .make hp.orderly hsoft hnone hy ha habove hmade hedit
  refine ⟨hstep, ?_, fun ws hws hne => ?_⟩
  · refine
      { orderly := hstep.orderly
        way := fun x hx => ?_
        root := (hedit.at_of_ne (List.cons_ne_nil _ _).symm).trans hp.root
        seen := fun {k} hk hne => (hedit.at_of_ne (hne _ hvs (List.cons_ne_nil _ _))).trans (hp.seen hk hne)
        stay := fun {k} hk hne => ?_
        owned := fun {ws} hws hne hown => ?_ }
    · rw [hedit.at_of_ne, hp.way x hx]
      intro hc
      obtain ⟨hthere, -⟩ := hmk.way x hx
      rw [← hp.way x hx, hc] at hthere
      exact hthere hnone
    · have hsame := hp.stay hk hne
      rw [hedit.at_of_ne fun hc => hne (by rw [← hsame, hc]; exact hnone)]
      exact hsame
    · by_cases hk : ws ++ d = v :: (vs ++ d)
      · rw [hk, hedit.at_self, hnew]
        exact .inr rfl
      · rw [hedit.at_of_ne hk]
        exact hp.owned hws hne hown
  · rcases List.suffix_cons_iff.1 hws with rfl | hws
    · rw [List.cons_append, hedit.at_self]
      simp
    · rw [hedit.at_of_ne fun hc => ?_]
      · exact hthere ws hws hne
      · have := congrArg List.length hc
        have := hws.length_le
        simp only [List.length_append, List.length_cons] at *
        omega

section

variable (hmk : D.Making i made fs us pre d) (hvs : v :: vs <:+ us)
include hmk hvs

theorem Making.isLookedUp : ∀ u ∈ v :: vs, IsLookedUp u ∧ u.length ≤ longestName := fun u hu =>
  ⟨isLookedUp_of_isName (hmk.isName u (List.mem_append_left _ (hvs.subset hu))),
    hmk.short u (hvs.subset hu)⟩

theorem Making.isName_path : ∀ u ∈ v :: (vs ++ pre), IsName u := by
  obtain ⟨ys, rfl⟩ := hvs
  intro u hu
  refine hmk.isName u ?_
  simp only [List.mem_cons, List.mem_append] at hu ⊢
  tauto

theorem Making.walk (hp : D.Partly i fs g us pre d h) {follow : Bool} {xs : List Bytes} (hxs : GoesOn xs) :
    (h.walk ⟨follow, true⟩ mostLinks [] ((vs ++ pre).reverse ++ xs) = .error .noEntry ∧ ¬Whole vs d h) ∨
      (∃ n, h.walk ⟨follow, true⟩ mostLinks [] ((vs ++ pre).reverse ++ xs) =
        h.walk ⟨follow, true⟩ n (vs ++ d) xs) ∧ Whole vs d h := by
  obtain ⟨⟨n, hgoes⟩, hd⟩ := hmk.still hp
  have hvs' : vs <:+ us := (List.suffix_cons v vs).trans hvs
  have hborn : ∀ ws, ws <:+ vs → ws ≠ [] → ∀ e ∈ h.at (ws ++ d), e.isDirectory = true ∧
      h.admits (ws ++ d) = true := fun ws hws hne e he => by
    have hnew := (hmk.newborn hp (hws.trans hvs') hne).resolve_left (by simp [Option.mem_def.1 he])
    obtain rfl := Option.some.inj (he.symm.trans hnew)
    exact ⟨rfl, (newDirectory_open hnew).1⟩
  rcases walk_chain hgoes ((admits_congr hd).trans hmk.admits)
      (fun u hu => hmk.isLookedUp hvs u (List.mem_cons_of_mem v hu)) hborn hxs with
    ⟨hmiss, ws, hws, hne, hnone⟩ | ⟨hthere, hdirs⟩
  · exact .inl ⟨hmiss, fun hwhole => hwhole ws hws hne hnone⟩
  · refine .inr ⟨⟨n, hthere⟩, fun ws hws hne => ?_⟩
    obtain ⟨m, hm⟩ := hdirs ws hws hne
    simp [hm]

variable (hz : (Path.ofNames true (v :: (vs ++ pre))).hasNul = false)
  (hfits : (Path.ofNames true (v :: (vs ++ pre))).bytes.length < longestPath)
include hz hfits

theorem Making.makeDirectory_missing (hp : D.Partly i fs g us pre d h) (hnot : ¬Whole vs d h) :
    h.makeDirectory (Path.ofNames true (v :: (vs ++ pre))) = .error (.errno .noEntry) := by
  have happ : h.approach (Path.ofNames true (v :: (vs ++ pre))) = .error .noEntry := by
    rw [approach_ofNames (hmk.isName_path hvs), if_neg (Nat.not_le.2 hfits)]
    rcases hmk.walk hvs hp goesOn_dot with ⟨hmiss, -⟩ | ⟨-, hwhole⟩
    · rw [hmiss]
    · exact absurd hwhole hnot
  rw [FileSystem.makeDirectory, named_of_noNul hz, happ]
  rfl

theorem Making.makeDirectory_there (hp : D.Partly i fs g us pre d h) (hwhole : Whole vs d h) :
    h.makeDirectory (Path.ofNames true (v :: (vs ++ pre))) =
      match h.at (v :: (vs ++ d)) with
      | some _ => .error (.errno .alreadyExists)
      | none => .ok (h.insert (v :: (vs ++ d)) (h.newDirectory (vs ++ d))) := by
  obtain ⟨ha, hy, -, m, hm⟩ := hmk.open hp ((List.suffix_cons v vs).trans hvs) hwhole
  have happ : h.approach (Path.ofNames true (v :: (vs ++ pre))) = .ok ⟨vs ++ d, .name v, false⟩ := by
    rw [approach_ofNames (hmk.isName_path hvs), if_neg (Nat.not_le.2 hfits)]
    rcases hmk.walk hvs hp goesOn_dot with ⟨-, hnot⟩ | ⟨⟨n, hthere⟩, -⟩
    · exact absurd hwhole hnot
    · rw [hthere, walk_stay, ha, if_neg (by simp), walk_nil, arrive, hm]
  rw [makeDirectory_of_approach hz happ (hmk.isLookedUp hvs v List.mem_cons_self).2, hy]
  rfl

omit hz in
theorem Making.entryAt (hp : D.Partly i fs g us pre d h) (follow : Bool) :
    Whole (v :: vs) d h ∧ (∃ m, h.entryAt follow (Path.ofNames true (v :: (vs ++ pre))) =
        .ok (v :: (vs ++ d), .directory m)) ∨
      ¬Whole (v :: vs) d h ∧ h.entryAt follow (Path.ofNames true (v :: (vs ++ pre))) = .error .noEntry := by
  obtain ⟨hlooked, hshort⟩ := hmk.isLookedUp hvs v List.mem_cons_self
  have hname : GoesOn [v] := by simp [GoesOn, hlooked.1]
  rw [FileSystem.entryAt, find_ofNames (hmk.isName_path hvs), if_neg (Nat.not_le.2 hfits), List.reverse_cons]
  rcases hmk.walk hvs hp hname with ⟨hmiss, hnot⟩ | ⟨⟨n, hthere⟩, hwhole⟩
  · rw [hmiss]
    exact .inr ⟨fun hwhole => hnot fun ws hws => hwhole ws (hws.trans (List.suffix_cons v vs)), rfl⟩
  · obtain ⟨ha, -⟩ := hmk.open hp ((List.suffix_cons v vs).trans hvs) hwhole
    rw [hthere, walk_name hlooked, ha, if_neg (by simp), if_neg (Nat.not_lt.2 hshort)]
    cases hx : h.at (v :: (vs ++ d)) with
    | none => exact .inr ⟨fun hc => hc (v :: vs) List.suffix_rfl (List.cons_ne_nil v vs) hx, rfl⟩
    | some e =>
      have hall : Whole (v :: vs) d h := fun ws hws hne => by
        rcases List.suffix_cons_iff.1 hws with rfl | hws
        · rw [List.cons_append, hx]; simp
        · exact hwhole ws hws hne
      obtain ⟨-, -, -, m, hm⟩ := hmk.open hp hvs hall
      obtain rfl := Option.some.inj (hx.symm.trans hm)
      refine .inl ⟨hall, m, ?_⟩
      simp only [walk_nil, arrive, hx]
      rfl

theorem Making.status_there (hp : D.Partly i fs g us pre d h) (hwhole : Whole (v :: vs) d h) :
    h.status (Path.ofNames true (v :: (vs ++ pre))) = .ok .directory := by
  rcases hmk.entryAt hvs hfits hp true with ⟨-, m, hm⟩ | ⟨hnot, -⟩
  · rw [FileSystem.status, named_of_noNul hz, hm]
    rfl
  · exact absurd hwhole hnot

theorem Making.linkStatus (hp : D.Partly i fs g us pre d h) :
    Whole (v :: vs) d h ∧ h.linkStatus (Path.ofNames true (v :: (vs ++ pre))) = .ok .directory ∨
      h.linkStatus (Path.ofNames true (v :: (vs ++ pre))) = .error (.errno .noEntry) := by
  rw [FileSystem.linkStatus, named_of_noNul hz]
  rcases hmk.entryAt hvs hfits hp false with ⟨hwhole, m, hm⟩ | ⟨-, hmiss⟩
  · rw [hm]
    exact .inl ⟨hwhole, rfl⟩
  · rw [hmiss]
    exact .inr rfl

theorem Making.perform (hD : D.Fair) (hp : D.Partly i fs g us pre d h) (hwhole : Whole vs d h) :
    let r := (Call.makeDirectory (Path.ofNames true (v :: (vs ++ pre)))).perform h
    D.Step i made none none h r.2 ∧ D.Partly i fs g us pre d r.2 ∧ Whole (v :: vs) d r.2 ∧
      (r.1 = .ok () ∨ r.1 = .error (.errno .alreadyExists)) := by
  have heq := hmk.makeDirectory_there hvs hz hfits hp hwhole
  cases hx : h.at (v :: (vs ++ d)) with
  | none =>
    rw [hx] at heq
    obtain ⟨hstep, hp', hwhole'⟩ := hmk.make hD hp hvs hwhole hx
    simp only [Call.perform, heq, Call.change]
    exact ⟨hstep, hp', hwhole', .inl trivial⟩
  | some e =>
    rw [hx] at heq
    simp only [Call.perform, heq, Call.change]
    refine ⟨.refl hp.orderly, hp, fun ws hws hne => ?_, .inr trivial⟩
    rcases List.suffix_cons_iff.1 hws with rfl | hws
    · rw [List.cons_append, hx]; simp
    · exact hwhole ws hws hne

theorem Making.isDirectory (hD : D.Fair) (hp : D.Partly i fs g us pre d h) (hwhole : Whole (v :: vs) d h) :
    D.Fares i made (fun b held h' => held = none ∧ b = true ∧ D.Partly i fs g us pre d h' ∧
      Whole (v :: vs) d h') (Files.isDirectory (Path.ofNames true (v :: (vs ++ pre)))) none h := by
  refine .bind (.ask fun h₁ ho => ⟨none, .refl ho.orderly, fun h₂ ho₂ => ?_⟩)
  have ho' : D.Others i none h h₂ := ho.trans ho₂
  change D.Others i none h₁ h₂ at ho₂
  simp only [Call.perform, hmk.status_there hvs hz hfits (hp.others hmk hD ho) (hwhole.others hmk hD hvs ho)]
  exact .pure fun h₃ ho₃ => ⟨rfl, rfl, hp.others hmk hD (ho'.trans ho₃),
    hwhole.others hmk hD hvs (ho'.trans ho₃)⟩

theorem Making.fill_one (hD : D.Fair) (hp : D.Partly i fs g us pre d h) (hwhole : Whole vs d h) :
    D.Fares i made (fun a held h' => held = none ∧ a = .ok () ∧ D.Partly i fs g us pre d h' ∧
      Whole (v :: vs) d h') (Files.makeDirectory (Path.ofNames true (v :: (vs ++ pre)))).run none h := by
  refine .bind (.ask fun h₁ ho => ?_)
  obtain ⟨hstep, hp₁, hwhole₁, hreply⟩ := hmk.perform hvs hz hfits hD (hp.others hmk hD ho)
    (hwhole.others hmk hD ((List.suffix_cons v vs).trans hvs) ho)
  refine ⟨none, hstep, fun h₂ ho₂ => ?_⟩
  have hp₂ := hp₁.others hmk hD ho₂
  have hwhole₂ := hwhole₁.others hmk hD hvs ho₂
  rcases hreply with hok | hthere
  · rw [hok]
    exact .pure fun h₃ ho₃ => ⟨rfl, rfl, hp₂.others hmk hD ho₃, hwhole₂.others hmk hD hvs ho₃⟩
  · rw [hthere]
    refine .bind ((hmk.isDirectory hvs hz hfits hD hp₂ hwhole₂).mono ?_)
    rintro b held h₃ ⟨rfl, rfl, hp₃, hwhole₃⟩
    exact .pure fun h₄ ho₄ => ⟨rfl, rfl, hp₃.others hmk hD ho₄, hwhole₃.others hmk hD hvs ho₄⟩

end

theorem noNul_ofNames_cons (hn : ∀ v ∈ w :: ns, IsName v)
    (hz : (Path.ofNames true (w :: ns)).hasNul = false) : (Path.ofNames true ns).hasNul = false := by
  have hw := hn w List.mem_cons_self
  rw [← Path.ofNames_join ns (fun v hv => hn v (List.mem_cons_of_mem w hv)) hw, Path.hasNul_join_name _ hw,
    Bool.or_eq_false_iff] at hz
  exact hz.1

/-- All of the directories come, whatever the others make of them. -/
theorem Making.fill (hD : D.Fair) (hmk : D.Making i made fs us pre d) (hvs : v :: vs <:+ us)
    (hz : (Path.ofNames true (v :: (vs ++ pre))).hasNul = false)
    (hfits : (Path.ofNames true (v :: (vs ++ pre))).bytes.length < longestPath) (hdepth : vs.length < depth)
    (hp : D.Partly i fs g us pre d h) :
    D.Fares i made (fun a held h' => held = none ∧ a = .ok () ∧ D.Partly i fs g us pre d h' ∧
      Whole (v :: vs) d h') (Files.makeDirectories depth (Path.ofNames true (v :: (vs ++ pre)))).run none h := by
  induction depth generalizing v vs h with
  | zero => omega
  | succ depth ih =>
    have hvs' : vs <:+ us := (List.suffix_cons v vs).trans hvs
    rw [Files.makeDirectories, if_neg (Path.bytes_ne_nil_of_isAbsolute (Path.isAbsolute_ofNames _))]
    refine .bind (.ask fun h₁ ho => ?_)
    have hp₁ := hp.others hmk hD ho
    by_cases hwhole : Whole vs d h₁
    · obtain ⟨hstep, hp₂, hwhole₂, hreply⟩ := hmk.perform hvs hz hfits hD hp₁ hwhole
      refine ⟨none, hstep, fun h₂ ho₂ => ?_⟩
      have hp₃ := hp₂.others hmk hD ho₂
      have hwhole₃ := hwhole₂.others hmk hD hvs ho₂
      rcases hreply with hok | hthere
      · rw [hok]
        exact .pure fun h₃ ho₃ => ⟨rfl, rfl, hp₃.others hmk hD ho₃, hwhole₃.others hmk hD hvs ho₃⟩
      · rw [hthere]
        refine .bind ((hmk.isDirectory hvs hz hfits hD hp₃ hwhole₃).mono ?_)
        rintro b held h₃ ⟨rfl, rfl, hp₄, hwhole₄⟩
        exact .pure fun h₄ ho₄ => ⟨rfl, rfl, hp₄.others hmk hD ho₄, hwhole₄.others hmk hD hvs ho₄⟩
    · -- the directories before it come first
      obtain ⟨u, ws, rfl⟩ := List.exists_cons_of_ne_nil fun hc : vs = [] =>
        hwhole fun ws hws hne => absurd (List.suffix_nil.1 (hc ▸ hws)) hne
      have hmiss := hmk.makeDirectory_missing hvs hz hfits hp₁ hwhole
      have hperform : (Call.makeDirectory (Path.ofNames true (v :: (u :: ws ++ pre)))).perform h₁ =
          (.error (.errno .noEntry), h₁) := by rw [Call.perform, hmiss]; rfl
      rw [hperform]
      refine ⟨none, .refl hp₁.orderly, fun h₂ ho₂ => ?_⟩
      have hnames := hmk.isName_path hvs
      dsimp only
      rw [if_pos (by decide), Path.parent?_ofNames_cons hnames]
      dsimp only
      rw [ExceptT.run_bind]
      refine .bind ((ih hvs' (noNul_ofNames_cons hnames hz)
        (Nat.lt_trans (length_ofNames_cons hnames) hfits) (by simpa using hdepth)
        (hp₁.others hmk hD ho₂)).mono ?_)
      rintro a held h₃ ⟨rfl, rfl, hp₃, hwhole₃⟩
      exact hmk.fill_one hvs hz hfits hD hp₃ hwhole₃

/-! ### Directories that the others have made -/

section

variable (hD : D.Fair) (hm : D.Mirrors i fs g) (hn : ∀ v ∈ us ++ pre, IsName v)
  (hc : D.Chain i fs g true us pre n d) (hvs : vs <:+ us)
include hD hm hn hc hvs

theorem Chain.making (hmade : ∀ ws, ws <:+ vs → ws ≠ [] → D.Soft (ws ++ d) → made (ws ++ d)) :
    D.Making i made fs vs pre d := by
  obtain ⟨ys, rfl⟩ := hvs
  have hvs : vs <:+ ys ++ vs := List.suffix_append ys vs
  obtain ⟨v, hv, hthere⟩ := hc.there
  obtain ⟨e, he⟩ := Option.ne_none_iff_exists'.1 hthere
  obtain ⟨hsoft, -⟩ := hc.among hD hm hv (List.cons_ne_nil v []) he
  have hyields : g.yields d = true := by
    rcases hm.among.soft hsoft with hnone | ⟨-, hy, -⟩
    · exact absurd hnone hthere
    · exact hy
  exact
    { isName := fun v hv => hn v (by simp only [List.mem_append] at hv ⊢; tauto)
      short := fun v hv => hc.short v (List.mem_append_right _ hv)
      goes := ⟨n, hc.goes⟩
      admits := hc.admits
      yields := (yields_congr hc.reaches.level.at_self).symm.trans hyields
      directory := (hc.reaches.level d List.suffix_rfl).2
      way := fun x hx => ⟨hc.reaches.present x hx, hc.way x hx⟩
      place := fun {ws} hws hne => (hc.place (hws.trans hvs) hne).imp_right fun hsoft =>
        ⟨hsoft, hmade ws hws hne hsoft, _, hc.own, by
          obtain ⟨zs, rfl⟩ := hws
          exact ⟨ys ++ zs, by simp⟩⟩ }

omit hn in
theorem Chain.partly_among : D.Partly i fs g vs pre d g where
  orderly := hm.among
  way x hx := (hc.way x hx).elim hm.same fun hsoft => hm.more hsoft (hc.reaches.present x hx)
  root := hm.same (seen_root hD)
  seen _ _ := rfl
  stay _ _ := rfl
  owned hws hne hown := .inl ((hm.at_own hD hown).trans (hc.missing (hws.trans hvs) hne))

omit hD hn in
theorem Chain.partly_alone : D.Partly i fs fs vs pre d fs where
  orderly := hm.alone
  way _ _ := rfl
  root := rfl
  seen _ _ := rfl
  stay _ _ := rfl
  owned hws hne _ := .inl (hc.missing (hws.trans hvs) hne)

/-- Once all of the directories are there alone and among the others, nothing tells the two apart. -/
theorem Chain.filled (ha : D.Alone none fs') (hp : D.Partly i fs fs vs pre d fs') (hw : Whole vs d fs')
    (hnew : ∀ k, D.Soft k → fs'.at k ≠ none → fs.at k ≠ none ∨ ∃ ws, ws <:+ vs ∧ ws ≠ [] ∧ k = ws ++ d)
    (hp' : D.Partly i fs g vs pre d g') (hw' : Whole vs d g') : D.Mirrors i fs' g' := by
  have hmaking : D.Making i (fun _ => True) fs vs pre d := hc.making hD hm hn hvs fun _ _ _ _ => trivial
  have hplaces : ∀ ws, ws <:+ vs → ws ≠ [] → g'.at (ws ++ d) = fs'.at (ws ++ d) := fun ws hws hne =>
    ((hmaking.newborn hp' hws hne).resolve_left (hw' ws hws hne)).trans
      ((hmaking.newborn hp hws hne).resolve_left (hw ws hws hne)).symm
  refine
    { alone := ha.orderly
      tidy := fun hk => by_contra fun hne => by cases ha.mine _ hk hne
      among := hp'.orderly
      same := fun {k} hk => ?_
      more := fun {k} hk hne => ?_ }
  · by_cases hplace : ∃ ws, ws <:+ vs ∧ ws ≠ [] ∧ k = ws ++ d
    · obtain ⟨ws, hws, hne, rfl⟩ := hplace
      exact hplaces ws hws hne
    · have hnot : ∀ ws, ws <:+ vs → ws ≠ [] → k ≠ ws ++ d := fun ws hws hne hc =>
        hplace ⟨ws, hws, hne, hc⟩
      rw [hp.seen hk hnot, hp'.seen hk hnot]
      exact hm.same hk
  · rcases hnew k hk hne with hthere | ⟨ws, hws, hne', rfl⟩
    · have hsame := hm.more hk hthere
      rw [hp.stay hk hthere, hp'.stay hk (by rwa [hsame]), hsame]
    · exact hplaces ws hws hne'

/-- A script that makes sure that the directories are there leaves, among the others, what it leaves alone. -/
theorem Chain.settles {s : Script (Except OsError Unit)} (made : Location → Prop)
    (hs : ∀ {made g h}, D.Making i made fs vs pre d → D.Partly i fs g vs pre d h →
      D.Fares i made (fun a held h' => held = none ∧ a = .ok () ∧ D.Partly i fs g vs pre d h' ∧
        Whole vs d h') s none h)
    (hmade : ∀ {k}, D.Soft k → (s.run fs).2.at k ≠ none → made k) :
    D.Fares i made (fun a held g' => held = none ∧ a = (s.run fs).1 ∧ D.Mirrors i (s.run fs).2 g') s none g := by
  refine .of_others fun g₁ ho => .others ?_ ho
  obtain ⟨ks, hks, -⟩ := ho.few
  have hmaking : D.Making i (fun k => ∃ ws, ws <:+ vs ∧ ws ≠ [] ∧ k = ws ++ d) fs vs pre d :=
    hc.making hD hm hn hvs fun ws hws hne _ => ⟨ws, hws, hne, rfl⟩
  have hrun := (hs hmaking (hc.partly_alone hm hvs)).run
    (Nat.zero_lt_of_lt hks) hm.alone_none
  obtain ⟨⟨held, ⟨rfl, hok, hp, hw⟩, ha⟩, -, hnew⟩ := hrun
  refine (hs (hc.making hD hm hn hvs fun ws hws hne hsoft => hmade hsoft (hw ws hws hne))
    (hc.partly_among hD hm hvs)).mono ?_
  rintro a held g' ⟨rfl, rfl, hp', hw'⟩
  exact ⟨rfl, hok.symm, hc.filled hD hm hn hvs ha hp hw hnew hp' hw'⟩

end

/-! ### Directories on the way of a path -/

def Forked (D : Division ι) (i : ι) (fs g : FileSystem) (names ns : List Bytes) : Prop :=
  ∃ us pre xs n d, names = us ++ pre ∧ ns = xs ++ pre ∧ xs ≠ [] ∧ xs <:+ us ∧ D.Chain i fs g true us pre n d

theorem Forked.chain {D : Division ι} {i : ι} {fs g : FileSystem} {names ns : List Bytes} {w : Bytes}
    (h : D.Forked i fs g names (w :: ns)) : ∃ us pre vs n d, names = us ++ pre ∧ ns = vs ++ pre ∧
      w :: vs <:+ us ∧ D.Chain i fs g true us pre n d := by
  obtain ⟨us, pre, xs, n, d, hnames, hxs, hne, hsuffix, hchain⟩ := h
  obtain ⟨v, vs, rfl⟩ := List.exists_cons_of_ne_nil hne
  obtain ⟨rfl, hns⟩ := List.cons.inj hxs
  exact ⟨us, pre, vs, n, d, hnames, hns, hsuffix, hchain⟩

structure Even (fs g : FileSystem) (w : Bytes) (ns : List Bytes) : Prop where
  approach : g.approach (Path.ofNames true (w :: ns)) = fs.approach (Path.ofNames true (w :: ns))
  find (follow : Bool) : g.find ⟨follow, true⟩ (Path.ofNames true (w :: ns)) =
    fs.find ⟨follow, true⟩ (Path.ofNames true (w :: ns))
  place {a : Approach} : fs.approach (Path.ofNames true (w :: ns)) = .ok a → ∃ n d, a = ⟨d, .name w, false⟩ ∧
    Reaches fs g true mostLinks [] (ns.reverse.map (·, true)) n d ∧ fs.admits d = true ∧
    (w.length ≤ longestName → g.at (w :: d) = fs.at (w :: d))

theorem walk_last_unfollowed (hw : IsLookedUp w) (ha : fs.admits d = true) (hshort : w.length ≤ longestName) :
    fs.walk ⟨false, true⟩ n d [w] = match fs.at (w :: d) with
      | none => .ok (.vacant d w false)
      | some e => .ok (.entry (w :: d) e false) := by
  rw [walk_name hw, ha, if_neg (by simp), if_neg (Nat.not_lt.2 hshort)]
  cases hx : fs.at (w :: d) with
  | none => simp
  | some e => cases e <;> simp [walk_nil, arrive, hx]

theorem Calm.parted (hD : D.Fair) (hc : D.Calm i fs names) (hm : D.Mirrors i fs g) (hns : w :: ns <:+ names) :
    D.Forked i fs g names (w :: ns) ∧ (Path.ofNames true (w :: ns)).bytes.length < longestPath ∨
      Even fs g w ns := by
  have hisName : ∀ v ∈ w :: ns, IsName v := fun v hv => hc.isName v (hns.subset hv)
  have hw := hisName w List.mem_cons_self
  have hlooked := isLookedUp_of_isName hw
  by_cases hlong : longestPath ≤ (Path.ofNames true (w :: ns)).bytes.length
  · refine .inr ⟨?_, fun follow => ?_, fun ha => ?_⟩
    · rw [approach_of_long hisName hlong, approach_of_long hisName hlong]
    · rw [find_ofNames hisName, find_ofNames hisName, if_pos hlong, if_pos hlong]
    · rw [approach_of_long hisName hlong] at ha
      cases ha
  rcases hc.compared hD hm hns true with ⟨qs, n, d, v, rest, hfork⟩ | hstep
  · obtain ⟨us, pre, xs, hnames, hns', hne, hxs, hchain⟩ := hc.chain hm hns hfork
    exact .inl ⟨⟨us, pre, xs, n, d, hnames, hns', hne, hxs, hchain⟩, Nat.not_le.1 hlong⟩
  have hsame := hstep.same
  simp only [names_pieces] at hsame
  have hfind : ∀ follow, g.find ⟨follow, true⟩ (Path.ofNames true (w :: ns)) =
      fs.find ⟨follow, true⟩ (Path.ofNames true (w :: ns)) := fun follow => by
    rw [find_ofNames hisName, find_ofNames hisName, if_neg hlong, if_neg hlong, hsame]
  rcases hc.compared hD hm ((List.suffix_cons w ns).trans hns) true with ⟨qs, n, d, v, rest, hfork⟩ | hstep'
  · obtain ⟨us, pre, xs, rfl, rfl, hne, hxs, hchain⟩ := hc.chain hm ((List.suffix_cons w ns).trans hns) hfork
    refine .inl ⟨⟨us, pre, w :: xs, n, d, rfl, rfl, List.cons_ne_nil w xs, ?_, hchain⟩, Nat.not_le.1 hlong⟩
    obtain ⟨ys, hys⟩ := hns
    exact ⟨ys, List.append_cancel_right (by rwa [List.append_assoc])⟩
  rcases hstep'.on with ⟨n, d, hreach⟩ | ⟨err, hf, hf'⟩
  · obtain ⟨m, hd⟩ := (hreach.level d List.suffix_rfl).2
    have happ := approach_of_leadsOn hisName hlong hreach.leads hd
    refine .inr ⟨?_, hfind, fun {a} ha => ?_⟩
    · rw [happ, approach_of_leadsOn hisName hlong hreach.leads' (hreach.level.at_self.trans hd),
        hreach.level.admits]
    · rw [happ] at ha
      by_cases hadmits : fs.admits d = true
      swap
      · rw [if_pos (by simpa using hadmits)] at ha
        cases ha
      rw [hadmits, if_neg (by simp)] at ha
      refine ⟨n, d, (Except.ok.inj ha).symm, hreach, hadmits, fun hshort => ?_⟩
      have hlast := hsame false
      rw [List.reverse_cons, hreach.leads _ _ (goesOn_name hw), hreach.leads' _ _ (goesOn_name hw),
        walk_last_unfollowed hlooked hadmits hshort,
        walk_last_unfollowed hlooked (hreach.level.admits.trans hadmits) hshort] at hlast
      cases hx : fs.at (w :: d) <;> cases hx' : g.at (w :: d) <;> rw [hx, hx'] at hlast <;> simp_all
  · rw [names_pieces] at hf hf'
    refine .inr ⟨by rw [approach_of_fails hisName hlong hf, approach_of_fails hisName hlong hf'], hfind,
      fun {a} ha => ?_⟩
    rw [approach_of_fails hisName hlong hf] at ha
    cases ha

/-! ### One directory -/

def Tells (D : Division ι) (made : Location → Prop) (fs : FileSystem) : Prop :=
  ∀ {k}, D.Soft k → fs.at k ≠ none → made k

theorem Calm.next (hc : D.Calm i fs names) (hm : D.Mirrors i fs g) (hns : w :: ns <:+ names)
    (hreach : Reaches fs g true mostLinks [] (ns.reverse.map (·, true)) n d) (hnone : fs.at (w :: d) = none) :
    D.own i (w :: d) ∨ D.Soft (w :: d) ∧ D.Above i (w :: d) := by
  obtain ⟨ys, rfl⟩ := hns
  have hnames : ys ++ w :: ns = (ys ++ [w]) ++ ns := by simp
  rw [hnames] at hc
  have hmissing : ∀ vs, vs <:+ ys ++ [w] → vs ≠ [] → fs.at (vs ++ d) = none := by
    intro vs hvs hne
    obtain ⟨xs, rfl⟩ := suffix_getLast (List.suffix_append ys [w]) hvs hne
    by_cases hxs : xs = []
    · rw [hxs]
      exact hnone
    · refine hm.alone.sound.none_below (l := w :: d) (by simp [hnone]) ⟨xs, by simp⟩ fun hc => hxs ?_
      have := congrArg List.length hc
      simp only [List.length_append, List.length_cons, List.length_nil] at this
      exact List.length_eq_zero_iff.1 (by omega)
  obtain ⟨hown, hplaces⟩ := hc.through hm hreach (by simp) hmissing
  refine (hplaces [w] (List.suffix_append ys [w]) (by simp)).2.imp_right fun hsoft => ⟨hsoft, _, hown, ?_⟩
  exact ⟨ys, by simp⟩

/-- A missing directory comes, alone and among the others. -/
theorem Mirrors.make (hm : D.Mirrors i fs g) (hl : D.Soft (w :: d)) (hd : g.at d = fs.at d)
    (hdir : ∃ m, fs.at d = some (.directory m)) (hnone : fs.at (w :: d) = none) (hnone' : g.at (w :: d) = none)
    (ha : fs.admits d = true) (hy : fs.yields d = true) :
    D.Mirrors i (fs.insert (w :: d) (fs.newDirectory d)) (g.insert (w :: d) (g.newDirectory d)) ∧
      Edit g (w :: d) (some (g.newDirectory d)) (g.insert (w :: d) (g.newDirectory d)) := by
  have hedit : Edit fs (w :: d) (some (fs.newDirectory d)) _ := Edit.insert hm.alone.sound hdir (.inl rfl)
  have hedit' : Edit g (w :: d) (some (g.newDirectory d)) _ :=
    Edit.insert hm.among.sound (by rwa [hd]) (.inl rfl)
  have hnew : g.newDirectory d = fs.newDirectory d := newDirectory_congr hd
  refine ⟨
    { alone := hm.alone.made hl hnone hy ha hedit
      tidy := fun {k} hk => (hedit.at_of_ne fun hc : k = w :: d => hk.not_soft (hc ▸ hl)).trans (hm.tidy hk)
      among := hm.among.made hl hnone' ((yields_congr hd).trans hy) ((admits_congr hd).trans ha) hedit'
      same := fun {k} hk => ?_
      more := fun {k} hk hne => ?_ }, hedit'⟩
  · by_cases hkl : k = w :: d
    · rw [hkl, hedit.at_self, hedit'.at_self, hnew]
    · rw [hedit.at_of_ne hkl, hedit'.at_of_ne hkl]
      exact hm.same hk
  · by_cases hkl : k = w :: d
    · rw [hkl, hedit.at_self, hedit'.at_self, hnew]
    · rw [hedit.at_of_ne hkl] at hne ⊢
      rw [hedit'.at_of_ne hkl]
      exact hm.more hk hne

/-- A directory on the way of a path is made among the others as it is alone. -/
theorem Even.makeDirectory (hD : D.Fair) (hc : D.Calm i fs names) (hm : D.Mirrors i fs g)
    (hns : w :: ns <:+ names) (he : Even fs g w ns)
    (htells : D.Tells made ((Call.makeDirectory (Path.ofNames true (w :: ns))).perform fs).2) :
    let c := Call.makeDirectory (Path.ofNames true (w :: ns))
    (c.perform g).1 = (c.perform fs).1 ∧ D.Step i made none none g (c.perform g).2 ∧
      D.Mirrors i (c.perform fs).2 (c.perform g).2 := by
  have hfailed : ∀ {err}, fs.makeDirectory (Path.ofNames true (w :: ns)) = .error err →
      g.makeDirectory (Path.ofNames true (w :: ns)) = .error err →
      D.Likewise i fs g (fs.makeDirectory (Path.ofNames true (w :: ns)))
        (g.makeDirectory (Path.ofNames true (w :: ns))) := fun h h' => by
    rw [h, h']
    exact .error _
  by_cases hnul : (Path.ofNames true (w :: ns)).hasNul = true
  · exact (hfailed (by rw [FileSystem.makeDirectory, named_nul hnul])
      (by rw [FileSystem.makeDirectory, named_nul hnul])).change hD hm
  rw [Bool.not_eq_true] at hnul
  cases ha : fs.approach (Path.ofNames true (w :: ns)) with
  | error err =>
    have hbarred : ∀ {h : FileSystem}, h.approach (Path.ofNames true (w :: ns)) = .error err →
        h.makeDirectory (Path.ofNames true (w :: ns)) = .error (.errno err) := fun ha => by
      rw [FileSystem.makeDirectory, named_of_noNul hnul, ha]
      rfl
    exact (hfailed (hbarred ha) (hbarred (he.approach.trans ha))).change hD hm
  | ok a =>
    obtain ⟨n, d, rfl, hreach, hadmits, hsame⟩ := he.place ha
    have ha' := he.approach.trans ha
    by_cases hshort : w.length ≤ longestName
    swap
    · have hlong : ∀ h : FileSystem, h.approach (Path.ofNames true (w :: ns)) = .ok ⟨d, .name w, false⟩ →
          h.makeDirectory (Path.ofNames true (w :: ns)) = .error (.errno .nameTooLong) := fun h ha => by
        rw [FileSystem.makeDirectory, named_of_noNul hnul, ha]
        simp [standing, Nat.not_le.1 hshort, bind, Except.bind]
      exact (hfailed (hlong fs ha) (hlong g ha')).change hD hm
    have heq := makeDirectory_of_approach hnul ha hshort
    have heq' := makeDirectory_of_approach hnul ha' hshort
    rw [hsame hshort, yields_congr hreach.level.at_self] at heq'
    cases hx : fs.at (w :: d) with
    | some e =>
      rw [hx] at heq heq'
      exact (hfailed heq heq').change hD hm
    | none =>
      rw [hx] at heq heq'
      by_cases hy : fs.yields d = true
      swap
      · exact (hfailed (heq.trans (if_neg hy)) (heq'.trans (if_neg hy))).change hD hm
      have hok : fs.makeDirectory (Path.ofNames true (w :: ns)) =
        .ok (fs.insert (w :: d) (fs.newDirectory d)) := heq.trans (if_pos hy)
      have hok' : g.makeDirectory (Path.ofNames true (w :: ns)) =
        .ok (g.insert (w :: d) (g.newDirectory d)) := heq'.trans (if_pos hy)
      have hdir := (hreach.level d List.suffix_rfl).2
      have hd := hreach.level.at_self
      have hnone' : g.at (w :: d) = none := (hsame hshort).trans hx
      simp only [Call.perform, hok, hok', Call.change] at htells ⊢
      rcases hc.next hm hns hreach hx with hown | ⟨hsoft, habove⟩
      · have hlike := Likewise.insert hD hm hown (e := fs.newDirectory d) hdir (by rwa [List.tail_cons, hd])
          (.inl rfl)
        rw [newDirectory_congr hd]
        obtain ⟨-, hstep, hm'⟩ := hlike.change hD hm
        exact ⟨trivial, hstep, hm'⟩
      · obtain ⟨hm', hedit'⟩ := hm.make hsoft hd hdir hx hnone' hadmits hy
        refine ⟨trivial, .make hm.among hsoft hnone' ((yields_congr hd).trans hy)
          ((admits_congr hd).trans hadmits) habove (htells hsoft ?_) hedit', hm'⟩
        rw [at_insert _ _ _ _ (List.cons_ne_nil w d), if_pos rfl]
        simp

theorem Even.status (he : Even fs g w ns) :
    g.status (Path.ofNames true (w :: ns)) = fs.status (Path.ofNames true (w :: ns)) := by
  rw [FileSystem.status, FileSystem.status, entryAt, entryAt, he.find]

theorem Even.linkStatus (he : Even fs g w ns) :
    g.linkStatus (Path.ofNames true (w :: ns)) = fs.linkStatus (Path.ofNames true (w :: ns)) := by
  rw [FileSystem.linkStatus, FileSystem.linkStatus, entryAt, entryAt, he.find]

theorem Chain.status_alone (hc : D.Chain i fs g true us pre n d) (hn : ∀ v ∈ vs ++ pre, IsName v)
    (hvs : vs <:+ us) (hne : vs ≠ []) (hz : (Path.ofNames true (vs ++ pre)).hasNul = false)
    (hfits : (Path.ofNames true (vs ++ pre)).bytes.length < longestPath) (follow : Bool) :
    named (Path.ofNames true (vs ++ pre)) ((fs.entryAt follow (Path.ofNames true (vs ++ pre))).map (·.2.kind)) =
      .error (.errno .noEntry) := by
  rw [named_of_noNul hz, entryAt, find_ofNames hn, if_neg (Nat.not_le.2 hfits)]
  have halone : (fs.walk ⟨follow, true⟩ mostLinks [] (vs ++ pre).reverse >>= Found.reached) = .error .noEntry :=
    hc.reached_alone hvs hne
  rw [show (bind (fs.walk ⟨follow, true⟩ mostLinks [] (vs ++ pre).reverse) Found.reached) = _ from halone]
  rfl

/-- Where the others have made a directory, the rollback alone could make it, unless even the directory
before it is missing. -/
theorem Forked.makeDirectory_alone (hD : D.Fair) (hm : D.Mirrors i fs g) (hn : ∀ v ∈ names, IsName v)
    (hforked : D.Forked i fs g names (w :: ns)) (hz : (Path.ofNames true (w :: ns)).hasNul = false)
    (hfits : (Path.ofNames true (w :: ns)).bytes.length < longestPath) :
    (∃ fs', fs.makeDirectory (Path.ofNames true (w :: ns)) = .ok fs') ∨
      fs.makeDirectory (Path.ofNames true (w :: ns)) = .error (.errno .noEntry) ∧
        fs.status (Path.ofNames true ns) = .error (.errno .noEntry) := by
  obtain ⟨us, pre, vs, n, d, rfl, rfl, hsuffix, hchain⟩ := hforked.chain
  have hmaking : D.Making i (fun _ => True) fs us pre d :=
    hchain.making hD hm hn (List.suffix_refl us) fun _ _ _ _ => trivial
  have hpartly := hchain.partly_alone hm (List.suffix_refl us)
  by_cases hvs : vs = []
  · subst hvs
    have hmade := hmaking.makeDirectory_there hsuffix hz hfits hpartly fun ws hws hne =>
      absurd (List.suffix_nil.1 hws) hne
    rw [show fs.at (w :: ([] ++ d)) = none from hchain.missing hsuffix (by simp)] at hmade
    exact .inl ⟨_, hmade⟩
  · have hmiss := hchain.missing ((List.suffix_cons w vs).trans hsuffix) hvs
    refine .inr ⟨hmaking.makeDirectory_missing hsuffix hz hfits hpartly fun hwhole =>
      hwhole vs List.suffix_rfl hvs hmiss, ?_⟩
    have hisName := hmaking.isName_path hsuffix
    exact hchain.status_alone (fun v hv => hisName v (List.mem_cons_of_mem w hv))
      ((List.suffix_cons w vs).trans hsuffix) hvs (noNul_ofNames_cons hisName hz)
      ((length_ofNames_cons hisName).trans hfits) true

structure Along (D : Division ι) (i : ι) (made : Location → Prop) (names : List Bytes) (fs : FileSystem) :
    Prop where
  calm : D.Calm i fs names
  tells : D.Tells made fs

theorem settles_isDirectory (h : R fs → ∀ g, D.Mirrors i fs g → g.status p = fs.status p) :
    D.Settles i made R (Files.isDirectory p) fs :=
  .bind (.look (fun _ => rfl) h) (by
    split <;> exact .pure _)

theorem makeDirectory_nul (hz : p.hasNul = true) (h : FileSystem) :
    (Call.makeDirectory p).perform h = (.error .nulByte, h) := by
  rw [Call.perform, FileSystem.makeDirectory, named_nul hz]
  rfl

theorem status_nul (hz : p.hasNul = true) (h : FileSystem) : h.status p = .error .nulByte := by
  rw [FileSystem.status, named_nul hz]

theorem Calm.status_of_error (hD : D.Fair) (hc : D.Calm i fs names) (hm : D.Mirrors i fs g)
    (hns : w :: ns <:+ names) (hz : (Path.ofNames true (w :: ns)).hasNul = false) {e : OsError}
    (he : fs.makeDirectory (Path.ofNames true (w :: ns)) = .error e)
    (hup : e.isNotFound = true → fs.status (Path.ofNames true ns) = .ok .directory) :
    g.status (Path.ofNames true (w :: ns)) = fs.status (Path.ofNames true (w :: ns)) := by
  rcases hc.parted hD hm hns with ⟨hforked, hfits⟩ | heven
  · rcases hforked.makeDirectory_alone hD hm hc.isName hz hfits with ⟨fs', hok⟩ | ⟨hmiss, hnone⟩
    · rw [hok] at he
      cases he
    · rw [hmiss] at he
      obtain rfl := Except.error.inj he
      rw [hup (by decide)] at hnone
      cases hnone
  · exact heven.status

theorem perform_makeDirectory_error {e : OsError} (h : fs.makeDirectory p = .error e) :
    (Call.makeDirectory p).perform fs = (.error e, fs) := by
  rw [Call.perform, h]
  rfl

/-- The last directory of a path is made where the one before it is there. -/
theorem settles_makeDirectory (hD : D.Fair) (hns : w :: ns <:+ names)
    (hup : fs.status (Path.ofNames true ns) = .ok .directory) :
    D.Settles i made (D.Along i made names) (Files.makeDirectory (Path.ofNames true (w :: ns))).run fs := by
  by_cases hz : (Path.ofNames true (w :: ns)).hasNul = true
  · refine .fixed (makeDirectory_nul hz) (.bind (settles_isDirectory fun _ g _ => ?_) ?_)
    · rw [status_nul hz, status_nul hz]
    · split <;> exact .pure _
  rw [Bool.not_eq_true] at hz
  refine .call (fun hready g hm _ => ?_) ?_
  · have hc := (hready fs (Script.mem_stages_self _ fs)).calm
    rcases hc.parted hD hm hns with ⟨hforked, hfits⟩ | heven
    · -- only the last directory can be the one that the others have made
      obtain ⟨us, pre, vs, n, d, rfl, rfl, hsuffix, hchain⟩ := hforked.chain
      have hisName : ∀ u ∈ w :: (vs ++ pre), IsName u := fun u hu => hc.isName u (hns.subset hu)
      obtain rfl : vs = [] := by
        by_contra hvs
        have hnone := hchain.status_alone (fun v hv => hisName v (List.mem_cons_of_mem w hv))
          ((List.suffix_cons w vs).trans hsuffix) hvs (noNul_ofNames_cons hisName hz)
          ((length_ofNames_cons hisName).trans hfits) true
        rw [FileSystem.status, hnone] at hup
        cases hup
      exact .inl (hchain.settles hD hm hc.isName hsuffix made
        (fun hmk hp => hmk.fill_one List.suffix_rfl hz hfits hD hp fun ws hws hne =>
          absurd (List.suffix_nil.1 hws) hne)
        (hready _ (Script.mem_stages_run _ fs)).tells)
    · exact .inr (heven.makeDirectory hD hc hm hns (hready _ (by
        exact List.mem_cons_of_mem _ (Script.mem_stages_self _ _))).tells)
  · cases hr : fs.makeDirectory (Path.ofNames true (w :: ns)) with
    | ok fs' =>
      rw [Call.perform, hr]
      exact .pure _
    | error e =>
      rw [perform_makeDirectory_error hr]
      refine .bind (settles_isDirectory fun halong g hm => ?_) (by split <;> exact .pure _)
      exact halong.calm.status_of_error hD hm hns hz hr fun _ => hup

/-! ### All directories before a path -/

theorem isDirectory_run (fs : FileSystem) (p : Path) :
    (Files.isDirectory p).run fs = (true, fs) ∧ fs.status p = .ok .directory ∨
      (Files.isDirectory p).run fs = (false, fs) := by
  simp only [Files.isDirectory, Script.run_bind, Script.run_ask, Call.perform]
  rcases fs.status p with e | ⟨_ | _ | _⟩
  · exact .inr rfl
  · exact .inr rfl
  · exact .inl ⟨rfl, rfl⟩
  · exact .inr rfl

theorem status_of_makeDirectory (hs : fs.Sound) (hn : ∀ v ∈ ns, IsName v)
    (h : ((Files.makeDirectory (Path.ofNames true ns)).run.run fs).1 = .ok ()) :
    ((Files.makeDirectory (Path.ofNames true ns)).run.run fs).2.status (Path.ofNames true ns) =
      .ok .directory := by
  simp only [Files.makeDirectory, Files.attempt, ExceptT.run_mk, Script.run_bind, Script.run_ask,
    Call.perform] at h ⊢
  cases hmade : fs.makeDirectory (Path.ofNames true ns) with
  | ok fs' =>
    obtain ⟨l, m, -, -, hleads, -, -, hfits⟩ := makeDirectory_ofNames hs hn hmade
    exact hleads.status hfits
  | error e =>
    simp only [hmade, Call.change, Script.run_bind] at h ⊢
    rcases isDirectory_run fs (Path.ofNames true ns) with ⟨hrun, hstatus⟩ | hrun
    · simp only [hrun, if_true, Script.run_pure]
      exact hstatus
    · simp [hrun] at h

/-- Directories that were made are there. -/
theorem status_of_makeDirectories (hs : fs.Sound) (hn : ∀ v ∈ ns, IsName v)
    (h : ((Files.makeDirectories (depth + 1) (Path.ofNames true ns)).run.run fs).1 = .ok ()) :
    ((Files.makeDirectories (depth + 1) (Path.ofNames true ns)).run.run fs).2.status (Path.ofNames true ns) =
      .ok .directory := by
  simp only [Files.makeDirectories, Path.bytes_ne_nil_of_isAbsolute (Path.isAbsolute_ofNames ns), if_false,
    Files.attempt, ExceptT.run_mk, Script.run_bind, Script.run_ask, Call.perform] at h ⊢
  cases hmade : fs.makeDirectory (Path.ofNames true ns) with
  | ok fs' =>
    obtain ⟨l, m, -, -, hleads, -, -, hfits⟩ := makeDirectory_ofNames hs hn hmade
    exact hleads.status hfits
  | error e =>
    simp only [hmade, Call.change] at h ⊢
    split at h
    · next hnotFound =>
      rw [if_pos hnotFound]
      cases ns with
      | nil => cases h
      | cons w ns =>
        rw [Path.parent?_ofNames_cons hn] at h ⊢
        simp only [ExceptT.run_bind, Script.run_bind] at h ⊢
        have hgrown := Files.adds_makeDirectories (N := fun _ _ => True) (Path.isAbsolute_ofNames ns)
          (fun _ _ _ => trivial) depth fs hs
        cases hup : ((Files.makeDirectories depth (Path.ofNames true ns)).run.run fs).1 with
        | error e => rw [hup] at h; cases h
        | ok u =>
          rw [hup] at h
          exact status_of_makeDirectory hgrown.sound hn h
    · next hnotFound =>
      rw [if_neg hnotFound]
      simp only [Script.run_bind] at h ⊢
      rcases isDirectory_run fs (Path.ofNames true ns) with ⟨hrun, hstatus⟩ | hrun
      · simp only [hrun, if_true, Script.run_pure]
        exact hstatus
      · simp [hrun] at h

theorem makeDirectory_root (h : FileSystem) :
    (Call.makeDirectory (Path.ofNames true [])).perform h = (.error (.errno .alreadyExists), h) := rfl

theorem status_root (h : FileSystem) : h.status (Path.ofNames true []) = .ok .directory := rfl

theorem settles_makeDirectories (hD : D.Fair) (hns : ns <:+ names) (hdepth : ns.length < depth) :
    D.Settles i made (D.Along i made names) (Files.makeDirectories depth (Path.ofNames true ns)).run fs := by
  induction depth generalizing ns fs with
  | zero => omega
  | succ depth ih =>
    rw [Files.makeDirectories, if_neg (Path.bytes_ne_nil_of_isAbsolute (Path.isAbsolute_ofNames ns))]
    cases ns with
    | nil =>
      refine .fixed makeDirectory_root (.bind (settles_isDirectory fun _ g _ => ?_) ?_)
      · rw [status_root, status_root]
      · split <;> exact .pure _
    | cons w ns =>
      by_cases hz : (Path.ofNames true (w :: ns)).hasNul = true
      · refine .fixed (makeDirectory_nul hz) (.bind (settles_isDirectory fun _ g _ => ?_) ?_)
        · rw [status_nul hz, status_nul hz]
        · split <;> exact .pure _
      rw [Bool.not_eq_true] at hz
      refine .call (fun hready g hm _ => ?_) ?_
      · have hc := (hready fs (Script.mem_stages_self _ fs)).calm
        rcases hc.parted hD hm hns with ⟨hforked, hfits⟩ | heven
        · obtain ⟨us, pre, vs, n, d, rfl, rfl, hsuffix, hchain⟩ := hforked.chain
          left
          have hfill := hchain.settles hD hm hc.isName hsuffix made
            (fun hmk hp => hmk.fill hD List.suffix_rfl hz hfits
              (Nat.lt_of_le_of_lt (by simp only [List.length_cons, List.length_append]; omega) hdepth) hp)
          rw [Files.makeDirectories, if_neg (Path.bytes_ne_nil_of_isAbsolute (Path.isAbsolute_ofNames _))] at hfill
          exact hfill (hready _ (Script.mem_stages_run _ fs)).tells
        · exact .inr (heven.makeDirectory hD hc hm hns
            (hready _ (List.mem_cons_of_mem _ (Script.mem_stages_self _ _))).tells)
      · cases hr : fs.makeDirectory (Path.ofNames true (w :: ns)) with
        | ok fs' =>
          rw [Call.perform, hr]
          exact .pure _
        | error e =>
          rw [perform_makeDirectory_error hr]
          dsimp only
          by_cases hnotFound : e.isNotFound = true
          · rw [if_pos hnotFound]
            refine .of_ready fun halong hs => ?_
            have hn : ∀ v ∈ w :: ns, IsName v := fun v hv => halong.calm.isName v (hns.subset hv)
            rw [Path.parent?_ofNames_cons hn]
            dsimp only
            rw [ExceptT.run_bind]
            refine .bind (ih ((List.suffix_cons w ns).trans hns) (by simpa using hdepth)) ?_
            obtain ⟨depth, rfl⟩ := Nat.exists_eq_succ_of_ne_zero (n := depth) (by rintro rfl; simp at hdepth)
            cases hup : ((Files.makeDirectories (depth + 1) (Path.ofNames true ns)).run.run fs).1 with
            | error e => exact .pure _
            | ok u =>
              exact settles_makeDirectory hD hns
                (status_of_makeDirectories hs (fun v hv => hn v (List.mem_cons_of_mem w hv)) hup)
          · rw [if_neg hnotFound]
            refine .bind (settles_isDirectory fun halong g hm => ?_) (by split <;> exact .pure _)
            exact halong.calm.status_of_error hD hm hns hz hr fun h => absurd h hnotFound

theorem settles_makePath (hD : D.Fair) (hns : ns <:+ names) :
    D.Settles i made (D.Along i made names) (Files.makePath (Path.ofNames true ns)).run fs := by
  refine .of_ready fun halong _ => settles_makeDirectories hD hns ?_
  by_cases hne : ns = []
  · rw [hne]
    exact Nat.succ_pos _
  · rw [Path.pieces_ofNames (fun v hv => halong.calm.isName v (hns.subset hv)) hne, List.length_cons,
      List.length_reverse]
    omega

theorem linkStatus_of_status {kind : FileKind} (h : fs.status p = .ok kind) :
    ∃ kind, fs.linkStatus p = .ok kind := by
  have hz := noNul_of_named h
  have hmap := eq_ok_of_named h
  cases hx : fs.entryAt true p with
  | error e => rw [hx] at hmap; cases hmap
  | ok x =>
    obtain ⟨x', hx'⟩ := entryAt_unfollowed hx
    exact ⟨x'.2.kind, by rw [FileSystem.linkStatus, named_of_noNul hz, hx']; rfl⟩

theorem ensureParent_run_cons (hn : ∀ v ∈ w :: ns, IsName v) :
    (Files.ensureParent (Path.ofNames true (w :: ns))).run =
      Script.ask (.linkStatus (Path.ofNames true ns)) >>= fun r => match r with
        | .ok _ => pure (.ok ())
        | .error _ => (Files.makePath (Path.ofNames true ns)).run := by
  rw [Files.ensureParent, Path.parent?_ofNames_cons hn]
  dsimp only
  rw [if_neg (Path.bytes_ne_nil_of_isAbsolute (Path.isAbsolute_ofNames ns)), ExceptT.run_bind]
  change ((Files.present (Path.ofNames true ns) >>= fun a => pure (Except.ok a)) >>= _) = _
  rw [LawfulMonad.bind_assoc, Files.present, LawfulMonad.bind_assoc]
  congr 1
  funext r
  cases r <;> rfl

theorem linkStatus_of_ensureParent (hs : fs.Sound) (hn : ∀ v ∈ w :: ns, IsName v)
    (h : ((Files.ensureParent (Path.ofNames true (w :: ns))).run.run fs).1 = .ok ()) :
    ∃ kind, ((Files.ensureParent (Path.ofNames true (w :: ns))).run.run fs).2.linkStatus (Path.ofNames true ns) =
      .ok kind := by
  rw [ensureParent_run_cons hn, Script.run_bind, Script.run_ask, Call.perform] at h ⊢
  cases hup : fs.linkStatus (Path.ofNames true ns) with
  | ok kind => exact ⟨kind, hup⟩
  | error e =>
    rw [hup] at h
    exact linkStatus_of_status
      (status_of_makeDirectories hs (fun v hv => hn v (List.mem_cons_of_mem w hv)) h)

/-- The directories before a path come to be there alone and among the others. -/
theorem settles_ensureParent (hD : D.Fair) :
    D.Settles i made (D.Along i made names) (Files.ensureParent (Path.ofNames true names)).run fs := by
  refine .of_ready fun halong _ => ?_
  obtain ⟨w, ns, rfl⟩ := List.exists_cons_of_ne_nil halong.calm.ne_nil
  rw [ensureParent_run_cons halong.calm.isName]
  refine .call (fun hready g hm _ => ?_) ?_
  · have hlook : g.linkStatus (Path.ofNames true ns) = fs.linkStatus (Path.ofNames true ns) → _ := fun heq =>
      (⟨heq, .refl hm.among, hm⟩ : ((Call.linkStatus (Path.ofNames true ns)).perform g).1 =
        ((Call.linkStatus (Path.ofNames true ns)).perform fs).1 ∧ D.Step i made none none g g ∧ D.Mirrors i fs g)
    cases ns with
    | nil => exact .inr (hlook rfl)
    | cons v ns =>
      by_cases hz : (Path.ofNames true (v :: ns)).hasNul = true
      · exact .inr (hlook (by rw [FileSystem.linkStatus, FileSystem.linkStatus, named_nul hz, named_nul hz]))
      rw [Bool.not_eq_true] at hz
      have hc := halong.calm
      rcases hc.parted hD hm (List.suffix_cons w (v :: ns)) with
        ⟨⟨us, pre, xs, n, d, hnames, hxs, hne, hsuffix, hchain⟩, hfits⟩ | heven
      · obtain ⟨u, vs, rfl⟩ := List.exists_cons_of_ne_nil hne
        obtain rfl : v = u := (List.cons.inj hxs).1
        obtain rfl : ns = vs ++ pre := (List.cons.inj hxs).2
        left
        refine hchain.settles hD hm (hnames ▸ hc.isName) hsuffix made (fun {made g h} hmk hp => ?_)
          (hready _ (Script.mem_stages_run _ fs)).tells
        refine .bind (.ask fun h₁ ho => ⟨none, .refl ho.orderly, fun h₂ ho₂ => ?_⟩)
        have hp₁ := hp.others hmk hD ho
        have hp₂ := hp₁.others hmk hD ho₂
        simp only [Call.perform]
        rcases hmk.linkStatus List.suffix_rfl hz hfits hp₁ with ⟨hwhole, hthere⟩ | hmiss
        · rw [hthere]
          exact .pure fun h₃ ho₃ => ⟨rfl, rfl, hp₂.others hmk hD ho₃,
            (hwhole.others hmk hD List.suffix_rfl ho₂).others hmk hD List.suffix_rfl ho₃⟩
        · rw [hmiss]
          refine hmk.fill hD List.suffix_rfl hz hfits ?_ hp₂
          rw [Path.pieces_ofNames (fun u hu => hc.isName u (List.mem_cons_of_mem w hu)) (List.cons_ne_nil _ _)]
          simp only [List.length_cons, List.length_reverse, List.length_append]
          omega
      · exact .inr (hlook heven.linkStatus)
  · rw [Call.perform]
    cases fs.linkStatus (Path.ofNames true ns) with
    | ok kind => exact .pure _
    | error e => exact settles_makePath hD (List.suffix_cons w ns)

/-- Once the directory before a path is there, the others have not made it either. -/
theorem Calm.abreast (hD : D.Fair) (hc : D.Calm i fs (w :: ns)) (hm : D.Mirrors i fs g)
    (hup : ∃ kind, fs.linkStatus (Path.ofNames true ns) = .ok kind) :
    D.Abreast i fs g w (Path.ofNames true (w :: ns)) := by
  refine (hc.approached hD hm).resolve_right fun hbehind => ?_
  obtain ⟨kind, hkind⟩ := hup
  have hmap := eq_ok_of_named hkind
  rw [hbehind.missing] at hmap
  cases hmap

end Division
end Retrace
