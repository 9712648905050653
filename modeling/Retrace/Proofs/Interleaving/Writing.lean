import Retrace.Proofs.Interleaving.Directories

/-!
Files that are written while others work on the same tree. The temporary file may get another name than it
would have alone, but one as long (`Seated.length_next`), and whatever the others do it goes to its place or away
again, so that a written file ends as it would alone (`settles_writeAtomic`).
-/
namespace Retrace

open FileSystem
open Retrace.Path (IsName dot)

namespace Division

variable {ι : Type} (D : Division ι) (i : ι)

structure Rests (h h' : FileSystem) : Prop where
  orderly : D.Orderly h'
  seen {k : Location} : D.Seen i k → h'.at k = h.at k
  stay {k : Location} : D.Soft k → h.at k ≠ none → h'.at k = h.at k

/-- A path that leads, in the tree `fs`, to a directory in which an entry belongs to the rollback. -/
structure Seated (fs : FileSystem) (ns : List Bytes) (d : Location) (w : Bytes) : Prop where
  isName : ∀ v ∈ w :: ns, IsName v
  noNul : (Path.ofNames true ns).hasNul = false
  goes : ∃ n, LeadsOn fs true mostLinks [] ns.reverse n d
  admits : fs.admits d = true
  directory : ∃ m, fs.at d = some (.directory m)
  way : ∀ x ∈ fs.walkPassage mostLinks [] (ns.reverse.map (·, true)),
    fs.at x.1 ≠ none ∧ (D.Seen i x.1 ∨ D.Soft x.1)
  own : D.own i (w :: d)

structure Holding (h₀ : FileSystem) (l : Location) (c : Bytes) (h : FileSystem) : Prop where
  sound : h.Sound
  file : h.at l = some (.file 0o600 c)
  place : D.own i l ∨ D.Scratch l
  rests : D.Rests i h₀ (h.erase l)

/-- A tree that rests but for one entry. -/
structure Ends (h₀ : FileSystem) (l : Location) (o : Option Entry) (h : FileSystem) : Prop where
  orderly : D.Orderly h
  seen {k : Location} : D.Seen i k → k ≠ l → h.at k = h₀.at k
  stay {k : Location} : D.Soft k → h₀.at k ≠ none → h.at k = h₀.at k
  entry : h.at l = o

variable {D i} {fs fs' g h h' h₀ : FileSystem} {ns : List Bytes} {d k l : Location} {v w : Bytes}
  {content c : Bytes} {made : Location → Prop} {o : Option Entry} {held held' : Option Location} {m : Nat}
  {R : FileSystem → Prop} {P : Path → Prop} {p : Path}

/-! ### Trees that rest -/

theorem Rests.refl (ho : D.Orderly h) : D.Rests i h h := ⟨ho, fun _ => rfl, fun _ _ => rfl⟩

theorem Rests.others (hr : D.Rests i h₀ h) (ho : D.Others i held h h') : D.Rests i h₀ h' where
  orderly := ho.orderly
  seen hk := (ho.same hk).trans (hr.seen hk)
  stay hk hne := (ho.stay hk (by rwa [hr.stay hk hne])).trans (hr.stay hk hne)

theorem Rests.ends (hr : D.Rests i h₀ h) (l : Location) : D.Ends i h₀ l (h.at l) h :=
  ⟨hr.orderly, fun hk _ => hr.seen hk, hr.stay, rfl⟩

theorem Rests.edit (hD : D.Fair) (hr : D.Rests i h₀ h) (hl : D.own i l) (he : Edit h l o h') :
    D.Ends i h₀ l o h' where
  orderly := hr.orderly.within hD (.of_edit he hl)
  seen hk hne := (he.at_of_ne hne).trans (hr.seen hk)
  stay {k} hk hne := (he.at_of_ne fun hc : k = l => hk.not_own (i := i) (hc ▸ hl)).trans (hr.stay hk hne)
  entry := he.at_self

theorem Ends.others (hD : D.Fair) (he : D.Ends i h₀ l o h) (hl : D.own i l) (ho : D.Others i held h h') :
    D.Ends i h₀ l o h' where
  orderly := ho.orderly
  seen hk hne := (ho.same hk).trans (he.seen hk hne)
  stay hk hne := (ho.stay hk (by rwa [he.stay hk hne])).trans (he.stay hk hne)
  entry := (ho.same (seen_of_own hD hl)).trans he.entry

theorem Ends.mirrors (hm : D.Mirrors i fs g) (ha : D.Alone none fs') (he : D.Ends i fs l o fs')
    (he' : D.Ends i g l o h) (hnew : ∀ k, D.Soft k → fs'.at k ≠ none → fs.at k ≠ none) :
    D.Mirrors i fs' h where
  alone := he.orderly
  tidy hk := by_contra fun hne => by cases ha.mine _ hk hne
  among := he'.orderly
  same {k} hk := by
    by_cases hkl : k = l
    · rw [hkl, he.entry, he'.entry]
    · rw [he.seen hk hkl, he'.seen hk hkl]
      exact hm.same hk
  more {k} hk hne := by
    have hthere := hnew k hk hne
    have hsame := hm.more hk hthere
    rw [he.stay hk hthere, he'.stay hk (by rwa [hsame]), hsame]

/-! ### The directory of the file -/

/-- The path of the directory still leads there. -/
theorem Seated.leads (hD : D.Fair) (hs : D.Seated i fs ns d w) (hm : D.Mirrors i fs g) (hr : D.Rests i g h) :
    Leads h (Path.ofNames true ns) d ∧ h.at d = fs.at d := by
  have hsame : ∀ {k}, fs.at k ≠ none → D.Seen i k ∨ D.Soft k → h.at k = fs.at k := by
    rintro k hne (hseen | hsoft)
    · exact (hr.seen hseen).trans (hm.same hseen)
    · have hg := hm.more hsoft hne
      exact (hr.stay hsoft (by rwa [hg])).trans hg
  obtain ⟨n, hgoes⟩ := hs.goes
  obtain ⟨⟨n', hgoes'⟩, hd⟩ := hgoes.still hs.admits hs.directory (fun x hx => hsame (hs.way x hx).1 (hs.way x hx).2)
    (hsame (by rw [at_nil]; simp) (.inl (seen_root hD)))
  have hn : ∀ v ∈ ns, IsName v := fun v hv => hs.isName v (List.mem_cons_of_mem w hv)
  obtain ⟨m, hdir⟩ := hs.directory
  refine ⟨⟨rfl, hs.noNul, Path.tidy_ofNames hn, m, false, ?_⟩, hd⟩
  rw [Path.named_ofNames hn, hgoes' true _ goesOn_dot, walk_stay, admits_congr hd, hs.admits, if_neg (by simp),
    walk_nil, arrive, hd, hdir]

theorem Seated.place (hD : D.Fair) (hown : D.own i (w :: d)) (ho : D.Orderly h) {n : Nat}
    (hfree : h.at (temporaryName n :: d) = none) :
    D.own i (temporaryName n :: d) ∨ D.Scratch (temporaryName n :: d) := by
  by_cases hd : D.own i d
  · exact .inl (hD.closed hd (List.suffix_cons _ d))
  refine .inr ?_
  have hnot : ∀ j, ¬D.own j (temporaryName n :: d) := fun j hj => by
    have hj' := hD.tops hj
    obtain rfl := hD.apart (hD.closed hj' (List.suffix_cons w d)) hown
    exact hd hj'
  have hbase : D.base.at (temporaryName n :: d) = none := by
    by_contra hb
    rw [← ho.kept hnot hb] at hb
    exact hb hfree
  exact ⟨⟨hnot, hbase⟩, fun j hj => hD.ways ⟨⟨hnot, hbase⟩, j, hj⟩, n, d, rfl⟩

/-- There are names enough, so no temporary file in a directory of many has a longer name. -/
theorem length_nextTemporary (hD : D.Fair) (hown : D.own i (w :: d)) (hnot : ¬D.own i d) (ho : D.Orderly h)
    (hfew : ∃ ks : List Location, ks.length < D.crowd ∧
      ∀ k, D.Scratch k → h.at k ≠ none → k ∈ ks ∨ (none : Option Location) = some k) :
    (h.nextTemporary d).length = 10 := by
  obtain ⟨ks, hks, hcovered⟩ := hfew
  obtain ⟨n, hn, -, hbelow⟩ := exists_isFirstFree (h.children d)
  have hnobody : ∀ m j, ¬D.own j (temporaryName m :: d) := fun m j hj => by
    have hj' := hD.tops hj
    obtain rfl := hD.apart (hD.closed hj' (List.suffix_cons w d)) hown
    exact hnot hj'
  -- each name before the first free one stood there at the start, or is held by another
  have htaken : ∀ m < n, temporaryName m ∈ D.base.children d ++ ks.filterMap List.head? := by
    intro m hm
    have hthere : h.at (temporaryName m :: d) ≠ none :=
      Option.isSome_iff_ne_none.1 (mem_children.1 (hbelow m hm))
    rw [List.mem_append]
    by_cases hb : D.base.at (temporaryName m :: d) = none
    · have hfree : D.Free (temporaryName m :: d) := ⟨hnobody m, hb⟩
      have hscratch : D.Scratch (temporaryName m :: d) := by
        by_contra hc
        exact hthere (ho.bare hfree hD.ways hc)
      have hmem := (hcovered _ hscratch hthere).resolve_right fun hc => by cases hc
      exact .inr (List.mem_filterMap.2 ⟨_, hmem, List.head?_cons⟩)
    · exact .inl (mem_children.2 (Option.isSome_iff_ne_none.2 hb))
  have hnames : ((List.range n).map temporaryName).Nodup := List.nodup_range.map temporaryName_injective
  have hle := (hnames.subperm fun v hv => by
    obtain ⟨m, hm, rfl⟩ := List.mem_map.1 hv
    exact htaken m (List.mem_range.1 hm)).length_le
  simp only [List.length_map, List.length_range, List.length_append] at hle
  have hheads := List.length_filterMap_le List.head? ks
  have hroom := hD.room d
  have hdigits : (Nat.toDigits 10 n).length ≤ 6 := (Nat.length_toDigits_le_iff (by omega) (by omega)).2 (by omega)
  rw [nextTemporary, hn, length_temporaryName]
  omega

/-- The name of a temporary file is as long among the others as it is alone. -/
theorem Seated.length_next (hD : D.Fair) (hs : D.Seated i fs ns d w) (hm : D.Mirrors i fs g)
    (ho : D.Others i none g h) : (h.nextTemporary d).length = (fs.nextTemporary d).length := by
  by_cases hd : D.own i d
  · have hsame : ∀ n, h.at (temporaryName n :: d) = fs.at (temporaryName n :: d) := fun n => by
      have hown := hD.closed hd (List.suffix_cons (temporaryName n) d)
      exact (ho.same (seen_of_own hD hown)).trans (hm.at_own hD hown)
    exact congrArg List.length (nextTemporary_congr fun n => by rw [hsame n])
  · obtain ⟨ks, hks, -⟩ := id ho.few
    rw [length_nextTemporary hD hs.own hd ho.orderly ho.few, length_nextTemporary hD hs.own hd hm.alone
      ⟨[], Nat.zero_lt_of_lt hks, fun k hk hne => absurd (hm.tidy hk) hne⟩]

/-! ### Making the temporary file -/

theorem makeTemporary_of_leads {f : Path} (hl : Leads h f d) :
    h.makeTemporary f =
      if longestPath ≤ (f.join ⟨temporaryName 0⟩).bytes.length then .error (.errno .nameTooLong)
      else if !h.yields d then .error (.errno .denied)
      else if longestName < (h.nextTemporary d).length ∨
          longestPath ≤ (f.join ⟨h.nextTemporary d⟩).bytes.length then .error (.errno .nameTooLong)
      else .ok (f.join ⟨h.nextTemporary d⟩, h.insert (h.nextTemporary d :: d) (.file 0o600 [])) := by
  have hname := isName_temporaryName 0
  rw [FileSystem.makeTemporary, named_of_noNul hl.noNul]
  by_cases hlong : longestPath ≤ (f.join ⟨temporaryName 0⟩).bytes.length
  · have happ : h.approach (f.join ⟨temporaryName 0⟩) = .error .nameTooLong := by
      rw [FileSystem.approach, if_neg (Path.bytes_join_name_ne_nil f hname), if_pos hlong]
    rw [happ, if_pos hlong]
    rfl
  · rw [hl.approach hname (Nat.not_le.1 hlong), if_neg hlong]
    simp only [bind, Except.bind, Bool.or_eq_true, decide_eq_true_eq]
    cases h.yields d with
    | false => rfl
    | true =>
      simp only [Bool.not_true, Bool.false_eq_true, if_false]
      rw [show freeName (h.children d) (h.children d).length 0 = h.nextTemporary d from rfl]
      split <;> rfl

/-- Two trees that have the same room for a temporary file. -/
theorem makeTemporary_alike {f : Path} (hl : Leads fs f d) (hl' : Leads h f d) (hd : h.at d = fs.at d)
    (hlen : (h.nextTemporary d).length = (fs.nextTemporary d).length) :
    (∃ err, fs.makeTemporary f = .error (.errno err) ∧ h.makeTemporary f = .error (.errno err)) ∨
      Room fs f d ∧ Room h f d := by
  have hbytes : (f.join ⟨h.nextTemporary d⟩).bytes.length = (f.join ⟨fs.nextTemporary d⟩).bytes.length := by
    obtain ⟨n, hn, -⟩ := fs.nextTemporary_spec d
    obtain ⟨n', hn', -⟩ := h.nextTemporary_spec d
    rw [hn, hn'] at hlen ⊢
    exact Nat.le_antisymm
      (Path.length_join_name_mono f (isName_temporaryName _) (isName_temporaryName _) hlen.le)
      (Path.length_join_name_mono f (isName_temporaryName _) (isName_temporaryName _) hlen.ge)
  have heq := makeTemporary_of_leads hl
  have heq' := makeTemporary_of_leads hl'
  rw [hlen, hbytes, yields_congr hd] at heq'
  by_cases hlong : longestPath ≤ (f.join ⟨temporaryName 0⟩).bytes.length
  · exact .inl ⟨_, heq.trans (if_pos hlong), heq'.trans (if_pos hlong)⟩
  rw [if_neg hlong] at heq heq'
  by_cases hy : fs.yields d = true
  swap
  · rw [if_pos (by simpa using hy)] at heq heq'
    exact .inl ⟨_, heq, heq'⟩
  rw [hy, if_neg (by simp)] at heq heq'
  by_cases hnext : longestName < (fs.nextTemporary d).length ∨
      longestPath ≤ (f.join ⟨fs.nextTemporary d⟩).bytes.length
  · exact .inl ⟨_, heq.trans (if_pos hnext), heq'.trans (if_pos hnext)⟩
  · rw [not_or, Nat.not_lt, Nat.not_le] at hnext
    exact .inr ⟨⟨hy, hnext.1, hnext.2⟩, ⟨(yields_congr hd).trans hy, hlen.le.trans hnext.1,
      by rw [hbytes]; exact hnext.2⟩⟩

/-! ### While the temporary file is there -/

theorem ne_nil_of_place (hD : D.Fair) (hl : D.own i l ∨ D.Scratch l) : l ≠ [] := by
  rintro rfl
  rcases hl with hown | hscratch
  · exact hD.root hown
  · cases hscratch.1.2

theorem place_not_soft (hl : D.own i l ∨ D.Scratch l) : ¬D.Soft l := fun hs =>
  hl.elim (fun hown => hs.not_own hown) fun hscratch => hscratch.not_soft hs

theorem place_not_foreign (hD : D.Fair) (hl : D.own i l ∨ D.Scratch l) : ¬D.Foreign i l :=
  hl.elim (fun hown => Foreign.symm_own hD hown) fun hscratch ⟨_, _, hj⟩ => hscratch.not_own hj

theorem Orderly.place (hD : D.Fair) (ho : D.Orderly h) (hl : D.own i l ∨ D.Scratch l)
    (hfile : ∀ e ∈ o, e.isDirectory = false) (hedit : Edit h l o h') : D.Orderly h' :=
  hl.elim (fun hown => ho.within hD (.of_edit hedit hown)) fun hscratch => ho.littered hscratch hfile hedit

theorem Holding.edit (hD : D.Fair) (hh : D.Holding i h₀ l c h) :
    Edit h l none (h.erase l) ∧ Edit (h.erase l) l (some (.file 0o600 c)) h := by
  have hne := ne_nil_of_place hD hh.place
  obtain ⟨v, d, rfl⟩ := List.exists_cons_of_ne_nil hne
  have herase : Edit h (v :: d) none (h.erase (v :: d)) :=
    Edit.erase hh.sound (hh.sound.none_in fun m => by simp [hh.file])
  refine ⟨herase, fun k => ?_, hh.sound, rfl⟩
  by_cases hk : k = v :: d
  · rw [hk, if_pos rfl, hh.file]
  · rw [if_neg hk, herase.at_of_ne hk]

theorem Holding.orderly (hD : D.Fair) (hh : D.Holding i h₀ l c h) : D.Orderly h :=
  hh.rests.orderly.place hD hh.place (by simp [Entry.isDirectory]) (hh.edit hD).2

theorem Holding.rests_of_edit (hD : D.Fair) (hh : D.Holding i h₀ l c h) {h' : FileSystem}
    (hedit : Edit h l none h') (ho : D.Orderly h') : D.Rests i h₀ h' := by
  have hsame : ∀ k, h'.at k = (h.erase l).at k := fun k => by
    by_cases hk : k = l
    · rw [hk, hedit.at_self, (hh.edit hD).1.at_self]
    · rw [hedit.at_of_ne hk, (hh.edit hD).1.at_of_ne hk]
  exact ⟨ho, fun hk => (hsame _).trans (hh.rests.seen hk), fun hk hne => (hsame _).trans (hh.rests.stay hk hne)⟩

theorem Holding.insert (hD : D.Fair) (ho : D.Orderly h) (hl : D.own i l ∨ D.Scratch l)
    (hr : ∀ {h'}, Edit h l none h' → D.Orderly h' → D.Rests i h₀ h')
    (hleaf : ∀ m, h.at l ≠ some (.directory m))
    (hdir : ∃ m, h.at l.tail = some (.directory m)) (c : Bytes) :
    Edit h l (some (.file 0o600 c)) (h.insert l (.file 0o600 c)) ∧
      D.Holding i h₀ l c (h.insert l (.file 0o600 c)) := by
  obtain ⟨v, d, rfl⟩ := List.exists_cons_of_ne_nil (ne_nil_of_place hD hl)
  have hedit : Edit h (v :: d) (some (.file 0o600 c)) (h.insert (v :: d) (.file 0o600 c)) :=
    Edit.insert ho.sound hdir (.inr hleaf)
  have herase : Edit (h.insert (v :: d) (.file 0o600 c)) (v :: d) none _ :=
    Edit.erase hedit.sound (hedit.sound.none_in fun m => by simp [hedit.at_self])
  exact ⟨hedit, hedit.sound, hedit.at_self, hl,
    hr (hedit.trans herase) (ho.place hD hl (by simp) (hedit.trans herase))⟩

theorem Holding.others (hD : D.Fair) (hh : D.Holding i h₀ l c h) (ho : D.Others i (some l) h h') :
    D.Holding i h₀ l c h' := by
  have hfile : h'.at l = some (.file 0o600 c) := (ho.kept l rfl).trans hh.file
  obtain ⟨v, d, rfl⟩ := List.exists_cons_of_ne_nil (ne_nil_of_place hD hh.place)
  have herase : Edit h' (v :: d) none (h'.erase (v :: d)) :=
    Edit.erase ho.orderly.sound (ho.orderly.sound.none_in fun m => by simp [hfile])
  have herase' := (hh.edit hD).1
  refine ⟨ho.orderly.sound, hfile, hh.place, ho.orderly.place hD hh.place (by simp) herase, fun {k} hk => ?_,
    fun {k} hk hne => ?_⟩
  · rw [← hh.rests.seen hk]
    by_cases hkl : k = v :: d
    · rw [hkl, herase.at_self, herase'.at_self]
    · rw [herase.at_of_ne hkl, herase'.at_of_ne hkl]
      exact ho.same hk
  · have hkl : k ≠ v :: d := fun hc => place_not_soft hh.place (hc ▸ hk)
    have hsame := hh.rests.stay hk hne
    rw [herase'.at_of_ne hkl] at hsame
    rw [herase.at_of_ne hkl, ho.stay hk (by rwa [hsame]), hsame]

/-- A step that changes nothing but what belongs to the script and the place of a temporary file. -/
theorem Step.hold (hD : D.Fair) (ho : D.Orderly h') (hl : D.own i l ∨ D.Scratch l)
    (hsame : ∀ k, ¬D.own i k → k ≠ l → h'.at k = h.at k)
    (hheld : ∀ k ∈ held, k = l) (hheld' : ∀ k ∈ held', k = l ∧ h'.at k ≠ none ∧ (held = some k ∨ h.at k = none))
    (hgone : held = some l → held' = none → D.Scratch l → h'.at l = none)
    (hfree : held = none → held' = some l) : D.Step i made held held' h h' where
  orderly := ho
  foreign {k} hk := hsame k (fun hown => Foreign.symm_own hD hown hk) fun hc => place_not_foreign hD hl (hc ▸ hk)
  stay {k} hk _ := hsame k hk.not_own fun hc => place_not_soft hl (hc ▸ hk)
  new {k} hk hnone hne :=
    absurd ((hsame k hk.not_own fun hc => place_not_soft hl (hc ▸ hk)).trans hnone) hne
  scratch {k} hk hne := by
    by_cases hkl : k = l
    · subst hkl
      cases hcase : held with
      | none => exact .inr ⟨hfree hcase, (((hheld' k (hfree hcase)).2.2).resolve_left hne)⟩
      | some m => exact absurd (hcase.trans (congrArg some (hheld m hcase))) hne
    · exact .inl (hsame k hk.not_own hkl)
  dropped k hk hne hscratch := by
    obtain rfl := hheld k hk
    cases hcase : held' with
    | none => exact hgone hk hcase hscratch
    | some m => exact absurd (hcase.trans (congrArg some (hheld' m hcase).1)) hne
  holds k hk := by
    obtain ⟨rfl, hne, hor⟩ := hheld' k hk
    exact ⟨hl, hne, hor⟩

theorem Holding.keep (made : Location → Prop) (hD : D.Fair) (hh : D.Holding i h₀ l c h')
    (hsame : ∀ k, k ≠ l → h'.at k = h.at k) : D.Step i made (some l) (some l) h h' := by
  refine .hold hD (hh.orderly hD) hh.place (fun k _ hne => hsame k hne)
    (fun k hk => (Option.some.inj hk).symm) (fun k hk => ?_) (by simp) (by simp)
  obtain rfl := Option.some.inj hk
  exact ⟨rfl, by simp [hh.file], .inl rfl⟩

/-! ### Putting the temporary file in place -/

def putInPlace (temporary target : Path) (content : Bytes) : Script (Except OsError Unit) := do
  match ← (Files.install temporary target content).run with
  | .ok () => return .ok ()
  | .error e =>
    let _ ← Script.ask (.removeFile temporary)
    return .error e

theorem install_run (t q : Path) (content : Bytes) : (Files.install t q content).run =
    Script.ask (.fill t content) >>= fun r => match r with
      | .ok () => if q.hasNul then pure (.error (.errno .invalid)) else Script.ask (.rename t q)
      | .error e => pure (.error e) := by
  rw [Files.install, ExceptT.run_bind]
  congr 1
  funext r
  cases r with
  | error e => rfl
  | ok u => cases q.hasNul <;> rfl

/-- What comes of a rename to the path of a name, where the entry there is known. -/
def verdict (q : Path) (w : Bytes) (o : Option Entry) : Except OsError Unit :=
  if q.hasNul then .error (.errno .invalid)
  else if longestPath ≤ q.bytes.length ∨ longestName < w.length then .error (.errno .nameTooLong)
  else if o.any Entry.isDirectory then .error (.errno .isDirectory)
  else .ok ()

def outcome (q : Path) (w content : Bytes) (o : Option Entry) : Option Entry :=
  match verdict q w o with
  | .ok () => some (.file 0o600 content)
  | .error _ => o

section

variable {f : Path} {t : Bytes}

theorem verdict_of_aims (hw : Aims h f d w) : verdict (f.join ⟨w⟩) w o =
    if o.any Entry.isDirectory then .error (.errno .isDirectory) else .ok () := by
  rw [verdict, hw.hasNul, if_neg (by simp), if_neg]
  exact fun hc => hc.elim (Nat.not_le.2 hw.fits) (Nat.not_lt.2 hw.short)

theorem verdict_of_dead (hl : Leads h f d) (hw : IsName w) (hdead : Dead h (f.join ⟨w⟩))
    (hz : (f.join ⟨w⟩).hasNul = false) : verdict (f.join ⟨w⟩) w o = .error (.errno .nameTooLong) := by
  rw [verdict, hz, if_neg (by simp), if_pos]
  by_contra hc
  rw [not_or, Nat.not_le, Nat.not_lt] at hc
  rw [Path.hasNul_join_name f hw, Bool.or_eq_false_iff] at hz
  exact (⟨hl, hw, by simpa using hz.2, hc.2, hc.1⟩ : Aims h f d w).not_dead hdead

theorem rename_dead {e : Entry} (ht : Aims h f d t) (hx : h.at (t :: d) = some e) {q : Path}
    (hdead : Dead h q) (hz : q.hasNul = false) :
    h.rename (f.join ⟨t⟩) q = .error (.errno .nameTooLong) := by
  rw [FileSystem.rename, ht.hasNul, hz, ht.approach]
  rcases hdead.approach with hc | happ | ⟨a, v, happ, hend, hlong⟩
  · rw [hz] at hc
    cases hc
  · rw [happ]
    rfl
  · rw [happ]
    simp only [Bool.or_self, Bool.false_eq_true, if_false, bind, Except.bind, hend, ht.standing, hx, hlong,
      mapError_error]

theorem rename_onto_directory {n : Nat} (ht : Aims h f d t) (hw : Aims h f d w) (hy : h.yields d = true)
    (hfile : h.at (t :: d) = some (.file m c)) (hdir : h.at (w :: d) = some (.directory n)) :
    h.rename (f.join ⟨t⟩) (f.join ⟨w⟩) = .error (.errno .isDirectory) := by
  have hne : t ≠ w := by
    rintro rfl
    rw [hfile] at hdir
    cases hdir
  have hinto : (t :: d).isSuffixOf (w :: d) = false := Bool.eq_false_iff.2 fun hc =>
    hne (suffix_of_siblings (List.isSuffixOf_iff_suffix.1 hc))
  have hout : (w :: d).isSuffixOf (t :: d) = false := Bool.eq_false_iff.2 fun hc =>
    hne (suffix_of_siblings (List.isSuffixOf_iff_suffix.1 hc)).symm
  rw [ht.rename hw, hfile]
  simp only [renameBar, hinto, hout, moveBar, hy, hdir, Bool.false_eq_true, if_false, Bool.not_true, Bool.or_self,
    if_neg (show ¬(t :: d = w :: d) by simpa using hne)]
  rfl

end

section

variable {n : Nat} (hD : D.Fair) (hs : D.Seated i fs ns d w) (hm : D.Mirrors i fs g)
  (hshort : (temporaryName n).length ≤ longestName)
  (hfits : ((Path.ofNames true ns).join ⟨temporaryName n⟩).bytes.length < longestPath)
include hD hs hm hshort hfits

theorem Seated.aims (hh : D.Holding i g (temporaryName n :: d) c h) :
    Aims h (Path.ofNames true ns) d (temporaryName n) ∧ (h.erase (temporaryName n :: d)).at d = fs.at d := by
  obtain ⟨hleads, hd⟩ := hs.leads hD hm hh.rests
  obtain ⟨herase, hedit⟩ := hh.edit hD
  exact ⟨⟨hleads.beside herase.sound herase.at_self hedit, isName_temporaryName n,
    zero_not_mem_temporaryName n, hshort, hfits⟩, hd⟩

theorem Seated.renames (made : Location → Prop) (hy : fs.yields d = true)
    (hh : D.Holding i g (temporaryName n :: d) content h) (hz : ((Path.ofNames true ns).join ⟨w⟩).hasNul = false) :
    (∃ h', h.rename ((Path.ofNames true ns).join ⟨temporaryName n⟩) ((Path.ofNames true ns).join ⟨w⟩) = .ok h' ∧
        verdict ((Path.ofNames true ns).join ⟨w⟩) w (fs.at (w :: d)) = .ok () ∧
        D.Step i made (some (temporaryName n :: d)) none h h' ∧
        D.Ends i g (w :: d) (some (.file 0o600 content)) h') ∨
      ∃ e, h.rename ((Path.ofNames true ns).join ⟨temporaryName n⟩) ((Path.ofNames true ns).join ⟨w⟩) =
          .error e ∧ verdict ((Path.ofNames true ns).join ⟨w⟩) w (fs.at (w :: d)) = .error e := by
  obtain ⟨haims, hd⟩ := hs.aims hD hm hshort hfits hh
  obtain ⟨herase, hedit⟩ := hh.edit hD
  have hw : IsName w := hs.isName w List.mem_cons_self
  have hold : (h.erase (temporaryName n :: d)).at (w :: d) = fs.at (w :: d) :=
    (hh.rests.seen (seen_of_own hD hs.own)).trans (hm.at_own hD hs.own)
  have hyields : (h.erase (temporaryName n :: d)).yields d = true := (yields_congr hd).trans hy
  rcases haims.aims_or_dead hw with hwaims | hdead
  swap
  · exact .inr ⟨_, rename_dead haims hh.file hdead hz, verdict_of_dead haims.toLeads hw hdead hz⟩
  rw [verdict_of_aims hwaims]
  rcases hedit.rename_eq herase.sound herase.at_self hyields haims hwaims with
    ⟨hleaf, h', hrename, hedit'⟩ | ⟨⟨n', hdir⟩, -⟩
  · left
    rw [hold] at hleaf
    have hnot : (fs.at (w :: d)).any Entry.isDirectory = false := by
      cases hx : fs.at (w :: d) with
      | none => rfl
      | some e =>
        cases e with
        | directory m => exact absurd hx (hleaf m)
        | _ => rfl
    have hends := hh.rests.edit hD hs.own hedit'
    refine ⟨h', hrename, by rw [hnot]; rfl, .hold hD hends.orderly hh.place (fun k hk hne => ?_)
      (fun k hk => ?_) (by simp) (fun _ _ hscratch => ?_) (by simp), hends⟩
    · rw [hedit'.at_of_ne fun hc : k = w :: d => hk (hc ▸ hs.own), herase.at_of_ne hne]
    · exact (Option.some.inj hk).symm
    · refine (hedit'.at_of_ne fun hc => hscratch.not_own (i := i) ?_).trans herase.at_self
      rw [hc]
      exact hs.own
  · right
    have hdir' : h.at (w :: d) = some (.directory n') := by
      rw [← hdir, herase.at_of_ne]
      intro hc
      rw [hc, herase.at_self] at hdir
      cases hdir
    have hyields' : h.yields d = true := by
      rw [← hyields, yields_congr (herase.at_of_ne (by simp))]
    refine ⟨_, rename_onto_directory haims hwaims hyields' hh.file hdir', ?_⟩
    rw [← hold, hdir]
    rfl

theorem Seated.discards (made : Location → Prop) (hy : fs.yields d = true)
    (hh : D.Holding i g (temporaryName n :: d) c h) :
    h.removeFile ((Path.ofNames true ns).join ⟨temporaryName n⟩) = .ok (h.erase (temporaryName n :: d)) ∧
      D.Step i made (some (temporaryName n :: d)) none h (h.erase (temporaryName n :: d)) ∧
      D.Ends i g (w :: d) (fs.at (w :: d)) (h.erase (temporaryName n :: d)) := by
  obtain ⟨haims, hd⟩ := hs.aims hD hm hshort hfits hh
  obtain ⟨herase, -⟩ := hh.edit hD
  have hyields : h.yields d = true := by
    rw [← yields_congr (herase.at_of_ne (show d ≠ temporaryName n :: d by simp)), yields_congr hd]
    exact hy
  refine ⟨?_, .hold hD hh.rests.orderly hh.place (fun k _ hne => herase.at_of_ne hne)
    (fun k hk => (Option.some.inj hk).symm) (by simp) (fun _ _ _ => herase.at_self) (by simp), ?_⟩
  · rw [haims.removeFile, hh.file, hyields]
    rfl
  · have hends := hh.rests.ends (w :: d)
    rwa [hh.rests.seen (seen_of_own hD hs.own), hm.at_own hD hs.own] at hends

/-- A temporary file is filled and renamed, or it is still there. -/
theorem Seated.installs {t q : Path} (ht : (Path.ofNames true ns).join ⟨temporaryName n⟩ = t)
    (hq : (Path.ofNames true ns).join ⟨w⟩ = q) (hy : fs.yields d = true)
    (hh : D.Holding i g (temporaryName n :: d) [] h) :
    D.Fares i made (fun r held h' => (∃ e, r = .error e ∧ verdict q w (fs.at (w :: d)) = .error e ∧
        held = some (temporaryName n :: d) ∧ ∃ c, D.Holding i g (temporaryName n :: d) c h') ∨
      r = .ok () ∧ verdict q w (fs.at (w :: d)) = .ok () ∧ held = none ∧
        D.Ends i g (w :: d) (some (.file 0o600 content)) h')
      (Files.install t q content).run (some (temporaryName n :: d)) h := by
  rw [install_run]
  refine .bind (.ask fun h₁ ho => ?_)
  have hh₁ := hh.others hD ho
  obtain ⟨haims, -⟩ := hs.aims hD hm hshort hfits hh₁
  have hfill := haims.fill hh₁.file content
  rw [ht] at hfill
  obtain ⟨hedit, hh₁'⟩ := Holding.insert hD (hh₁.orderly hD) hh₁.place (hh₁.rests_of_edit hD)
    (by simp [hh₁.file]) haims.directory content
  simp only [Call.perform, hfill, Call.change]
  refine ⟨some (temporaryName n :: d), hh₁'.keep made hD fun _ hne => hedit.at_of_ne hne, fun h₂ ho₂ => ?_⟩
  have hh₂ := hh₁'.others hD ho₂
  by_cases hz : q.hasNul = true
  · rw [if_pos hz]
    exact .pure fun h₃ ho₃ => .inl ⟨_, rfl, by rw [verdict, if_pos hz], rfl, _, hh₂.others hD ho₃⟩
  rw [if_neg hz]
  refine .ask fun h₃ ho₃ => ?_
  have hh₃ := hh₂.others hD ho₃
  have hrename := hs.renames hD hm hshort hfits made hy hh₃ (by rw [hq]; simpa using hz)
  rw [hq, ht] at hrename
  rcases hrename with ⟨h', hok, hverdict, hstep, hends⟩ | ⟨e, herror, hverdict⟩
  · rw [Call.perform, hok]
    exact ⟨none, hstep, fun h₄ ho₄ => .inr ⟨rfl, hverdict, rfl, hends.others hD hs.own ho₄⟩⟩
  · rw [Call.perform, herror]
    exact ⟨some (temporaryName n :: d), hh₃.keep made hD fun _ _ => rfl,
      fun h₄ ho₄ => .inl ⟨e, rfl, hverdict, rfl, _, hh₃.others hD ho₄⟩⟩

theorem Seated.puts (hy : fs.yields d = true) (hh : D.Holding i g (temporaryName n :: d) [] h) :
    D.Fares i made (fun a held h' => held = none ∧
        a = verdict ((Path.ofNames true ns).join ⟨w⟩) w (fs.at (w :: d)) ∧
        D.Ends i g (w :: d) (outcome ((Path.ofNames true ns).join ⟨w⟩) w content (fs.at (w :: d))) h')
      (putInPlace ((Path.ofNames true ns).join ⟨temporaryName n⟩) ((Path.ofNames true ns).join ⟨w⟩) content)
      (some (temporaryName n :: d)) h := by
  refine .bind ((hs.installs hD hm hshort hfits rfl rfl hy hh).mono ?_)
  rintro r held h₁ (⟨e, rfl, hverdict, rfl, c, hh₁⟩ | ⟨rfl, hverdict, rfl, hends⟩)
  · refine .bind (.ask fun h₂ ho => ?_)
    obtain ⟨hremove, hstep, hends⟩ := hs.discards hD hm hshort hfits made hy (hh₁.others hD ho)
    rw [Call.perform, hremove]
    refine ⟨none, hstep, fun h₃ ho₃ => .pure fun h₄ ho₄ => ⟨rfl, hverdict.symm, ?_⟩⟩
    rw [outcome, hverdict]
    exact (hends.others hD hs.own ho₃).others hD hs.own ho₄
  · refine .pure fun h₂ ho => ⟨rfl, hverdict.symm, ?_⟩
    rw [outcome, hverdict]
    exact hends.others hD hs.own ho

end

/-! ### Writing a file where its directory is there -/

def writeIn (directory target : Path) (content : Bytes) : Script (Except OsError Unit) := do
  match ← (Files.makeTemporary directory).run with
  | .ok temporary => putInPlace temporary target content
  | .error e => return .error e

theorem Seated.leads_alone (hD : D.Fair) (hs : D.Seated i fs ns d w) (hm : D.Mirrors i fs g) :
    Leads fs (Path.ofNames true ns) d :=
  (hs.leads hD (Mirrors.refl hm.alone_none) (.refl hm.alone)).1

/-- Where there is room for a temporary file alone, there is also room among the others. -/
theorem Seated.writes (made : Location → Prop) (content : Bytes) (hD : D.Fair) (hs : D.Seated i fs ns d w)
    (hm : D.Mirrors i fs g) (hroom : Room fs (Path.ofNames true ns) d) :
    D.Fares i made (fun a held h' => held = none ∧
        a = verdict ((Path.ofNames true ns).join ⟨w⟩) w (fs.at (w :: d)) ∧
        D.Ends i g (w :: d) (outcome ((Path.ofNames true ns).join ⟨w⟩) w content (fs.at (w :: d))) h')
      (writeIn (Path.ofNames true ns) ((Path.ofNames true ns).join ⟨w⟩) content) none g := by
  refine .bind (.bind (.ask fun h₁ ho => ?_))
  have hr := (Rests.refl hm.among).others ho
  obtain ⟨hleads, hd⟩ := hs.leads hD hm hr
  have hleads' := hs.leads_alone hD hm
  have hroom₁ : Room h₁ (Path.ofNames true ns) d := by
    rcases makeTemporary_alike hleads' hleads hd (hs.length_next hD hm ho) with ⟨err, hc, -⟩ | ⟨-, hroom₁⟩
    · rw [hleads'.makeTemporary hroom] at hc
      cases hc
    · exact hroom₁
  have hmake := hleads.makeTemporary hroom₁
  obtain ⟨n, hn, hfree⟩ := h₁.nextTemporary_spec d
  have hshort := hroom₁.short
  have hfits := hroom₁.fits
  rw [hn] at hmake hfree hshort hfits
  have hplace := Seated.place hD hs.own ho.orderly hfree
  obtain ⟨hedit, hh⟩ := Holding.insert hD ho.orderly hplace
    (fun {h'} hedit ho' => by
      have hsame : ∀ k, h'.at k = h₁.at k := fun k => by
        by_cases hk : k = temporaryName n :: d
        · rw [hk, hedit.at_self, hfree]
        · exact hedit.at_of_ne hk
      exact (⟨ho', fun hk => (hsame _).trans (hr.seen hk), fun hk hne => (hsame _).trans (hr.stay hk hne)⟩ :
        D.Rests i g h')) (by simp [hfree]) hleads.directory []
  simp only [Call.perform, hmake]
  refine ⟨some (temporaryName n :: d), .hold hD (hh.orderly hD) hplace (fun k _ hne => hedit.at_of_ne hne)
    (by simp) (fun k hk => ?_) (by simp) (by simp), fun h₂ ho₂ => .pure fun h₃ ho₃ => ?_⟩
  · obtain rfl := Option.some.inj hk
    exact ⟨rfl, by rw [hedit.at_self]; simp, .inr hfree⟩
  · exact hs.puts hD hm hshort hfits hroom.yields ((hh.others hD ho₂).others hD ho₃)

/-- The directory of a calm path is there alone and among the others, or it cannot be searched for either. -/
theorem Calm.trodden (hD : D.Fair) (hc : D.Calm i fs (w :: ns)) (hm : D.Mirrors i fs g)
    (hup : ∃ kind, fs.linkStatus (Path.ofNames true ns) = .ok kind) :
    (∃ d, D.Seated i fs ns d w) ∨ ∃ err, ∀ h, h = fs ∨ h = g →
      h.walk ⟨true, true⟩ mostLinks [] (ns.reverse ++ [[dot]]) = .error err := by
  obtain ⟨kind, hkind⟩ := hup
  have hnul := noNul_of_named hkind
  have hns : ∀ v ∈ ns, IsName v := fun v hv => hc.isName v (List.mem_cons_of_mem w hv)
  rcases hc.led hD hm true with ⟨us, pre, n, d, rfl, hne, hchain⟩ | ⟨n, d, hreach, hown⟩ | ⟨err, hf, hf'⟩
  · -- alone, something stands where the path of the directory ends
    have hfits : (Path.ofNames true (us ++ pre)).bytes.length < longestPath := by
      by_contra hlong
      rw [FileSystem.linkStatus, named_of_noNul hnul, entryAt, find_ofNames hns,
        if_pos (Nat.not_lt.1 hlong)] at hkind
      cases hkind
    have hnone := hchain.status_alone hns (List.suffix_cons w us) hne hnul hfits false
    rw [FileSystem.linkStatus, hnone] at hkind
    cases hkind
  · by_cases hadmits : fs.admits d = true
    · refine .inl ⟨d, hc.isName, hnul, ⟨n, hreach.leads⟩, hadmits, (hreach.level d List.suffix_rfl).2,
        fun x hx => ⟨hreach.present x hx, ?_⟩, hown⟩
      obtain ⟨hforeign, hscratch⟩ := hc.clear x (by
        rw [passage_ofNames hc.isName, List.reverse_cons, List.map_append]
        exact walkPassage_append _ hx)
      by_cases hshared : D.Shared i x.1
      · exact .inr hshared.1
      · exact .inl ⟨hforeign, hshared, hscratch⟩
    · refine .inr ⟨.denied, ?_⟩
      rintro h (rfl | rfl)
      · rw [hreach.leads true _ goesOn_dot, walk_stay, if_pos (by simpa using hadmits)]
      · rw [hreach.leads' true _ goesOn_dot, walk_stay, hreach.level.admits, if_pos (by simpa using hadmits)]
  · refine .inr ⟨err, ?_⟩
    rintro h (rfl | rfl)
    · exact hf _ _ goesOn_dot
    · exact hf' _ _ goesOn_dot

theorem makeTemporary_of_walk_error {err : Errno} (hn : ∀ v ∈ ns, IsName v)
    (hnul : (Path.ofNames true ns).hasNul = false)
    (hwalk : h.walk ⟨true, true⟩ mostLinks [] (ns.reverse ++ [[dot]]) = .error err) :
    h.makeTemporary (Path.ofNames true ns) =
      if longestPath ≤ ((Path.ofNames true ns).join ⟨temporaryName 0⟩).bytes.length then
        .error (.errno .nameTooLong)
      else .error (.errno err) := by
  have hname := isName_temporaryName 0
  rw [FileSystem.makeTemporary, named_of_noNul hnul, Path.ofNames_join ns hn hname,
    approach_ofNames (fun v hv => (List.mem_cons.1 hv).elim (fun hc => hc ▸ hname) (hn v)), hwalk]
  split <;> rfl

theorem writeIn_run (f q : Path) (content : Bytes) : writeIn f q content =
    Script.ask (.makeTemporary f) >>= fun r => match r with
      | .ok t => putInPlace t q content
      | .error (.errno e) => pure (.error (.onPath e (f.child ".tmpXXXXXX")))
      | .error e => pure (.error e) := by
  rw [writeIn, Files.makeTemporary, Files.attempt, ExceptT.run_mk, LawfulMonad.bind_assoc]
  congr 1
  funext r
  rcases r with e | t
  · cases e <;> rfl
  · rfl

/-- A file that is written where its directory is there ends as it does alone. -/
theorem settles_writeIn (hD : D.Fair) (hc : D.Calm i fs (w :: ns))
    (hup : ∃ kind, fs.linkStatus (Path.ofNames true ns) = .ok kind) (content : Bytes) :
    D.Settles i made R (writeIn (Path.ofNames true ns) (Path.ofNames true (w :: ns)) content) fs := by
  have hn : ∀ v ∈ ns, IsName v := fun v hv => hc.isName v (List.mem_cons_of_mem w hv)
  rw [← Path.ofNames_join ns hn (hc.isName w List.mem_cons_self)]
  have hnul : (Path.ofNames true ns).hasNul = false := hup.elim fun _ h => noNul_of_named h
  cases hmake : fs.makeTemporary (Path.ofNames true ns) with
  | ok x =>
    intro hready g hm
    rcases hc.trodden hD hm hup with ⟨d, hs⟩ | ⟨err, hwalk⟩
    · have hroom : Room fs (Path.ofNames true ns) d := by
        by_contra hc
        obtain ⟨err, herr⟩ := (hs.leads_alone hD hm).makeTemporary_error hc
        rw [hmake] at herr
        cases herr
      refine .of_others fun g₁ ho => .others ?_ ho
      obtain ⟨ks, hks, -⟩ := ho.few
      have hrun := (hs.writes (fun _ => False) content hD (Mirrors.refl hm.alone_none)
        hroom).run (Nat.zero_lt_of_lt hks) hm.alone_none
      obtain ⟨⟨held, ⟨rfl, hverdict, hends⟩, ha⟩, -, hnew⟩ := hrun
      refine (hs.writes made content hD hm hroom).mono ?_
      rintro a held g' ⟨rfl, rfl, hends'⟩
      exact ⟨rfl, hverdict.symm, hends.mirrors hm ha hends' fun k hk hne => (hnew k hk hne).resolve_right id⟩
    · rw [makeTemporary_of_walk_error hn hnul (hwalk fs (.inl rfl))] at hmake
      split at hmake <;> cases hmake
  | error e =>
    rw [writeIn_run]
    have hperform : ∀ h : FileSystem, h.makeTemporary (Path.ofNames true ns) = .error e →
        (Call.makeTemporary (Path.ofNames true ns)).perform h = (.error e, h) := fun h hh => by
      rw [Call.perform, hh]
    refine .call (fun _ g hm ho => .inr ?_) ?_
    · have hmake' : g.makeTemporary (Path.ofNames true ns) = .error e := by
        rcases hc.trodden hD hm hup with ⟨d, hs⟩ | ⟨err, hwalk⟩
        · obtain ⟨hleads, hd⟩ := hs.leads hD hm (.refl hm.among)
          have hleads' := hs.leads_alone hD hm
          rcases makeTemporary_alike hleads' hleads hd (hs.length_next hD hm ho) with
            ⟨err, herr, herr'⟩ | ⟨hroom, -⟩
          · rw [herr', ← herr, hmake]
          · rw [hleads'.makeTemporary hroom] at hmake
            cases hmake
        · rw [makeTemporary_of_walk_error hn hnul (hwalk fs (.inl rfl))] at hmake
          rw [makeTemporary_of_walk_error hn hnul (hwalk g (.inr rfl)), hmake]
      rw [hperform fs hmake, hperform g hmake']
      exact ⟨rfl, .refl hm.among, hm⟩
    · rw [hperform fs hmake]
      cases e <;> exact .pure _

/-! ### The path that is written -/

theorem Ready.calm_names (hr : D.Ready i made P fs) (hn : ∀ v ∈ ns, IsName v) (hP : P (Path.ofNames true ns)) :
    D.Calm i fs ns := by
  obtain ⟨names, hnames, hc⟩ := hr.calm hP
  have heq : ns.reverse = names.reverse := by
    rw [← Path.named_ofNames hn, hnames, Path.named_ofNames hc.isName]
  rwa [List.reverse_inj.1 heq]

theorem settles_resolveLink (hD : D.Fair) (hP : P p) :
    D.Settles i made (D.Ready i made P) (Files.resolveLink p) fs := by
  refine .bind (.look (fun _ => rfl) fun hr g hm => ?_) ?_
  · obtain ⟨names, rfl, hc⟩ := hr.calm hP
    exact hc.linkStatus hD hm
  · split
    · refine .bind (.look (fun _ => rfl) fun hr g hm => ?_) (by split <;> exact .pure _)
      obtain ⟨names, rfl, hc⟩ := hr.calm hP
      exact hc.realPath hD hm
    · exact .pure _

theorem resolveLink_cases (fs : FileSystem) (p : Path) :
    ((Files.resolveLink p).run fs).2 = fs ∧ (((Files.resolveLink p).run fs).1 = p ∨
      fs.realPath p = .ok ((Files.resolveLink p).run fs).1) := by
  refine ⟨(Files.looks_resolveLink p).run fs, ?_⟩
  rw [Files.resolveLink, Script.run_bind, Script.run_ask, Call.perform]
  split
  · rw [Script.run_bind, Script.run_ask, Call.perform]
    cases hreal : fs.realPath p with
    | ok q => exact .inr rfl
    | error e => exact .inl rfl
  · exact .inl rfl

/-- The path of an entry stays its real path as long as nothing is taken away. -/
theorem realPath_spared (hs : fs.Sound) (hp : p.isAbsolute = true) (hfs : Spares fs (fun _ => False) h)
    {q : Path} (hq : fs.realPath p = .ok q) : h.realPath p = .ok q := by
  have hnul := noNul_of_named hq
  rw [FileSystem.realPath, named_of_noNul hnul] at hq ⊢
  rw [← hq]
  congr 2
  have hmap := eq_ok_of_mapError hq
  cases hl : fs.realLocation p with
  | error err => rw [hl] at hmap; cases hmap
  | ok l =>
    obtain ⟨r, hr, hrest⟩ := exists_of_bind hl
    obtain ⟨x, hx, -⟩ := exists_of_bind hrest
    rw [← hl, realLocation, realLocation, hr]
    suffices hfind : h.find ⟨true, false⟩ p = .ok r by rw [hfind]
    rw [FileSystem.find] at hr ⊢
    split at hr
    · cases hr
    next hne =>
    split at hr
    · cases hr
    next hfits =>
    rw [start_of_isAbsolute hp] at hr ⊢
    rw [if_neg hne, if_neg hfits]
    cases r with
    | vacant => cases hx
    | entry l e s =>
      refine (walks_of_walk hr).congr hs rfl ⟨_, at_nil fs⟩ fun k _ hk => ?_
      obtain ⟨e', he'⟩ := Option.isSome_iff_exists.1 hk
      rw [he', hfs.at_eq k e' he' id]

theorem stages_spared {α : Type} {s : Script α} (hs : fs.Sound) (hw : s.Within (fun _ _ => False) fs) :
    ∀ r ∈ s.stages fs, Spares fs (fun _ => False) r := by
  induction s generalizing fs with
  | done a =>
    intro r hr
    rw [List.mem_singleton.1 hr]
    exact .refl hs
  | call c next ih =>
    intro r hr
    rcases List.mem_cons.1 hr with rfl | hr
    · exact .refl hs
    · obtain ⟨hc, hhits⟩ := hw (c, fs) List.mem_cons_self
      have hstep := (Call.perform_spares hs hc).mono fun l _ hl => hhits l hl
      exact hstep.trans (ih _ hstep.sound (fun x hx => hw x (List.mem_cons_of_mem _ hx)) r hr)

theorem writeAtomic_run (p : Path) (content : Bytes) : (Files.writeAtomic p content).run =
    Files.resolveLink p >>= fun q => (Files.ensureParent q).run >>= fun r => match r with
      | .ok () => Files.directoryOf q >>= fun f => writeIn f q content
      | .error e => pure (.error e) := by
  have hlift : ∀ {α β : Type} (s : Script α) (f : α → Files.Trial β),
      ((liftM s : Files.Trial α) >>= f).run = s >>= fun a => (f a).run := fun s f => by
    rw [ExceptT.run_bind]
    change ((s >>= fun a => pure (Except.ok a)) >>= _) = _
    rw [LawfulMonad.bind_assoc]
    rfl
  rw [Files.writeAtomic]
  refine (hlift _ _).trans (congrArg _ (funext fun q => ?_))
  rw [ExceptT.run_bind]
  refine congrArg _ (funext fun r => ?_)
  cases r with
  | error e => rfl
  | ok u =>
    refine (hlift _ _).trans (congrArg _ (funext fun f => ?_))
    rw [ExceptT.run_bind, writeIn]
    refine congrArg _ (funext fun r => ?_)
    cases r <;> rfl

theorem settles_writeAtomic (hD : D.Fair) (hP : P p) (content : Bytes) :
    D.Settles i made (D.Ready i made P) (Files.writeAtomic p content).run fs := by
  rw [writeAtomic_run]
  refine .bind (settles_resolveLink hD hP) ?_
  obtain ⟨hsame, hcases⟩ := resolveLink_cases fs p
  rw [hsame]
  generalize ((Files.resolveLink p).run fs).1 = q at hcases
  refine .of_ready fun hr hs => ?_
  -- the path that is written is a calm one as long as nothing is taken away
  obtain ⟨names, rfl, hc, hcalm⟩ : ∃ names, q = Path.ofNames true names ∧ D.Calm i fs names ∧
      ∀ r, Spares fs (fun _ => False) r → D.Ready i made P r → D.Calm i r names := by
    rcases hcases with rfl | hreal
    · obtain ⟨names, rfl, hc⟩ := hr.calm hP
      exact ⟨names, rfl, hc, fun r _ hr => hr.calm_names hc.isName hP⟩
    · obtain ⟨names, rfl, hc⟩ := hr.real hD hs hP hreal
      obtain ⟨ps, rfl, -⟩ := hr.calm hP
      refine ⟨names, rfl, hc, fun r hspared hr' => ?_⟩
      obtain ⟨names', heq, hc'⟩ := hr'.real hD hspared.sound hP (realPath_spared hs rfl hspared hreal)
      have hrev : names.reverse = names'.reverse := by
        rw [← Path.named_ofNames hc.isName, heq, Path.named_ofNames hc'.isName]
      rwa [List.reverse_inj.1 hrev]
  have hstages := stages_spared hs
    (Files.within_ensureParent (T := fun _ _ => False) (Path.isAbsolute_ofNames names))
  refine .bind ((settles_ensureParent hD).mono fun r hr hready =>
    ⟨hcalm r (hstages r hr) hready, hready.made⟩) ?_
  cases hok : ((Files.ensureParent (Path.ofNames true names)).run.run fs).1 with
  | error e => exact .pure _
  | ok u =>
    obtain ⟨w, ns, rfl⟩ := List.exists_cons_of_ne_nil hc.ne_nil
    have hw := hc.isName w List.mem_cons_self
    have hns : ∀ v ∈ ns, IsName v := fun v hv => hc.isName v (List.mem_cons_of_mem w hv)
    have hup := linkStatus_of_ensureParent hs hc.isName hok
    refine .of_ready fun hready _ => ?_
    have hc' := hcalm _ (hstages _ (Script.mem_stages_run _ fs)) hready
    dsimp only
    rw [← Path.ofNames_join ns hns hw, Files.directoryOf_join (Path.isAbsolute_ofNames ns)
      (Path.tidy_ofNames hns) hw, pure_bind]
    rw [Path.ofNames_join ns hns hw]
    exact settles_writeIn hD hc' hup content

end Division
end Retrace
