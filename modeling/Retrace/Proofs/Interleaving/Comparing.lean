import Retrace.Proofs.FileSystem.Growth
import Retrace.Proofs.Interleaving.Faring

/-!
The paths of one rollback among others. A path is calm when it leads into what belongs to the rollback and
passes nothing that others change, but for directories of the path itself that others need too. What a
calm path leads to is then the same for the rollback alone and among the others (`Calm.reached_eq`), and
so is the directory before its end, unless the others have made a directory there already
(`Calm.approached`).
-/
namespace Retrace

open FileSystem
open Retrace.Path (IsName dot)

namespace FileSystem

variable {fs fs' : FileSystem} {manner : Manner} {n : Nat} {d : Location} {w : Bytes} {names : List Bytes}
  {follow : Bool}

theorem pathPieces_ofNames (hn : ∀ v ∈ names, IsName v) :
    pathPieces (Path.ofNames true names) = names.reverse := by
  rw [pathPieces_of_tidy (Path.tidy_ofNames hn), Path.named_ofNames hn]

theorem passage_ofNames (hn : ∀ v ∈ names, IsName v) : fs.passage (Path.ofNames true names) =
    fs.walkPassage mostLinks [] (names.reverse.map (·, true)) := by
  rw [passage, start_of_isAbsolute (Path.isAbsolute_ofNames names), pathPieces_ofNames hn]

theorem ending?_ofNames (hn : ∀ v ∈ names, IsName v) : fs.ending? follow (Path.ofNames true names) =
    fs.walkEnd follow mostLinks [] names.reverse := by
  rw [ending?, start_of_isAbsolute (Path.isAbsolute_ofNames names), pathPieces_ofNames hn]

theorem find_ofNames (hn : ∀ v ∈ names, IsName v) : fs.find manner (Path.ofNames true names) =
    if longestPath ≤ (Path.ofNames true names).bytes.length then .error .nameTooLong
    else fs.walk manner mostLinks [] names.reverse := by
  rw [FileSystem.find, if_neg (Path.bytes_ne_nil_of_isAbsolute (Path.isAbsolute_ofNames names)),
    start_of_isAbsolute (Path.isAbsolute_ofNames names), pathPieces_ofNames hn]

theorem approach_ofNames (hn : ∀ v ∈ w :: names, IsName v) :
    fs.approach (Path.ofNames true (w :: names)) =
      if longestPath ≤ (Path.ofNames true (w :: names)).bytes.length then .error .nameTooLong
      else match fs.walk ⟨true, true⟩ mostLinks [] (names.reverse ++ [[dot]]) with
        | .ok (.entry l _ _) => .ok ⟨l, .name w, false⟩
        | .ok (.vacant ..) => .error .noEntry
        | .error e => .error e := by
  have hnames : ∀ v ∈ names, IsName v := fun v hv => hn v (List.mem_cons_of_mem w hv)
  have hw := hn w List.mem_cons_self
  by_cases hlong : longestPath ≤ (Path.ofNames true (w :: names)).bytes.length
  · rw [FileSystem.approach, if_neg (Path.bytes_ne_nil_of_isAbsolute (Path.isAbsolute_ofNames _)),
      if_pos hlong, if_pos hlong]
  · have hfits := Nat.not_le.1 hlong
    rw [if_neg hlong]
    rw [← Path.ofNames_join names hnames hw] at hfits ⊢
    have happroach : fs.approach _ = _ := approach_join_name (Path.isAbsolute_ofNames names) hw hfits
    rw [Path.named_ofNames hnames] at happroach
    exact happroach

theorem goesOn_name (hw : IsName w) : GoesOn [w] := by
  simp [GoesOn, hw.1]

theorem goesOn_dot : GoesOn [[dot]] := by
  simp [GoesOn]

theorem approach_of_long (hn : ∀ v ∈ w :: names, IsName v)
    (hlong : longestPath ≤ (Path.ofNames true (w :: names)).bytes.length) :
    fs.approach (Path.ofNames true (w :: names)) = .error .nameTooLong := by
  rw [approach_ofNames hn, if_pos hlong]

section

variable (hn : ∀ v ∈ w :: names, IsName v)
  (hfits : ¬longestPath ≤ (Path.ofNames true (w :: names)).bytes.length)
include hn hfits

theorem approach_of_fails {err : Errno} (h : Fails fs true mostLinks [] names.reverse err) :
    fs.approach (Path.ofNames true (w :: names)) = .error err := by
  rw [approach_ofNames hn, if_neg hfits, h _ _ goesOn_dot]

theorem approach_of_leadsOn {m : Nat} (h : LeadsOn fs true mostLinks [] names.reverse n d)
    (hd : fs.at d = some (.directory m)) : fs.approach (Path.ofNames true (w :: names)) =
      if !fs.admits d then .error .denied else .ok ⟨d, .name w, false⟩ := by
  rw [approach_ofNames hn, if_neg hfits, h _ _ goesOn_dot, walk_stay, walk_nil, arrive, hd, Bool.true_and]
  cases fs.admits d <;> rfl

end

theorem walkEnd_last (hw : IsLookedUp w) : fs.walkEnd false n d [w] = some (w :: d) := by
  rw [walkEnd_name hw]
  cases fs.at (w :: d) with
  | none => exact walkEnd_nil
  | some e => cases e <;> first | exact walkEnd_nil | simp

/-- The last piece of a path leads two trees on alike where they have the same entry under it. -/
theorem walk_last_alike (hw : IsLookedUp w) (hlevel : Level fs fs' d)
    (hlags : ∀ x ∈ fs.walkPassage n d [(w, true)], Lags fs fs' x)
    (hsame : fs'.at (w :: d) = fs.at (w :: d)) : fs'.walk manner n d [w] = fs.walk manner n d [w] := by
  rw [walk_name hw, walk_name hw, hlevel.admits, hsame]
  split
  · rfl
  split
  · rfl
  cases hx : fs.at (w :: d) with
  | none => rfl
  | some e =>
    cases e with
    | file m c => rfl
    | directory m => simp only [walk_nil, arrive, hsame]
    | link t =>
      dsimp only
      split
      · rfl
      cases n with
      | zero => rfl
      | succ n =>
        rw [walkPassage_name hw, hx] at hlags
        have hcompared : Compared fs fs' manner.dots n (start d t) ((pathPieces t).map (·, false)) :=
          walk_alike (fun x hx => hlags x (List.mem_cons_of_mem _ (by simpa using hx))) (hlevel.start t)
        rcases hcompared with ⟨qs, n', d', v, rest, hfork⟩ | hstep
        · have hmem : (v, true) ∈ (pathPieces t).map (·, false) := by rw [hfork.split]; simp
          simp at hmem
        · have := hstep.same manner.follow
          rw [names_pieces] at this
          simpa using this

end FileSystem

namespace Division

variable {ι : Type} (D : Division ι) (i : ι)

structure Calm (fs : FileSystem) (names : List Bytes) : Prop where
  ne_nil : names ≠ []
  isName : ∀ v ∈ names, IsName v
  clear : ∀ x ∈ fs.passage (Path.ofNames true names), ¬D.Foreign i x.1 ∧ ¬D.Scratch x.1
  shared : ∀ x ∈ fs.passage (Path.ofNames true names), D.Shared i x.1 →
    x.2 = true ∧ ∀ v ∈ names, v.length ≤ longestName
  ends (follow : Bool) {k : Location} : fs.ending? follow (Path.ofNames true names) = some k → D.own i k

variable {D i} {fs g : FileSystem} {names ns us pre vs : List Bytes} {n : Nat}
  {d k l : Location} {w v : Bytes} {e : Entry} {follow dots : Bool}

theorem Calm.lags (hc : D.Calm i fs names) (hm : D.Mirrors i fs g) :
    ∀ x ∈ fs.walkPassage mostLinks [] (names.reverse.map (·, true)), Lags fs g x := by
  intro x hx
  rw [← passage_ofNames hc.isName] at hx
  obtain ⟨hforeign, hscratch⟩ := hc.clear x hx
  by_cases hs : D.Shared i x.1
  · by_cases hnone : fs.at x.1 = none
    · exact .inr ⟨(hc.shared x hx hs).1, hnone⟩
    · exact .inl (hm.more hs.1 hnone)
  · exact .inl (hm.same ⟨hforeign, hs, hscratch⟩)

theorem seen_root (hD : D.Fair) : D.Seen i [] :=
  ⟨fun ⟨_, _, hj⟩ => hD.root hj, fun hs => hs.1.ne_nil rfl, fun hs => by cases hs.1.2⟩

theorem Mirrors.level_root (hD : D.Fair) (hm : D.Mirrors i fs g) : Level fs g [] := by
  intro j hj
  rw [List.suffix_nil.1 hj]
  exact ⟨hm.same (seen_root hD), _, at_nil fs⟩

theorem Calm.compared (hD : D.Fair) (hc : D.Calm i fs names) (hm : D.Mirrors i fs g) (hns : ns <:+ names)
    (dots : Bool) : Compared fs g dots mostLinks [] (ns.reverse.map (·, true)) := by
  refine walk_alike (fun x hx => hc.lags hm x ?_) (hm.level_root hD)
  obtain ⟨us, rfl⟩ := hns
  rw [List.reverse_append, List.map_append]
  exact walkPassage_append _ hx

/-! ### Directories that only the others have made -/

/-- The way of a path from a directory that is there on, where the rollback alone has not made a directory
that is there among the others. -/
structure Chain (D : Division ι) (i : ι) (fs g : FileSystem) (dots : Bool) (us pre : List Bytes)
    (n : Nat) (d : Location) : Prop where
  isName : ∀ v ∈ us, IsName v
  short : ∀ v ∈ us, v.length ≤ longestName
  reaches : Reaches fs g dots mostLinks [] (pre.reverse.map (·, true)) n d
  admits : fs.admits d = true
  missing {vs : List Bytes} : vs <:+ us → vs ≠ [] → fs.at (vs ++ d) = none
  place {vs : List Bytes} : vs <:+ us → vs ≠ [] → D.own i (vs ++ d) ∨ D.Soft (vs ++ d)
  there : ∃ v, [v] <:+ us ∧ g.at (v :: d) ≠ none
  own : D.own i (us ++ d)
  way : ∀ x ∈ fs.walkPassage mostLinks [] (pre.reverse.map (·, true)), D.Seen i x.1 ∨ D.Soft x.1

theorem suffix_getLast {us vs : List Bytes} (h : [v] <:+ us) (hvs : vs <:+ us) (hne : vs ≠ []) :
    [v] <:+ vs :=
  List.suffix_of_suffix_length_le h hvs (List.length_pos_iff.2 hne)

/-- The places on the way of a path through places that are missing. -/
theorem Calm.through (hc : D.Calm i fs (us ++ pre)) (hm : D.Mirrors i fs g)
    (hreach : Reaches fs g dots mostLinks [] (pre.reverse.map (·, true)) n d) (hne : us ≠ [])
    (hmissing : ∀ vs, vs <:+ us → vs ≠ [] → fs.at (vs ++ d) = none) :
    D.own i (us ++ d) ∧ ∀ vs, vs <:+ us → vs ≠ [] →
      (vs ++ d, true) ∈ fs.passage (Path.ofNames true (us ++ pre)) ∧
        (D.own i (vs ++ d) ∨ D.Soft (vs ++ d)) := by
  have hlooked : ∀ v ∈ us, IsLookedUp v := fun v hv =>
    isLookedUp_of_isName (hc.isName v (List.mem_append_left _ hv))
  have hdirs : ∀ vs, vs <:+ us → vs ≠ [] → ∀ e ∈ fs.at (vs ++ d), e.isDirectory = true :=
    fun vs hvs hne e he => by rw [hmissing vs hvs hne] at he; cases he
  have hown : D.own i (us ++ d) := by
    refine hc.ends true ?_
    rw [ending?_ofNames hc.isName, List.reverse_append]
    rw [hreach.ends_names true (by simpa using hne), ← List.append_nil us.reverse,
      walkEnd_through hlooked hdirs, walkEnd_nil]
  refine ⟨hown, fun vs hvs hvne => ?_⟩
  have hpass : (vs ++ d, true) ∈ fs.passage (Path.ofNames true (us ++ pre)) := by
    rw [passage_ofNames hc.isName, List.reverse_append, List.map_append]
    refine hreach.passes _ _ ?_
    have := (mem_walkPassage_through (n := n) hlooked hdirs).2 [] vs hvs hvne
    rwa [List.append_nil] at this
  refine ⟨hpass, ?_⟩
  by_cases hi : D.own i (vs ++ d)
  · exact .inl hi
  · have hnot : ∀ j, ¬D.own j (vs ++ d) := fun j hj => by
      by_cases hji : j = i
      · exact hi (hji ▸ hj)
      · exact (hc.clear _ hpass).1 ⟨j, hji, hj⟩
    have hbase : D.base.at (vs ++ d) = none := by
      by_contra hb
      rw [← hm.alone.kept hnot hb] at hb
      exact hb (hmissing vs hvs hvne)
    obtain ⟨xs, rfl⟩ := hvs
    exact .inr ⟨⟨hnot, hbase⟩, i, _, hown, xs, (List.append_assoc xs vs d).symm⟩

theorem Calm.chain (hc : D.Calm i fs names) (hm : D.Mirrors i fs g) (hns : ns <:+ names) {qs rest : List Piece}
    (hfork : Fork fs g dots mostLinks [] (ns.reverse.map (·, true)) qs n d v rest) :
    ∃ us pre xs, names = us ++ pre ∧ ns = xs ++ pre ∧ xs ≠ [] ∧ xs <:+ us ∧
      D.Chain i fs g dots us pre n d := by
  obtain ⟨ls, rs, hrev, hls, hrs⟩ := List.map_eq_append_iff.1 hfork.split
  obtain ⟨v', ts, rfl, hv, -⟩ := List.map_eq_cons_iff.1 hrs
  obtain rfl : v' = v := congrArg Prod.fst hv
  have hns' : ns = (ts.reverse ++ [v']) ++ ls.reverse := by
    rw [← List.reverse_reverse ns, hrev]
    simp
  obtain ⟨ys, rfl⟩ := hns
  have hnames : ys ++ ns = (ys ++ ts.reverse ++ [v']) ++ ls.reverse := by rw [hns']; simp
  have hreach : Reaches fs g dots mostLinks [] (ls.reverse.reverse.map (·, true)) n d := by
    rw [List.reverse_reverse, hls]
    exact hfork.toReaches
  have hlast : [v'] <:+ ys ++ ts.reverse ++ [v'] := List.suffix_append _ _
  -- nothing stands below a missing place
  have hmissing : ∀ vs, vs <:+ ys ++ ts.reverse ++ [v'] → vs ≠ [] → fs.at (vs ++ d) = none := by
    intro vs hvs hne
    obtain ⟨xs, rfl⟩ := suffix_getLast hlast hvs hne
    by_cases hxs : xs = []
    · rw [hxs]
      exact hfork.missing
    · refine hm.alone.sound.none_below (l := v' :: d) (by simp [hfork.missing])
        ⟨xs, by simp⟩ fun hc => hxs ?_
      have := congrArg List.length hc
      simp only [List.length_append, List.length_cons, List.length_nil] at this
      exact List.length_eq_zero_iff.1 (by omega)
  rw [hnames] at hc ⊢
  obtain ⟨hown, hplaces⟩ := hc.through hm hreach (by simp) hmissing
  obtain ⟨hpass, -⟩ := hplaces [v'] hlast (by simp)
  have hshared : D.Shared i (v' :: d) := by
    by_contra hs
    have hseen : D.Seen i (v' :: d) := ⟨(hc.clear _ hpass).1, hs, (hc.clear _ hpass).2⟩
    exact hfork.there ((hm.same hseen).trans hfork.missing)
  exact ⟨_, _, ts.reverse ++ [v'], rfl, hns', by simp, ⟨ys, by simp⟩,
    { isName := fun v hv => hc.isName v (List.mem_append_left _ hv)
      short := fun v hv => (hc.shared _ hpass hshared).2 v (List.mem_append_left _ hv)
      reaches := hreach
      admits := hfork.looked.admits
      missing := hmissing _
      place := fun hvs hne => (hplaces _ hvs hne).2
      there := ⟨v', hlast, hfork.there⟩
      own := hown
      way := fun x hx => by
        obtain ⟨hforeign, hscratch⟩ := hc.clear x (by
          rw [passage_ofNames hc.isName, List.reverse_append, List.map_append]
          exact walkPassage_append _ hx)
        by_cases hs : D.Shared i x.1
        · exact .inr hs.1
        · exact .inl ⟨hforeign, hs, hscratch⟩ }⟩

theorem walk_chain {h : FileSystem} (hgoes : LeadsOn h dots mostLinks [] pre.reverse n d)
    (hadmits : h.admits d = true) (hn : ∀ v ∈ us, IsLookedUp v ∧ v.length ≤ longestName)
    (hus : ∀ vs, vs <:+ us → vs ≠ [] → ∀ e ∈ h.at (vs ++ d), e.isDirectory = true ∧
      h.admits (vs ++ d) = true) {xs : List Bytes} (hxs : GoesOn xs) :
    (h.walk ⟨follow, dots⟩ mostLinks [] ((us ++ pre).reverse ++ xs) = .error .noEntry ∧
        ∃ vs, vs <:+ us ∧ vs ≠ [] ∧ h.at (vs ++ d) = none) ∨
      h.walk ⟨follow, dots⟩ mostLinks [] ((us ++ pre).reverse ++ xs) = h.walk ⟨follow, dots⟩ n (us ++ d) xs ∧
        ∀ vs, vs <:+ us → vs ≠ [] → ∃ m, h.at (vs ++ d) = some (.directory m) := by
  rw [List.reverse_append, List.append_assoc, hgoes follow _ (hxs.append _)]
  by_cases hnone : ∃ vs, vs <:+ us ∧ vs ≠ [] ∧ h.at (vs ++ d) = none
  · exact .inl ⟨walk_missing hn hadmits hus hnone xs hxs, hnone⟩
  · have hthere : ∀ vs, vs <:+ us → vs ≠ [] → (∃ m, h.at (vs ++ d) = some (.directory m)) ∧
        h.admits (vs ++ d) = true := by
      intro vs hvs hne
      obtain ⟨e, he⟩ := Option.ne_none_iff_exists'.1 fun hc => hnone ⟨vs, hvs, hne, hc⟩
      obtain ⟨hdir, ha⟩ := hus vs hvs hne e he
      refine ⟨?_, ha⟩
      cases e with
      | directory m => exact ⟨m, he⟩
      | _ => cases hdir
    exact .inr ⟨walk_through hn hadmits hthere xs, fun vs hvs hne => (hthere vs hvs hne).1⟩

theorem newDirectory_open {g' : FileSystem} (h : g.at k = some (g'.newDirectory d)) :
    g.admits k = true ∧ g.yields k = true := by
  rw [admits, yields, h, newDirectory]
  split <;> decide

theorem Chain.among (h : D.Chain i fs g dots us pre n d) (hD : D.Fair) (hm : D.Mirrors i fs g)
    (hvs : vs <:+ us) (hne : vs ≠ []) (he : g.at (vs ++ d) = some e) :
    D.Soft (vs ++ d) ∧ e = g.newDirectory (vs ++ d).tail ∧ g.admits (vs ++ d) = true ∧
      g.yields (vs ++ d) = true := by
  rcases h.place hvs hne with hown | hsoft
  · rw [hm.at_own hD hown, h.missing hvs hne] at he
    cases he
  · rcases hm.among.soft hsoft with hnone | ⟨hnew, -⟩
    · rw [hnone] at he; cases he
    · obtain ⟨ha, hy⟩ := newDirectory_open hnew
      exact ⟨hsoft, Option.some.inj (he.symm.trans hnew), ha, hy⟩

theorem Chain.isLookedUp (h : D.Chain i fs g dots us pre n d) :
    ∀ v ∈ us, IsLookedUp v ∧ v.length ≤ longestName := fun v hv =>
  ⟨isLookedUp_of_isName (h.isName v hv), h.short v hv⟩

theorem Chain.admits_among (h : D.Chain i fs g dots us pre n d) : g.admits d = true := by
  rw [h.reaches.level.admits]; exact h.admits

theorem Chain.goes (h : D.Chain i fs g dots us pre n d) :
    LeadsOn fs dots mostLinks [] pre.reverse n d := h.reaches.leads

theorem Chain.goes_among (h : D.Chain i fs g dots us pre n d) :
    LeadsOn g dots mostLinks [] pre.reverse n d := h.reaches.leads'

theorem Chain.walk_alone (h : D.Chain i fs g dots us pre n d) (hvs : vs <:+ us) (hne : vs ≠ [])
    {xs : List Bytes} (hxs : GoesOn xs) :
    fs.walk ⟨follow, dots⟩ mostLinks [] ((vs ++ pre).reverse ++ xs) = .error .noEntry := by
  rw [List.reverse_append, List.append_assoc, h.goes follow _ (hxs.append _)]
  refine walk_missing (fun v hv => h.isLookedUp v (hvs.subset hv)) h.admits (fun us' hus' hne' e he => ?_)
    ⟨vs, List.suffix_rfl, hne, h.missing hvs hne⟩ xs hxs
  rw [h.missing (hus'.trans hvs) hne'] at he
  cases he

theorem Chain.walk_among (h : D.Chain i fs g dots us pre n d) (hD : D.Fair) (hm : D.Mirrors i fs g)
    (hvs : vs <:+ us) {xs : List Bytes} (hxs : GoesOn xs) :
    (g.walk ⟨follow, dots⟩ mostLinks [] ((vs ++ pre).reverse ++ xs) = .error .noEntry ∧
        ∃ us', us' <:+ vs ∧ us' ≠ [] ∧ g.at (us' ++ d) = none) ∨
      g.walk ⟨follow, dots⟩ mostLinks [] ((vs ++ pre).reverse ++ xs) = g.walk ⟨follow, dots⟩ n (vs ++ d) xs ∧
        ∀ us', us' <:+ vs → us' ≠ [] → ∃ m, g.at (us' ++ d) = some (.directory m) := by
  refine walk_chain h.goes_among h.admits_among (fun v hv => h.isLookedUp v (hvs.subset hv))
    (fun us' hus' hne e he => ?_) hxs
  obtain ⟨-, rfl, ha, -⟩ := h.among hD hm (hus'.trans hvs) hne he
  exact ⟨rfl, ha⟩

/-! ### What a path leads to -/

/-- The way to the directory before the end of a calm path comes alone to a place that is missing, or gets
there in both trees, or fails in both. -/
theorem Calm.led (hD : D.Fair) (hc : D.Calm i fs (w :: ns)) (hm : D.Mirrors i fs g) (dots : Bool) :
    (∃ us pre n d, ns = us ++ pre ∧ us ≠ [] ∧ D.Chain i fs g dots (w :: us) pre n d) ∨
      (∃ n d, Reaches fs g dots mostLinks [] (ns.reverse.map (·, true)) n d ∧ D.own i (w :: d)) ∨
      ∃ err, Fails fs dots mostLinks [] ns.reverse err ∧ Fails g dots mostLinks [] ns.reverse err := by
  rcases hc.compared hD hm (List.suffix_cons w ns) dots with ⟨qs, n, d, v, rest, hfork⟩ | hstep
  · obtain ⟨us, pre, xs, hnames, rfl, hne, -, hchain⟩ := hc.chain hm (List.suffix_cons w ns) hfork
    obtain rfl : us = w :: xs := by
      rw [← List.cons_append] at hnames
      exact (List.append_cancel_right hnames).symm
    exact .inl ⟨xs, pre, n, d, rfl, hne, hchain⟩
  · rcases hstep.on with ⟨n, d, hreach⟩ | ⟨err, hf, hf'⟩
    · refine .inr (.inl ⟨n, d, hreach, hc.ends false ?_⟩)
      rw [ending?_ofNames hc.isName, List.reverse_cons, hreach.ends_names false (by simp),
        walkEnd_last (isLookedUp_of_isName (hc.isName w List.mem_cons_self))]
    · rw [names_pieces] at hf hf'
      exact .inr (.inr ⟨err, hf, hf'⟩)

/-- A calm path leads to the same entry alone and among the others. -/
theorem Calm.reached_eq (hD : D.Fair) (hc : D.Calm i fs names) (hm : D.Mirrors i fs g) (follow dots : Bool) :
    (g.find ⟨follow, dots⟩ (Path.ofNames true names) >>= Found.reached) =
      fs.find ⟨follow, dots⟩ (Path.ofNames true names) >>= Found.reached := by
  rw [find_ofNames hc.isName, find_ofNames hc.isName]
  by_cases hlong : longestPath ≤ (Path.ofNames true names).bytes.length
  · rw [if_pos hlong, if_pos hlong]
  rw [if_neg hlong, if_neg hlong]
  obtain ⟨w, ns, rfl⟩ := List.exists_cons_of_ne_nil hc.ne_nil
  have hw := hc.isName w List.mem_cons_self
  have hlooked := isLookedUp_of_isName hw
  rw [List.reverse_cons]
  rcases hc.led hD hm dots with ⟨us, pre, n, d, rfl, hne, hchain⟩ | ⟨n, d, hreach, hown⟩ | ⟨err, hf, hf'⟩
  · rw [hchain.walk_alone (List.suffix_cons w us) hne (goesOn_name hw)]
    rcases hchain.walk_among hD hm (List.suffix_cons w us) (goesOn_name hw) with ⟨hmiss, -⟩ | ⟨hthere, hdirs⟩
    · rw [hmiss]
    · rw [hthere, walk_name hlooked]
      obtain ⟨m, hm'⟩ := hdirs us List.suffix_rfl hne
      obtain ⟨-, -, ha, -⟩ := hchain.among hD hm (List.suffix_cons w us) hne hm'
      have hnone : g.at (w :: (us ++ d)) = none :=
        (hm.at_own hD hchain.own).trans (hchain.missing List.suffix_rfl (List.cons_ne_nil _ _))
      rw [ha, if_neg (by simp), if_neg (Nat.not_lt.2 (hchain.short w List.mem_cons_self)), hnone]
      rfl
  · rw [hreach.leads follow _ (goesOn_name hw), hreach.leads' follow _ (goesOn_name hw),
      walk_last_alike hlooked hreach.level (fun x hx => hc.lags hm x ?_) (hm.at_own hD hown)]
    rw [List.reverse_cons, List.map_append]
    exact hreach.passes _ x hx
  · rw [hf follow _ (goesOn_name hw), hf' follow _ (goesOn_name hw)]

theorem Calm.own_of_find {r : Found} (hc : D.Calm i fs names)
    (h : fs.find ⟨follow, dots⟩ (Path.ofNames true names) = .ok r) : D.own i r.location := by
  rw [find_ofNames hc.isName] at h
  split at h
  · cases h
  · exact hc.ends _ (by rw [ending?_ofNames hc.isName, walkEnd_of_walk h])

theorem Calm.own_of_entryAt {x : Location × Entry} (hc : D.Calm i fs names)
    (h : fs.entryAt follow (Path.ofNames true names) = .ok x) : D.own i x.1 ∧ fs.at x.1 = some x.2 := by
  obtain ⟨r, hfind, hreached⟩ := exists_of_bind h
  have hend := hc.own_of_find hfind
  rw [find_ofNames hc.isName] at hfind
  split at hfind
  · cases hfind
  cases r with
  | vacant d w slash => cases hreached
  | entry l e slash =>
    rw [Found.reached] at hreached
    split at hreached
    · cases hreached
    · obtain rfl := Except.ok.inj hreached
      exact ⟨hend, walk_entry hfind⟩

/-! ### The directory before the end of a path -/

theorem Chain.reached_alone (h : D.Chain i fs g dots us pre n d) (hvs : vs <:+ us) (hne : vs ≠ []) :
    (fs.walk ⟨follow, dots⟩ mostLinks [] (vs ++ pre).reverse >>= Found.reached) = .error .noEntry := by
  obtain ⟨x, vs, rfl⟩ := List.exists_cons_of_ne_nil hne
  obtain ⟨hlooked, hshort⟩ := h.isLookedUp x (hvs.subset List.mem_cons_self)
  rw [List.cons_append, List.reverse_cons]
  have hgo : GoesOn [x] := by simp [GoesOn, hlooked.1]
  by_cases hvs' : vs = []
  · subst hvs'
    rw [List.nil_append, h.goes follow _ hgo, walk_name hlooked, h.admits, if_neg (by simp),
      if_neg (Nat.not_lt.2 hshort), show fs.at (x :: d) = none from h.missing hvs hne]
    rfl
  · rw [h.walk_alone ((List.suffix_cons x vs).trans hvs) hvs' hgo]
    rfl

theorem length_ofNames_cons (hn : ∀ v ∈ w :: ns, IsName v) :
    (Path.ofNames true ns).bytes.length < (Path.ofNames true (w :: ns)).bytes.length := by
  rw [← Path.ofNames_join ns (fun v hv => hn v (List.mem_cons_of_mem w hv)) (hn w List.mem_cons_self)]
  exact Path.lt_length_join_name _ (hn w List.mem_cons_self)

/-- The directory before the end of a path is the same alone and among the others. -/
structure Abreast (D : Division ι) (i : ι) (fs g : FileSystem) (w : Bytes) (f : Path) : Prop where
  approach : g.approach f = fs.approach f
  find : g.find ⟨true, true⟩ f = fs.find ⟨true, true⟩ f
  place {a : Approach} : fs.approach f = .ok a →
    ∃ d, a = ⟨d, .name w, false⟩ ∧ D.own i (w :: d) ∧ Level fs g d ∧ fs.admits d = true

structure Behind (fs g : FileSystem) (w : Bytes) (up f : Path) : Prop where
  approach : fs.approach f = .error .noEntry
  missing : fs.entryAt false up = .error .noEntry
  among : g.approach f = .error .noEntry ∨
    ∃ d, g.approach f = .ok ⟨d, .name w, false⟩ ∧ w.length ≤ longestName ∧ g.at (w :: d) = none

theorem abreast_of_long (hn : ∀ v ∈ w :: ns, IsName v)
    (hlong : longestPath ≤ (Path.ofNames true (w :: ns)).bytes.length) :
    D.Abreast i fs g w (Path.ofNames true (w :: ns)) where
  approach := by rw [approach_of_long hn hlong, approach_of_long hn hlong]
  find := by rw [find_ofNames hn, find_ofNames hn, if_pos hlong, if_pos hlong]
  place ha := by
    rw [approach_of_long hn hlong] at ha
    cases ha

section

variable (hfits : ¬longestPath ≤ (Path.ofNames true (w :: ns)).bytes.length)
include hfits

theorem abreast_of_fails {err : Errno} (hn : ∀ v ∈ w :: ns, IsName v)
    (h : Fails fs true mostLinks [] ns.reverse err) (h' : Fails g true mostLinks [] ns.reverse err) :
    D.Abreast i fs g w (Path.ofNames true (w :: ns)) where
  approach := by rw [approach_of_fails hn hfits h, approach_of_fails hn hfits h']
  find := by
    have hw := goesOn_name (hn w List.mem_cons_self)
    rw [find_ofNames hn, find_ofNames hn, if_neg hfits, if_neg hfits, List.reverse_cons, h _ _ hw, h' _ _ hw]
  place ha := by
    rw [approach_of_fails hn hfits h] at ha
    cases ha

theorem Calm.abreast_of_reaches (hD : D.Fair) (hc : D.Calm i fs (w :: ns)) (hm : D.Mirrors i fs g)
    (hreach : Reaches fs g true mostLinks [] (ns.reverse.map (·, true)) n d) (hown : D.own i (w :: d)) :
    D.Abreast i fs g w (Path.ofNames true (w :: ns)) := by
  have hw := hc.isName w List.mem_cons_self
  obtain ⟨m, hd⟩ := (hreach.level d List.suffix_rfl).2
  have happ := approach_of_leadsOn hc.isName hfits hreach.leads hd
  refine ⟨?_, ?_, fun {a} ha => ?_⟩
  · rw [happ, approach_of_leadsOn hc.isName hfits hreach.leads' (hreach.level.at_self.trans hd),
      hreach.level.admits]
  · rw [find_ofNames hc.isName, find_ofNames hc.isName, if_neg hfits, if_neg hfits, List.reverse_cons,
      hreach.leads _ _ (goesOn_name hw), hreach.leads' _ _ (goesOn_name hw)]
    refine walk_last_alike (isLookedUp_of_isName hw) hreach.level (fun x hx => hc.lags hm x ?_)
      (hm.at_own hD hown)
    rw [List.reverse_cons, List.map_append]
    exact hreach.passes _ x hx
  · rw [happ] at ha
    by_cases hadmits : fs.admits d = true
    · rw [hadmits, if_neg (by simp)] at ha
      exact ⟨d, (Except.ok.inj ha).symm, hown, hreach.level, hadmits⟩
    · rw [if_pos (by simpa using hadmits)] at ha
      cases ha

end

theorem Chain.behind (hD : D.Fair) (hm : D.Mirrors i fs g) (h : D.Chain i fs g true (w :: us) pre n d)
    (hne : us ≠ []) (hn : ∀ v ∈ w :: (us ++ pre), IsName v)
    (hfits : ¬longestPath ≤ (Path.ofNames true (w :: (us ++ pre))).bytes.length) :
    Behind fs g w (Path.ofNames true (us ++ pre)) (Path.ofNames true (w :: (us ++ pre))) where
  approach := by
    rw [approach_ofNames hn, if_neg hfits, h.walk_alone (List.suffix_cons w us) hne goesOn_dot]
  missing := by
    have hshorter := length_ofNames_cons hn
    rw [entryAt, find_ofNames fun v hv => hn v (List.mem_cons_of_mem w hv), if_neg (by omega)]
    exact h.reached_alone (List.suffix_cons w us) hne
  among := by
    rw [approach_ofNames hn, if_neg hfits]
    rcases h.walk_among hD hm (List.suffix_cons w us) goesOn_dot with ⟨hmiss, -⟩ | ⟨hthere, hdirs⟩
    · exact .inl (by rw [hmiss])
    · obtain ⟨m, hm'⟩ := hdirs us List.suffix_rfl hne
      obtain ⟨-, -, ha, -⟩ := h.among hD hm (List.suffix_cons w us) hne hm'
      refine .inr ⟨us ++ d, ?_, h.short w List.mem_cons_self,
        (hm.at_own hD h.own).trans (h.missing List.suffix_rfl (List.cons_ne_nil _ _))⟩
      rw [hthere, walk_stay, ha, if_neg (by simp), walk_nil, arrive, hm']

theorem Calm.approached (hD : D.Fair) (hc : D.Calm i fs (w :: ns)) (hm : D.Mirrors i fs g) :
    D.Abreast i fs g w (Path.ofNames true (w :: ns)) ∨
      Behind fs g w (Path.ofNames true ns) (Path.ofNames true (w :: ns)) := by
  by_cases hlong : longestPath ≤ (Path.ofNames true (w :: ns)).bytes.length
  · exact .inl (abreast_of_long hc.isName hlong)
  rcases hc.led hD hm true with ⟨us, pre, n, d, rfl, hne, hchain⟩ | ⟨n, d, hreach, hown⟩ | ⟨err, hf, hf'⟩
  · exact .inr (hchain.behind hD hm hne hc.isName hlong)
  · exact .inl (hc.abreast_of_reaches hlong hD hm hreach hown)
  · exact .inl (abreast_of_fails hlong hc.isName hf hf')

end Division
end Retrace
