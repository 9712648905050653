import Retrace.Proofs.CommandLine.Steps
import Retrace.Proofs.FileSystem.Straight
import Retrace.Proofs.Touch

/-!
The directories above a path that are missing. They are found upwards (`lacking`) and made downwards
(`Lays`), each recorded before it is made (`Notes`); to take them away again from the last one on leads
back to the very tree that was there before (`Lays.revert`). Main theorem: `recordMissing_exact`.
-/
namespace Retrace.CommandLine

open FileSystem Retrace.Path Script Files
open Retrace.CommandLine.Action (Ends)

variable {d d' d₁ : Desk} {fs fs' : FileSystem} {p q : Path} {cs zs : List Bytes} {ps : List Path}
  {n : Nat} {k : Location}

/-! ### Finding what is missing -/

/-- The directories that are missing up to the path of the pieces, outermost first. -/
def lacking (fs : FileSystem) : List Bytes → List Path
  | [] => []
  | c :: cs =>
    if isBlank c then lacking fs cs
    else if Present fs (back (c :: cs)) then []
    else lacking fs cs ++ [back (c :: cs)]

/-- The search goes up to the first directory that is there. -/
theorem missingAbove_back (hc : ∀ w ∈ cs, slash ∉ w) (hn : cs.length < n) (found : List Path) :
    (missingAbove n found (some (back cs))).run fs = (lacking fs cs ++ found, fs) := by
  induction cs generalizing n found with
  | nil =>
    obtain ⟨n, rfl⟩ := Nat.exists_eq_succ_of_ne_zero (Nat.ne_of_gt hn)
    rw [missingAbove, if_neg (bytes_ne_nil_of_isAbsolute rfl), run_bind, present_run]
    rfl
  | cons c cs ih =>
    have hcs : ∀ w ∈ cs, slash ∉ w := fun w hw => hc w (List.mem_cons_of_mem _ hw)
    rw [List.length_cons] at hn
    cases hb : isBlank c with
    | true => rw [back_blank hb, ih hcs (by omega), lacking, if_pos hb]
    | false =>
      obtain ⟨n, rfl⟩ := Nat.exists_eq_succ_of_ne_zero (Nat.ne_of_gt (Nat.zero_lt_of_lt hn))
      rw [missingAbove, if_neg (bytes_ne_nil_of_isAbsolute rfl), run_bind, present_run, lacking, hb]
      dsimp only
      by_cases hpresent : Present fs (back (c :: cs))
      · rw [if_pos (show (fs.linkStatus (back (c :: cs))).isOk = true from hpresent),
          if_neg Bool.false_ne_true, if_pos hpresent]
        rfl
      · rw [if_neg (show ¬(fs.linkStatus (back (c :: cs))).isOk = true from hpresent),
          if_neg Bool.false_ne_true, if_neg hpresent, parent?_back hc hb, ih hcs (by omega),
          List.append_assoc, List.singleton_append]

theorem suffix_of_mem_lacking (h : q ∈ lacking fs cs) : ∃ zs, zs <:+ cs ∧ q = back zs := by
  induction cs with
  | nil => cases h
  | cons c cs ih =>
    have hup : q ∈ lacking fs cs → ∃ zs, zs <:+ c :: cs ∧ q = back zs := fun hq =>
      (ih hq).imp fun zs hzs => ⟨hzs.1.trans (List.suffix_cons c cs), hzs.2⟩
    rw [lacking] at h
    split at h
    · exact hup h
    split at h
    · cases h
    · rcases List.mem_append.1 h with h | h
      · exact hup h
      · exact ⟨c :: cs, List.suffix_refl _, List.mem_singleton.1 h⟩

/-- What is not found missing is on the way to a directory that is there. -/
theorem mem_lacking_or (hzs : zs <:+ cs) : back zs ∈ lacking fs cs ∨
    ∃ us ys, us <:+ ys ∧ ys <:+ cs ∧ back zs = back us ∧ Present fs (back ys) := by
  induction cs generalizing zs with
  | nil =>
    rw [List.suffix_nil.1 hzs]
    exact .inr ⟨[], [], List.suffix_refl _, List.suffix_refl _, rfl, present_root fs⟩
  | cons c cs ih =>
    have hup : ∀ {zs}, zs <:+ cs → back zs ∈ lacking fs cs ∨
        ∃ us ys, us <:+ ys ∧ ys <:+ c :: cs ∧ back zs = back us ∧ Present fs (back ys) := fun hzs =>
      (ih hzs).imp_right fun ⟨us, ys, h₁, h₂, h₃⟩ => ⟨us, ys, h₁, h₂.trans (List.suffix_cons c cs), h₃⟩
    rw [lacking]
    split
    · next hb =>
      rcases List.suffix_cons_iff.1 hzs with rfl | hzs
      · rw [back_blank hb]
        exact hup (List.suffix_refl cs)
      · exact hup hzs
    split
    · next hpresent => exact .inr ⟨zs, c :: cs, hzs, List.suffix_refl _, rfl, hpresent⟩
    · rcases List.suffix_cons_iff.1 hzs with rfl | hzs
      · exact .inl (by simp)
      · exact (hup hzs).imp_left (List.mem_append_left _)

theorem pairwise_lacking (hc : ∀ w ∈ cs, slash ∉ w) : (lacking fs cs).Pairwise Path.Above := by
  induction cs with
  | nil => exact .nil
  | cons c cs ih =>
    have hcs : ∀ w ∈ cs, slash ∉ w := fun w hw => hc w (List.mem_cons_of_mem _ hw)
    rw [lacking]
    split
    · exact ih hcs
    next hb =>
    split
    · exact .nil
    · refine List.pairwise_append.2 ⟨ih hcs, List.pairwise_singleton _ _, fun q hq r hr => ?_⟩
      rw [List.mem_singleton.1 hr, above_iff_of_parent? (parent?_back hc (by simpa using hb)),
        eq_or_above_back hcs]
      exact suffix_of_mem_lacking hq

/-! ### Making what is missing -/

/-- Directories are made one after the other, each under a name in a directory. -/
inductive Lays : FileSystem → List Path → FileSystem → Prop
  | nil (fs : FileSystem) : Lays fs [] fs
  | snoc {fs fs₁ fs₂ : FileSystem} {ps : List Path} {q : Path} {w : Bytes} {l : Location}
    (h : Lays fs ps fs₁) (hq : q.spells = w :: l) (hb : Builds fs₁ w l fs₂) : Lays fs (ps ++ [q]) fs₂

namespace Lays

theorem sound (h : Lays fs ps fs') (hs : fs.Sound) : fs'.Sound := by
  induction h with
  | nil => exact hs
  | snoc _ _ hb ih =>
    obtain ⟨m, hedit, -⟩ := hb.edit ih
    exact hedit.sound

theorem workplace (h : Lays fs ps fs') : fs'.workplace = fs.workplace := by
  induction h with
  | nil => rfl
  | snoc _ _ hb ih => rw [hb.eq, workplace_insert, ih]

theorem at_eq (h : Lays fs ps fs') (hs : fs.Sound) :
    (∀ k, (∀ q ∈ ps, q.spells ≠ k) → fs'.at k = fs.at k) ∧
      ∀ q ∈ ps, fs.at q.spells = none ∧ ∃ m, fs'.at q.spells = some (.directory m) := by
  induction h with
  | nil => simp
  | @snoc fs₁ fs₂ ps q w l h hq hb ih =>
    obtain ⟨hsame, hnew⟩ := ih
    obtain ⟨m, hedit, -⟩ := hb.edit (h.sound hs)
    have hne : ∀ r ∈ ps, r.spells ≠ w :: l := fun r hr hc => by
      obtain ⟨m, hm⟩ := (hnew r hr).2
      rw [hc, hb.free] at hm
      cases hm
    refine ⟨fun k hk => ?_, fun r hr => ?_⟩
    · rw [hedit.at_of_ne fun hc => hk q (by simp) (hq.trans hc.symm)]
      exact hsame k fun r hr => hk r (by simp [hr])
    · rcases List.mem_append.1 hr with hr | hr
      · rw [hedit.at_of_ne (hne r hr)]
        exact hnew r hr
      · rw [List.mem_singleton.1 hr, hq, ← hsame _ hne, hedit.at_self]
        exact ⟨hb.free, m, rfl⟩

theorem kept (h : Lays fs ps fs') (hs : fs.Sound) (hk : (fs.at k).isSome = true) :
    fs'.at k = fs.at k := by
  obtain ⟨hsame, hnew⟩ := h.at_eq hs
  refine hsame k fun q hq hc => ?_
  rw [← hc, (hnew q hq).1] at hk
  cases hk

theorem nodup (h : Lays fs ps fs') (hs : fs.Sound) : (ps.map Path.spells).Nodup := by
  induction h with
  | nil => exact .nil
  | @snoc fs₁ fs₂ ps q w l h hq hb ih =>
    rw [List.map_append, List.map_singleton, List.nodup_append]
    refine ⟨ih, List.nodup_singleton _, fun k hk j hj hkj => ?_⟩
    obtain ⟨r, hr, rfl⟩ := List.mem_map.1 hk
    obtain ⟨m, hm⟩ := ((h.at_eq hs).2 r hr).2
    rw [hkj, List.mem_singleton.1 hj, hq, hb.free] at hm
    cases hm

theorem empty (h : Lays fs ps fs') (hs : fs.Sound) (hq : q ∈ ps) (v : Bytes)
    (hv : fs'.at (v :: q.spells) ≠ none) : ∃ r ∈ ps, r.spells = v :: q.spells := by
  by_contra hc
  push Not at hc
  obtain ⟨hsame, hnew⟩ := h.at_eq hs
  rw [hsame _ hc] at hv
  obtain ⟨e, he⟩ := Option.ne_none_iff_exists'.1 hv
  obtain ⟨m, hm⟩ := hs.parent he
  rw [(hnew q hq).1] at hm
  cases hm

theorem straight {xs : List Bytes} {here : Location} (h : Lays fs ps fs') (hs : fs.Sound)
    (hl : Straight fs here xs) : Straight fs' here xs := by
  intro ys hys t ht
  obtain ⟨hsame, hnew⟩ := h.at_eq hs
  by_cases hk : ∀ q ∈ ps, q.spells ≠ ys.foldl stack here
  · exact hl ys hys t ((hsame _ hk).symm.trans ht)
  · push Not at hk
    obtain ⟨q, hq, hk⟩ := hk
    obtain ⟨m, hm⟩ := (hnew q hq).2
    rw [hk, ht] at hm
    cases hm

end Lays

/-! ### Recording what is made -/

def created (d : Desk) (ps : List Path) : List Operation :=
  ps.mapIdx fun i q => d.manager.operationOf (d.ids (d.taken + i)) d.now .directoryCreate q {} none

/-- Directories have been recorded in the transaction under way, and nothing else. -/
structure Notes (d : Desk) (ps : List Path) (d' : Desk) : Prop where
  desk : d' = { d with taken := d.taken + ps.length, manager := d'.manager }
  manager : ps = [] ∧ d'.manager = d.manager ∨
    ∃ t, d.manager.current = some t ∧ Recorded.Noted d.manager t (created d ps) d'.manager

theorem Notes.refl (d : Desk) : Notes d [] d := ⟨rfl, .inl ⟨rfl, rfl⟩⟩

theorem created_append (d : Desk) (ps : List Path) (q : Path) : created d (ps ++ [q]) = created d ps ++
    [d.manager.operationOf (d.ids (d.taken + ps.length)) d.now .directoryCreate q {} none] := by
  rw [created, List.mapIdx_concat, created]

theorem path_created (d : Desk) (ps : List Path) :
    (created d ps).map (·.path) = ps.map d.manager.root.normalize := by
  refine List.ext_getElem? fun i => ?_
  simp only [created, List.getElem?_map, List.getElem?_mapIdx, Option.map_map]
  rfl

theorem Notes.append {m : Manager} {t : Transaction} (h : Notes d ps d₁)
    (hadd : d₁.manager.Added fs (d₁.ids d₁.taken) d₁.now .directoryCreate q {} t none m fs') :
    Notes d (ps ++ [q]) { d₁ with taken := d₁.taken + 1, manager := m } := by
  obtain ⟨hdesk, hnoted⟩ := h
  obtain ⟨u, hu, hnoted⟩ : ∃ u, d.manager.current = some u ∧
      Recorded.Noted d.manager u (created d ps) d₁.manager := by
    rcases hnoted with ⟨rfl, hsame⟩ | hnoted
    · exact ⟨t, hsame ▸ hadd.current, by simp [created, hadd.current], by rw [hsame]⟩
    · exact hnoted
  have ht : t = { u with operations := u.operations ++ created d ps } :=
    Option.some.inj (hadd.current.symm.trans hnoted.current)
  have hop : d₁.manager.operationOf (d₁.ids d₁.taken) d₁.now .directoryCreate q {} none =
      d.manager.operationOf (d.ids (d.taken + ps.length)) d.now .directoryCreate q {} none := by
    have hroot : d₁.manager.root = d.manager.root := by rw [hnoted.manager]
    rw [Manager.operationOf, Manager.operationOf, hroot]
    rw [hdesk]
  refine ⟨?_, .inr ⟨u, hu, ?_, ?_⟩⟩
  · rw [List.length_append, List.length_singleton, ← Nat.add_assoc]
    rw [hdesk]
  · rw [hadd.appended, Manager.append, ht, hop, created_append, List.append_assoc]
  · rw [hadd.appended, Manager.append, hnoted.manager]

theorem makeRecorded_append {qs : List Path} :
    Ends (makeRecorded (ps ++ qs)) d fs (.ok ()) d' fs' ↔ ∃ d₁ fs₁,
      Ends (makeRecorded ps) d fs (.ok ()) d₁ fs₁ ∧ Ends (makeRecorded qs) d₁ fs₁ (.ok ()) d' fs' := by
  induction ps generalizing d fs with
  | nil => simp [makeRecorded]
  | cons p ps ih =>
    simp only [List.cons_append, makeRecorded, Action.ends_bind_ok, ih]
    constructor
    · rintro ⟨id, d₁, fs₁, hrecord, u, d₂, fs₂, hmake, d₃, fs₃, h, hlast⟩
      exact ⟨d₃, fs₃, ⟨id, d₁, fs₁, hrecord, u, d₂, fs₂, hmake, h⟩, hlast⟩
    · rintro ⟨d₃, fs₃, ⟨id, d₁, fs₁, hrecord, u, d₂, fs₂, hmake, h⟩, hlast⟩
      exact ⟨id, d₁, fs₁, hrecord, u, d₂, fs₂, hmake, d₃, fs₃, h, hlast⟩

/-- One directory that was recorded and made. -/
theorem makeRecorded_back {c : Bytes} (hc : ∀ w ∈ c :: cs, slash ∉ w) (hb : isBlank c = false)
    (hl : Straight fs [] cs.reverse) (h : Ends (makeRecorded [back (c :: cs)]) d fs (.ok ()) d' fs') :
    (back (c :: cs)).spells = c :: spot cs ∧ Builds fs c (spot cs) fs' ∧ ∃ t m,
      d.manager.Added fs (d.ids d.taken) d.now .directoryCreate (back (c :: cs)) {} t none m fs ∧
        d' = { d with taken := d.taken + 1, manager := m } := by
  simp only [makeRecorded, Action.ends_bind_ok] at h
  obtain ⟨id, d₁, fs₁, hrecord, u, d₂, fs₂, hmake, hend⟩ := h
  obtain ⟨-, rfl, rfl⟩ := Action.ends_pure.1 hend
  obtain ⟨t, previous, m, hadd, rfl⟩ := record_added hrecord
  obtain ⟨rfl, -⟩ := record_unbacked rfl hadd.current hrecord
  obtain ⟨rfl, ⟨hmade, -⟩ | ⟨e, -, hr, -⟩⟩ := Action.ends_call rfl hmake
  swap
  · cases hr
  obtain ⟨hspot, hbuilds⟩ := makeDirectory_back hc hb hl hmade
  have hspells : (back (c :: cs)).spells = c :: spot cs := (spells_back hc).trans hspot
  -- nothing was there when it was recorded, so there were no bytes to keep
  obtain rfl : previous = none := by
    have hnames : ∀ v ∈ spot cs, IsName v := isName_spot fun w hw => hc w (List.mem_cons_of_mem _ hw)
    have hfound := hadd.found
    rw [normalize_of_isAbsolute rfl, hspells, ← ofNames_join _ hnames hbuilds.aims.name] at hfound
    exact snapshot_none hbuilds.aims hbuilds.free hfound
  exact ⟨hspells, hbuilds, t, m, hadd, rfl⟩

/-- Where all that is missing could be made, it was recorded and made one after the other. -/
theorem makeRecorded_lacking (hs : fs.Sound) (hc : ∀ w ∈ cs, slash ∉ w) (hl : Straight fs [] cs.reverse)
    (h : Ends (makeRecorded (lacking fs cs)) d fs (.ok ()) d' fs') :
    Lays fs (lacking fs cs) fs' ∧ Notes d (lacking fs cs) d' := by
  induction cs generalizing d' fs' with
  | nil =>
    obtain ⟨-, rfl, rfl⟩ := Action.ends_pure.1 h
    exact ⟨.nil _, .refl _⟩
  | cons c cs ih =>
    have hcs : ∀ w ∈ cs, slash ∉ w := fun w hw => hc w (List.mem_cons_of_mem _ hw)
    have hlcs : Straight fs [] cs.reverse := by
      rw [List.reverse_cons] at hl
      exact hl.initial (List.prefix_append _ _)
    rw [lacking] at h ⊢
    split at h
    · next hb =>
      rw [if_pos hb]
      exact ih hcs hlcs h
    next hb =>
    rw [if_neg hb]
    split at h
    · next hpresent =>
      rw [if_pos hpresent]
      obtain ⟨-, rfl, rfl⟩ := Action.ends_pure.1 h
      exact ⟨.nil _, .refl _⟩
    next habsent =>
    rw [if_neg habsent]
    obtain ⟨d₁, fs₁, hbefore, hlast⟩ := makeRecorded_append.1 h
    obtain ⟨hlays, hnotes⟩ := ih hcs hlcs hbefore
    obtain ⟨hspells, hbuilds, t, m, hadd, rfl⟩ :=
      makeRecorded_back hc (by simpa using hb) (hlays.straight hs hlcs) hlast
    exact ⟨hlays.snoc hspells hbuilds, hnotes.append hadd⟩

/-! ### Taking away what was made -/

section Revert

variable {b : Backups} {verify : Bool} {options : Rollback.Options} {ops : List Operation}

/-- Reverting the operations for directories that were made, the last one first, takes them all away, and
the tree is the one from before. -/
theorem Lays.revert (h : Lays fs ps fs') (hs : fs.Sound) (hkind : ∀ op ∈ ops, op.kind = .directoryCreate)
    (hpath : ops.map (·.path) = ps.map fun q => ofNames true q.spells) (hdry : options.dryRun = false)
    (o : Rollback.Outcome) : (Rollback.revertEach b verify options o ops.reverse).run fs' =
      ({ o with rolledBack := o.rolledBack + ps.length }, fs) := by
  induction h generalizing ops o with
  | nil =>
    obtain rfl : ops = [] := List.map_eq_nil_iff.1 hpath
    rfl
  | @snoc fs₁ fs₂ ps q w l h hq hb ih =>
    rw [List.map_append, List.map_singleton] at hpath
    obtain ⟨ops, last, rfl, hops, hlast⟩ := List.map_eq_append_iff.1 hpath
    obtain ⟨op, rfl, hop⟩ := List.map_eq_singleton_iff.1 hlast
    have hnames : ∀ v ∈ w :: l, IsName v := hq ▸ isName_spells q
    have hstep : (Rollback.revert b verify options.force op).run fs₂ = (.done, fs₁) := by
      have htaken := hb.taken (h.sound hs)
      rw [ofNames_join l (fun v hv => hnames v (List.mem_cons_of_mem _ hv)) hb.aims.name, ← hq, ← hop]
        at htaken
      rw [Rollback.revert, hkind op (by simp)]
      exact htaken
    rw [List.reverse_append, List.reverse_singleton, List.singleton_append,
      Rollback.revertEach_cons hdry, hstep]
    have hrest := ih (fun op hop => hkind op (by simp [hop])) hops (o.add op .done)
    have hgoes : (Rollback.Attempt.done.verdict.isOk || options.force) = true := rfl
    have hadd : o.add op .done = { o with rolledBack := o.rolledBack + 1 } := by
      simp [Rollback.Outcome.add, Rollback.Attempt.done]
    rw [hadd] at hrest
    dsimp only
    rw [if_pos hgoes, hadd, hrest, List.length_append, List.length_singleton, Nat.add_comm ps.length,
      ← Nat.add_assoc]

theorem Lays.revert_created (h : Lays fs ps fs') (hs : fs.Sound) (hps : ∀ q ∈ ps, q.isAbsolute = true)
    (hdry : options.dryRun = false) :
    (Rollback.revertEach b verify options {} (created d ps).reverse).run fs' =
      ({ rolledBack := ps.length }, fs) := by
  have hkind : ∀ op ∈ created d ps, op.kind = .directoryCreate := fun op hop => by
    obtain ⟨i, hi, rfl⟩ := List.mem_mapIdx.1 hop
    rfl
  have hpath : (created d ps).map (·.path) = ps.map fun q => ofNames true q.spells :=
    (path_created d ps).trans (List.map_congr_left fun q hq => normalize_of_isAbsolute (hps q hq) _)
  exact (h.revert hs hkind hpath hdry {}).trans (by simp)

end Revert

/-! ### What is left -/

theorem mem_lacking_iff (hs : fs.Sound) (hc : ∀ w ∈ cs, slash ∉ w) (hl : Straight fs [] cs.reverse)
    (hlays : Lays fs (lacking fs cs) fs') :
    q ∈ lacking fs cs ↔ ∃ zs, zs <:+ cs ∧ q = back zs ∧ fs.at q.spells = none := by
  constructor
  · intro hq
    obtain ⟨zs, hzs, rfl⟩ := suffix_of_mem_lacking hq
    exact ⟨zs, hzs, rfl, ((hlays.at_eq hs).2 _ hq).1⟩
  · rintro ⟨zs, hzs, rfl, hnone⟩
    rcases mem_lacking_or hzs with hq | ⟨us, ys, hus, hys, hsame, hpresent⟩
    · exact hq
    have hcy : ∀ w ∈ ys, slash ∉ w := fun w hw => hc w (hys.subset hw)
    have hsome := linkStatus_back hs hcy (hl.initial (List.reverse_prefix.2 hys)) hpresent hus
    rw [hsame, spells_back fun w hw => hcy w (hus.subset hw)] at hnone
    rw [hnone] at hsome
    cases hsome

theorem straight_of_not_link (hp : p.isAbsolute = true)
    (hlinks : ∀ q : Path, q.Above p → ∀ t, fs.at q.spells ≠ some (.link t)) :
    Straight fs [] (p.parts.dropWhile isBlank).tail.reverse := by
  intro zs hzs t ht
  have hup : zs.reverse <:+ (p.parts.dropWhile isBlank).tail :=
    List.reverse_prefix.1 (by rwa [List.reverse_reverse])
  have hspot : zs.foldl stack [] = spot zs.reverse := by rw [spot, List.reverse_reverse]
  rw [hspot] at ht
  by_cases hne : p.parts.dropWhile isBlank = []
  · rw [hne, List.tail_nil, List.suffix_nil] at hup
    rw [hup, spot_nil, at_nil] at ht
    cases ht
  · refine hlinks _ ((above_iff hp).2 ⟨hne, _, hup, rfl⟩) t ?_
    rw [spells_back fun w hw => slash_not_mem_tops p w (hup.subset hw)]
    exact ht

theorem missingAbove_of_isAbsolute (hp : p.isAbsolute = true) (fs : FileSystem) :
    (missingAbove (p.pieces.length + 1) [] p.parent?).run fs =
      (lacking fs (p.parts.dropWhile isBlank).tail, fs) := by
  rw [parent?_of_isAbsolute hp]
  cases hparts : p.parts.dropWhile isBlank with
  | nil => rfl
  | cons c cs =>
    have hsub : c :: cs <:+ p.parts := hparts ▸ List.dropWhile_suffix _
    have hcs : ∀ w ∈ cs, slash ∉ w := fun w hw =>
      slash_not_mem_parts w (hsub.subset (List.mem_cons_of_mem _ hw))
    have hlen : cs.length < p.pieces.length + 1 := by
      have := hsub.length_le
      rw [pieces_of_isAbsolute hp, List.length_cons, List.length_reverse]
      rw [List.length_cons] at this
      omega
    exact (missingAbove_back hcs hlen []).trans (by rw [List.append_nil, List.tail_cons])

/-- What making the directories above a path that are missing leaves. -/
structure Supplied (d : Desk) (fs : FileSystem) (p : Path) (ps : List Path) (d' : Desk)
    (fs' : FileSystem) : Prop where
  missing (q : Path) : q ∈ ps ↔ q.Above p ∧ fs.at q.spells = none
  outermostFirst : ps.Pairwise Path.Above
  once : (ps.map Path.spells).Nodup
  noted : Notes d ps d'
  /-- What is new is a directory that is empty but for the next one that was made. -/
  above (q : Path) (hq : q.Above p) :
    (fs.at q.spells).isSome = true ∧ fs'.at q.spells = fs.at q.spells ∨
      q ∈ ps ∧ ∃ m, fs'.at q.spells = some (.directory m) ∧
        ∀ v, fs'.at (v :: q.spells) ≠ none → ∃ r ∈ ps, r.spells = v :: q.spells
  unchanged (k : Location) (hk : ∀ q ∈ ps, q.spells ≠ k) : fs'.at k = fs.at k
  workplace : fs'.workplace = fs.workplace
  reverted (b : Backups) (verify : Bool) (options : Rollback.Options) (hdry : options.dryRun = false) :
    (Rollback.revertEach b verify options {} (created d ps).reverse).run fs' =
      ({ rolledBack := ps.length }, fs)

/-- Where no link stands above an absolute path and the directories missing above it could be made, they
were recorded and made, each once and outermost first, and nothing else: to revert what was recorded
leads back to the tree from before. -/
theorem recordMissing_exact (hs : fs.Sound) (hp : p.isAbsolute = true)
    (hlinks : ∀ q : Path, q.Above p → ∀ t, fs.at q.spells ≠ some (.link t))
    (h : Ends (recordMissing p) d fs (.ok ()) d' fs') : ∃ ps, Supplied d fs p ps d' fs' := by
  simp only [recordMissing, Action.ends_bind_ok, Action.ends_ofScript] at h
  obtain ⟨_, _, _, ⟨found, hsearch, hfound, rfl⟩, h⟩ := h
  obtain rfl := Except.ok.inj hfound
  rw [missingAbove_of_isAbsolute hp] at hsearch
  obtain ⟨rfl, rfl⟩ := Prod.mk.inj hsearch
  have hc := slash_not_mem_tops p
  have hl := straight_of_not_link hp hlinks
  generalize hcs : (p.parts.dropWhile isBlank).tail = cs at h hc hl
  obtain ⟨hlays, hnotes⟩ := makeRecorded_lacking hs hc hl h
  obtain ⟨hsame, hnew⟩ := hlays.at_eq hs
  have hmem (q : Path) : q ∈ lacking fs cs ↔ q.Above p ∧ fs.at q.spells = none := by
    rw [mem_lacking_iff hs hc hl hlays, above_iff hp, hcs]
    constructor
    · rintro ⟨zs, hzs, rfl, hnone⟩
      refine ⟨⟨fun hnil => ?_, zs, hzs, rfl⟩, hnone⟩
      rw [hnil, List.tail_nil] at hcs
      rw [← hcs, List.suffix_nil] at hzs
      rw [hzs, spells_back (List.forall_mem_nil _), spot_nil, at_nil] at hnone
      cases hnone
    · rintro ⟨⟨-, zs, hzs, rfl⟩, hnone⟩
      exact ⟨zs, hzs, rfl, hnone⟩
  refine ⟨lacking fs cs, hmem, pairwise_lacking hc, hlays.nodup hs, hnotes, fun q hq => ?_, hsame,
    hlays.workplace, fun b verify options hdry => ?_⟩
  · cases hx : (fs.at q.spells).isSome with
    | true => exact .inl ⟨rfl, hlays.kept hs hx⟩
    | false =>
      have hq := (hmem q).2 ⟨hq, Option.not_isSome_iff_eq_none.1 (by simp [hx])⟩
      obtain ⟨-, m, hm⟩ := hnew q hq
      exact .inr ⟨hq, m, hm, hlays.empty hs hq⟩
  · refine hlays.revert_created hs (fun q hq => ?_) hdry
    obtain ⟨zs, -, rfl⟩ := suffix_of_mem_lacking hq
    exact isAbsolute_back zs

namespace Sample

open Retrace.Sample (manager tree keeps)

def underway : Desk where
  manager := { manager with current := some (.start "t" ⟨0, 0⟩ "" "" "" []) }
  now := ⟨0, 0⟩
  ids := fun n => if n = 0 then "o" else "o'"

def deep : Path := .ofString "/p/d/../a//./b/f"

def supplied : (Except Stop Unit × Desk) × FileSystem := ((recordMissing deep).run underway).run tree

theorem supplied_ends : Ends (recordMissing deep) underway tree (.ok ()) supplied.1.2 supplied.2 := by
  unfold supplied
  exact Action.ends_of_result (by decide +kernel)

theorem tree_not_link (l : Location) (t : Path) : tree.at l ≠ some (.link t) := by
  intro h
  have hl : l ≠ [] := by
    rintro rfl
    cases h
  have hkinds : ∀ x ∈ tree.entries, x.2.kind ≠ .link := by decide +kernel
  exact hkinds _ (mem_of_at hl h) rfl

end Sample

theorem recordMissing_exact_of_two_missing :
    Ends (recordMissing Sample.deep) Sample.underway Retrace.Sample.tree (.ok ()) Sample.supplied.1.2
        Sample.supplied.2 ∧
      ∃ ps, ps.length = 2 ∧ Supplied Sample.underway Retrace.Sample.tree Sample.deep ps
        Sample.supplied.1.2 Sample.supplied.2 := by
  have htaken : Sample.supplied.1.2.taken = 2 := by decide +kernel
  obtain ⟨ps, hsupplied⟩ := recordMissing_exact Retrace.Sample.keeps.sound (by decide +kernel)
    (fun _ _ => Sample.tree_not_link _) Sample.supplied_ends
  have hlength : 0 + ps.length = 2 := by
    rw [hsupplied.noted.desk] at htaken
    exact htaken
  exact ⟨Sample.supplied_ends, ps, by omega, hsupplied⟩

end Retrace.CommandLine
