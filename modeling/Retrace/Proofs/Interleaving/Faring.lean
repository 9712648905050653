import Retrace.Proofs.Interleaving.Division
import Retrace.Proofs.Interleaving.Weaving

/-!
Scripts that hold their own while others work on the same tree. `Others` is what the others may do to the
tree between two calls of one script, and `Step` what that script may do in a call; each is what the
others count on. A script that fares well (`Fares`) keeps to its steps and comes to its result whatever
the others do, and so, when all fare well, they all do in any order of their calls (`Woven.fare`).
-/
namespace Retrace

open FileSystem Script

namespace Division

variable {ι α β : Type} (D : Division ι) (i : ι)

/-- What the others may do between two calls of one script, which holds at most one temporary file. -/
structure Others (held : Option Location) (fs fs' : FileSystem) : Prop where
  orderly : D.Orderly fs'
  same {k : Location} : D.Seen i k → fs'.at k = fs.at k
  stay {k : Location} : D.Soft k → fs.at k ≠ none → fs'.at k = fs.at k
  kept : ∀ k ∈ held, fs'.at k = fs.at k
  few : ∃ ks : List Location, ks.length < D.crowd ∧
    ∀ k, D.Scratch k → fs'.at k ≠ none → k ∈ ks ∨ held = some k

/-- What a script may do in one call: change what belongs to it, make missing directories on its way, and
make, change or give up a temporary file. -/
structure Step (made : Location → Prop) (held held' : Option Location) (fs fs' : FileSystem) : Prop where
  orderly : D.Orderly fs'
  foreign {k : Location} : D.Foreign i k → fs'.at k = fs.at k
  stay {k : Location} : D.Soft k → fs.at k ≠ none → fs'.at k = fs.at k
  new {k : Location} : D.Soft k → fs.at k = none → fs'.at k ≠ none → made k ∧ D.Above i k
  scratch {k : Location} : D.Scratch k → held ≠ some k →
    fs'.at k = fs.at k ∨ held' = some k ∧ fs.at k = none
  dropped : ∀ k ∈ held, held' ≠ some k → D.Scratch k → fs'.at k = none
  holds : ∀ k ∈ held', (D.own i k ∨ D.Scratch k) ∧ fs'.at k ≠ none ∧ (held = some k ∨ fs.at k = none)

/-- A script that keeps to its steps and comes to a good end whatever the others do. -/
def Fares (made : Location → Prop) (Q : α → Option Location → FileSystem → Prop) :
    Script α → Option Location → FileSystem → Prop
  | .done a, held, fs => ∀ fs', D.Others i held fs fs' → Q a held fs'
  | .call c next, held, fs => ∀ fs', D.Others i held fs fs' → ∃ held',
      D.Step i made held held' fs' (c.perform fs').2 ∧
        Fares made Q (next (c.perform fs').1) held' (c.perform fs').2

variable {D i} {j : ι} {made : Location → Prop} {held held' : Option Location} {k l : Location}
  {fs fs' fs'' g g' : FileSystem} {s : Script α} {f : α → Script β}
  {Q Q' : α → Option Location → FileSystem → Prop} {R : β → Option Location → FileSystem → Prop}

/-! ### What the others may do -/

theorem Others.refl (h : D.Others i held fs fs') : D.Others i held fs' fs' :=
  ⟨h.orderly, fun _ => rfl, fun _ _ => rfl, fun _ _ => rfl, h.few⟩

theorem Others.trans (h : D.Others i held fs fs') (h' : D.Others i held fs' fs'') :
    D.Others i held fs fs'' where
  orderly := h'.orderly
  same hk := (h'.same hk).trans (h.same hk)
  stay hk hne := (h'.stay hk (by rw [h.stay hk hne]; exact hne)).trans (h.stay hk hne)
  kept k hk := (h'.kept k hk).trans (h.kept k hk)
  few := h'.few

theorem Mirrors.others (h : D.Mirrors i fs g) (ho : D.Others i none g g') : D.Mirrors i fs g' where
  alone := h.alone
  tidy := h.tidy
  among := ho.orderly
  same hk := (ho.same hk).trans (h.same hk)
  more hk hne := by
    have hg := h.more hk hne
    exact (ho.stay hk (by rw [hg]; exact hne)).trans hg

/-! ### Steps -/

theorem Step.refl (hf : D.Orderly fs) : D.Step i made none none fs fs where
  orderly := hf
  foreign _ := rfl
  stay _ _ := rfl
  new _ h h' := absurd h h'
  scratch _ _ := .inl rfl
  dropped _ hk := by cases hk
  holds _ hk := by cases hk

theorem Step.within (hD : D.Fair) (hf : D.Orderly fs) (hw : D.Within i fs fs') :
    D.Step i made none none fs fs' where
  orderly := hf.within hD hw
  foreign := fun ⟨_, hne, hj⟩ => hw.same fun hi => hne (hD.apart hj hi)
  stay hk _ := hw.same hk.not_own
  new hk h h' := absurd (by rw [hw.same hk.not_own]; exact h) h'
  scratch hk _ := .inl (hw.same hk.not_own)
  dropped _ hk := by cases hk
  holds _ hk := by cases hk

theorem Step.make (hf : D.Orderly fs) (hl : D.Soft l) (hnone : fs.at l = none)
    (hy : fs.yields l.tail = true) (ha : fs.admits l.tail = true) (habove : D.Above i l) (hmade : made l)
    (hedit : Edit fs l (some (fs.newDirectory l.tail)) fs') : D.Step i made none none fs fs' where
  orderly := hf.made hl hnone hy ha hedit
  foreign := fun ⟨j, _, hj⟩ => hedit.at_of_ne fun hc => hl.not_own (i := j) (hc ▸ hj)
  stay _ hne := hedit.at_of_ne fun hc => hne (hc ▸ hnone)
  new {k} _ h h' := by
    by_cases hk : k = l
    · exact hk ▸ ⟨hmade, habove⟩
    · exact absurd ((hedit.at_of_ne hk).trans h) h'
  scratch hk _ := .inl (hedit.at_of_ne fun hc => hk.not_soft (hc ▸ hl))
  dropped _ hk := by cases hk
  holds _ hk := by cases hk

/-- What a step of one is for another, whose temporary file is not touched. -/
theorem Step.others (h : D.Step i made held held' fs fs') (hf : D.Orderly fs) (hji : j ≠ i)
    {kept : Option Location} (hkept : ∀ k ∈ kept, (D.own j k ∨ D.Scratch k) ∧ fs.at k ≠ none ∧ held ≠ some k)
    (hfew : ∃ ks : List Location, ks.length < D.crowd ∧
      ∀ k, D.Scratch k → fs'.at k ≠ none → k ∈ ks ∨ kept = some k) : D.Others j kept fs fs' where
  orderly := h.orderly
  same {k} hk := by
    by_cases hown : ∃ m, D.own m k
    · obtain ⟨m, hm⟩ := hown
      obtain rfl : m = j := by_contra fun hne => hk.notForeign ⟨m, hne, hm⟩
      exact h.foreign ⟨m, hji, hm⟩
    · have hnot : ∀ m, ¬D.own m k := fun m hm => hown ⟨m, hm⟩
      by_cases hb : D.base.at k = none
      · by_cases hs : D.Soft k
        · by_cases hnone : fs.at k = none
          · refine (by_contra fun hne => ?_ : fs'.at k = none).trans hnone.symm
            exact hk.notShared ⟨hs, i, hji.symm, (h.new hs hnone hne).2⟩
          · exact h.stay hs hnone
        · rw [hf.bare ⟨hnot, hb⟩ hs hk.notScratch, h.orderly.bare ⟨hnot, hb⟩ hs hk.notScratch]
      · rw [hf.kept hnot hb, h.orderly.kept hnot hb]
  stay := h.stay
  kept k hk := by
    obtain ⟨hown | hscratch, hne, hheld⟩ := hkept k hk
    · exact h.foreign ⟨j, hji, hown⟩
    · exact (h.scratch hscratch hheld).resolve_right fun hc => hne hc.2
  few := hfew

/-! ### Scripts that fare well -/

theorem Fares.others (h : D.Fares i made Q s held fs) (ho : D.Others i held fs fs') :
    D.Fares i made Q s held fs' := by
  cases s with
  | done a => exact fun g hg => h g (ho.trans hg)
  | call c next => exact fun g hg => h g (ho.trans hg)

theorem Fares.of_others (h : ∀ fs', D.Others i held fs fs' → D.Fares i made Q s held fs') :
    D.Fares i made Q s held fs := by
  cases s with
  | done a => exact fun g hg => h g hg g hg.refl
  | call c next => exact fun g hg => h g hg g hg.refl

theorem Fares.mono (h : D.Fares i made Q s held fs) (hQ : ∀ a held fs, Q a held fs → Q' a held fs) :
    D.Fares i made Q' s held fs := by
  induction s generalizing held fs with
  | done a => exact fun g hg => hQ _ _ _ (h g hg)
  | call c next ih =>
    intro g hg
    obtain ⟨held', hstep, hnext⟩ := h g hg
    exact ⟨held', hstep, ih _ hnext⟩

theorem Fares.pure {a : α} (h : ∀ fs', D.Others i held fs fs' → Q a held fs') :
    D.Fares i made Q (Pure.pure a : Script α) held fs := h

theorem Fares.bind (h : D.Fares i made (fun a held fs => D.Fares i made R (f a) held fs) s held fs) :
    D.Fares i made R (s >>= f) held fs := by
  change D.Fares i made R (s.bind f) held fs
  induction s generalizing held fs with
  | done a => exact .of_others fun g hg => h g hg
  | call c next ih =>
    intro g hg
    obtain ⟨held', hstep, hnext⟩ := h g hg
    exact ⟨held', hstep, ih _ hnext⟩

theorem Fares.ask {c : Call} {Q : c.Reply → Option Location → FileSystem → Prop}
    (h : ∀ fs', D.Others i held fs fs' → ∃ held', D.Step i made held held' fs' (c.perform fs').2 ∧
      ∀ fs'', D.Others i held' (c.perform fs').2 fs'' → Q (c.perform fs').1 held' fs'') :
    @Fares ι c.Reply D i made Q (Script.ask c) held fs := h

/-! ### One script alone -/

structure Alone (D : Division ι) (held : Option Location) (fs : FileSystem) : Prop where
  orderly : D.Orderly fs
  mine : ∀ k, D.Scratch k → fs.at k ≠ none → held = some k

theorem Alone.others (h : D.Alone held fs) (hcrowd : 0 < D.crowd) : D.Others i held fs fs :=
  ⟨h.orderly, fun _ => rfl, fun _ _ => rfl, fun _ _ => rfl, [], hcrowd, fun k hk hne => .inr (h.mine k hk hne)⟩

theorem Alone.step (h : D.Alone held fs) (hs : D.Step i made held held' fs fs') : D.Alone held' fs' where
  orderly := hs.orderly
  mine k hk hne := by
    by_cases hheld : held = some k
    · by_contra hheld'
      exact hne (hs.dropped k hheld hheld' hk)
    · rcases hs.scratch hk hheld with hsame | ⟨hheld', -⟩
      · exact absurd (h.mine k hk (hsame ▸ hne)) hheld
      · exact hheld'

theorem Mirrors.refl (h : D.Alone none fs) : D.Mirrors i fs fs where
  alone := h.orderly
  tidy hk := by_contra fun hne => by cases h.mine _ hk hne
  among := h.orderly
  same _ := rfl
  more _ _ := rfl

theorem Mirrors.alone_none (h : D.Mirrors i fs g) : D.Alone none fs :=
  ⟨h.alone, fun _ hk hne => absurd (h.tidy hk) hne⟩

/-- A script that fares well comes to a good end when it is run alone. No missing directory that it has
made is gone at the end, and it has made no others than it may. -/
theorem Fares.run (hcrowd : 0 < D.crowd) (h : D.Fares i made Q s held fs) (ha : D.Alone held fs) :
    (∃ held', Q (s.run fs).1 held' (s.run fs).2 ∧ D.Alone held' (s.run fs).2) ∧
      (∀ fs' ∈ s.stages fs, ∀ k, D.Soft k → fs'.at k ≠ none → (s.run fs).2.at k ≠ none) ∧
      ∀ k, D.Soft k → (s.run fs).2.at k ≠ none → fs.at k ≠ none ∨ made k := by
  induction s generalizing held fs with
  | done a =>
    refine ⟨⟨held, h fs (ha.others hcrowd), ha⟩, fun fs' hfs' k _ hne => ?_, fun k _ hne => .inl hne⟩
    rwa [List.mem_singleton.1 hfs'] at hne
  | call c next ih =>
    obtain ⟨held', hstep, hnext⟩ := h fs (ha.others hcrowd)
    obtain ⟨hend, hstays, hnew⟩ := ih _ hnext (ha.step hstep)
    refine ⟨hend, fun fs' hfs' k hk hne => ?_, fun k hk hne => ?_⟩
    · rcases List.mem_cons.1 hfs' with rfl | hfs'
      · exact hstays _ (mem_stages_self _ _) k hk (by rw [hstep.stay hk hne]; exact hne)
      · exact hstays fs' hfs' k hk hne
    · rcases hnew k hk hne with hne' | hmade
      · by_cases hnone : fs.at k = none
        · exact .inr (hstep.new hk hnone hne').1
        · exact .inl hnone
      · exact .inr hmade

/-! ### All scripts together -/

structure Coherent (D : Division ι) (is : List ι) (held : ι → Option Location) (fs : FileSystem) : Prop where
  orderly : D.Orderly fs
  holds : ∀ i ∈ is, ∀ k ∈ held i, (D.own i k ∨ D.Scratch k) ∧ fs.at k ≠ none
  covered : ∀ k, D.Scratch k → fs.at k ≠ none → ∃ i ∈ is, held i = some k
  apart : ∀ i ∈ is, ∀ j ∈ is, ∀ k, held i = some k → held j = some k → i = j

variable {is : List ι} {hold : ι → Option Location}

theorem Coherent.few (h : D.Coherent is hold fs) (hi : i ∈ is) (hcrowd : is.length ≤ D.crowd) :
    ∃ ks : List Location, ks.length < D.crowd ∧
      ∀ k, D.Scratch k → fs.at k ≠ none → k ∈ ks ∨ hold i = some k := by
  obtain ⟨before, after, rfl⟩ := List.append_of_mem hi
  refine ⟨(before ++ after).filterMap hold, ?_, fun k hk hne => ?_⟩
  · have := List.length_filterMap_le hold (before ++ after)
    simp only [List.length_append, List.length_cons] at this hcrowd
    omega
  · obtain ⟨j, hj, hheld⟩ := h.covered k hk hne
    by_cases hji : j = i
    · exact .inr (hji ▸ hheld)
    · refine .inl (List.mem_filterMap.2 ⟨j, ?_, hheld⟩)
      simp only [List.mem_append, List.mem_cons] at hj ⊢
      rcases hj with hj | hj | hj
      · exact .inl hj
      · exact absurd hj hji
      · exact .inr hj

theorem Coherent.others (h : D.Coherent is hold fs) (hi : i ∈ is) (hcrowd : is.length ≤ D.crowd) :
    D.Others i (hold i) fs fs :=
  ⟨h.orderly, fun _ => rfl, fun _ _ => rfl, fun _ _ => rfl, h.few hi hcrowd⟩

variable [DecidableEq ι]

theorem Coherent.step (h : D.Coherent is hold fs) (hi : i ∈ is)
    (hs : D.Step i made (hold i) held' fs fs') : D.Coherent is (Function.update hold i held') fs' := by
  -- the temporary file of another is not touched
  have hkeeps : ∀ j ∈ is, j ≠ i → ∀ k ∈ hold j, fs'.at k = fs.at k := by
    intro j hj hji k hk
    obtain ⟨hown | hscratch, hne⟩ := h.holds j hj k hk
    · exact hs.foreign ⟨j, hji, hown⟩
    · refine (hs.scratch hscratch fun hc => hji (h.apart j hj i hi k hk hc)).resolve_right fun hc => ?_
      exact hne hc.2
  have hnew : ∀ j ∈ is, j ≠ i → ∀ k, held' = some k → hold j ≠ some k := by
    intro j hj hji k hk hc
    obtain ⟨hplace, -, hfree⟩ := hs.holds k hk
    obtain ⟨hplace', hne⟩ := h.holds j hj k hc
    rcases hfree with hheld | hnone
    · exact hji (h.apart j hj i hi k hc hheld)
    · exact hne hnone
  refine
    { orderly := hs.orderly
      holds := fun j hj k hk => ?_
      covered := fun k hk hne => ?_
      apart := fun m hm j hj k hmk hjk => ?_ }
  · by_cases hji : j = i
    · subst hji
      rw [Function.update_self] at hk
      exact ⟨(hs.holds k hk).1, (hs.holds k hk).2.1⟩
    · rw [Function.update_of_ne hji] at hk
      rw [hkeeps j hj hji k hk]
      exact h.holds j hj k hk
  · by_cases hheld : hold i = some k
    · refine ⟨i, hi, ?_⟩
      rw [Function.update_self]
      by_contra hheld'
      exact hne (hs.dropped k hheld hheld' hk)
    · rcases hs.scratch hk hheld with hsame | ⟨hheld', -⟩
      · obtain ⟨j, hj, hjk⟩ := h.covered k hk (hsame ▸ hne)
        have hji : j ≠ i := fun hc => hheld (hc ▸ hjk)
        exact ⟨j, hj, by rw [Function.update_of_ne hji]; exact hjk⟩
      · exact ⟨i, hi, by rw [Function.update_self]; exact hheld'⟩
  · by_cases hmi : m = i
    · subst hmi
      by_cases hji : j = m
      · exact hji.symm
      · rw [Function.update_self] at hmk
        rw [Function.update_of_ne hji] at hjk
        exact absurd hjk (hnew j hj hji k hmk)
    · rw [Function.update_of_ne hmi] at hmk
      by_cases hji : j = i
      · subst hji
        rw [Function.update_self] at hjk
        exact absurd hmk (hnew m hm hmi k hjk)
      · rw [Function.update_of_ne hji] at hjk
        exact h.apart m hm j hj k hmk hjk

def Going (D : Division ι) (made : ι → Location → Prop) (Q : ι → α → FileSystem → Prop)
    (hold : ι → Option Location) (fs : FileSystem) (i : ι) (s : Script α) : Prop :=
  D.Fares i (made i) (fun a held fs => held = none ∧ Q i a fs) s (hold i) fs

theorem Going.after {made : ι → Location → Prop} {Q : ι → α → FileSystem → Prop}
    (h : D.Going made Q hold fs j s) (hc : D.Coherent is hold fs) (hi : i ∈ is) (hj : j ∈ is) (hji : j ≠ i)
    (hcrowd : is.length ≤ D.crowd) (hs : D.Step i (made i) (hold i) held' fs fs') :
    D.Going made Q (Function.update hold i held') fs' j s := by
  rw [Going, Function.update_of_ne hji]
  refine Fares.others h (hs.others hc.orderly hji (fun k hk => ?_) ?_)
  · obtain ⟨hplace, hne⟩ := hc.holds j hj k hk
    exact ⟨hplace, hne, fun hheld => hji (hc.apart j hj i hi k hk hheld)⟩
  · have hfew := (hc.step hi hs).few hj hcrowd
    rwa [Function.update_of_ne hji] at hfew

/-- When all scripts fare well, they all come to a good end in any order of their calls. What has come
besides are the missing directories that one of them makes. -/
theorem Woven.fare {made : ι → Location → Prop} {Q : ι → α → FileSystem → Prop}
    {ss : List (Script α)} {as : List α} (h : Woven ss fs as fs') (hnodup : is.Nodup)
    (hcrowd : is.length ≤ D.crowd) (hc : D.Coherent is hold fs)
    (hgo : List.Forall₂ (D.Going made Q hold fs) is ss) :
    List.Forall₂ (fun i a => Q i a fs') is as ∧ D.Orderly fs' ∧ (∀ k, D.Scratch k → fs'.at k = none) ∧
      ∀ k, D.Soft k → fs'.at k ≠ none → fs.at k ≠ none ∨ ∃ i ∈ is, made i k := by
  induction h generalizing hold with
  | done as fs =>
    have hends : List.Forall₂ (fun i a => hold i = none ∧ Q i a fs) is as :=
      ((List.forall₂_and_left _ _).2 ⟨fun _ hi => hi, List.forall₂_map_right_iff.1 hgo⟩).imp
        fun i a ⟨hi, hg⟩ => hg fs (hc.others hi hcrowd)
    obtain ⟨hnone, hq⟩ := (List.forall₂_and_left _ _).1 hends
    refine ⟨hq, hc.orderly, fun k hk => by_contra fun hne => ?_, fun k _ hne => .inl hne⟩
    obtain ⟨i, hi, hheld⟩ := hc.covered k hk hne
    rw [hnone i hi] at hheld
    cases hheld
  | @call c next before after fs fs' as h ih =>
    have hbefore := List.forall₂_take_append is _ _ hgo
    have hrest := List.forall₂_drop_append is _ _ hgo
    rw [← List.take_append_drop before.length is] at hnodup hcrowd hc ih ⊢
    generalize is.take before.length = is₁ at hbefore hnodup hcrowd hc ih
    generalize is.drop before.length = is₂ at hrest hnodup hcrowd hc ih
    cases hrest with
    | @cons i _ is₂ _ hg hafter =>
      have hi : i ∈ is₁ ++ i :: is₂ := by simp
      obtain ⟨held', hstep, hnext⟩ := hg fs (hc.others hi hcrowd)
      have hkeep : ∀ js : List ι, js ⊆ is₁ ++ i :: is₂ → i ∉ js → ∀ {ss : List (Script α)},
          List.Forall₂ (D.Going made Q hold fs) js ss →
          List.Forall₂ (D.Going made Q (Function.update hold i held') (c.perform fs).2) js ss :=
        fun js hsub hnot ss hjs => ((List.forall₂_and_left _ _).2 ⟨fun _ hj => hj, hjs⟩).imp fun j s ⟨hj, hs⟩ =>
          hs.after hc hi (hsub hj) (fun hji => hnot (hji ▸ hj)) hcrowd hstep
      rw [List.nodup_append, List.nodup_cons] at hnodup
      obtain ⟨hq, ho, ht, hsoft⟩ := ih (hc.step hi hstep) (by
          refine List.rel_append (hkeep is₁ (List.subset_append_left _ _) (fun hj => ?_) hbefore)
            (.cons ?_ (hkeep is₂ (fun _ hj => by simp [hj]) hnodup.2.1.1 hafter))
          · exact hnodup.2.2 i hj i List.mem_cons_self rfl
          · rw [Going, Function.update_self]
            exact hnext)
      refine ⟨hq, ho, ht, fun k hk hne => ?_⟩
      rcases hsoft k hk hne with hne' | hmade
      · by_cases hnone : fs.at k = none
        · exact .inr ⟨i, hi, (hstep.new hk hnone hne').1⟩
        · exact .inl hnone
      · exact .inr hmade

end Division
end Retrace
