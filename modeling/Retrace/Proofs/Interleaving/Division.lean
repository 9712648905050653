import Retrace.Proofs.FileSystem.Edit
import Retrace.Proofs.FileSystem.Passage

/-!
Trees on which several rollbacks go on at the same time. Each has places of its own (`Division.own`);
what else may change are directories that are missing on the way to such places (`Soft`), which whoever
comes first makes, and temporary files (`Scratch`). A tree that many work on mirrors the tree that one of
them would have alone (`Mirrors`): it is the same wherever that one looks, but that directories which
others need too may be there already.
-/
namespace Retrace

open FileSystem

structure Division (ι : Type) where
  /-- The tree at the start. -/
  base : FileSystem
  /-- The places that belong to each. -/
  own : ι → Location → Prop
  /-- How many there are. -/
  crowd : Nat

namespace Division

variable {ι : Type} (D : Division ι) (i : ι) (k : Location)

def Foreign : Prop := ∃ j, j ≠ i ∧ D.own j k

def Free : Prop := (∀ j, ¬D.own j k) ∧ D.base.at k = none

/-- A place at or above one of its own. -/
def Above : Prop := ∃ l, D.own i l ∧ k <:+ l

/-- A missing place of nobody on the way to a place that belongs to somebody. -/
def Soft : Prop := D.Free k ∧ ∃ j, D.Above j k

def Shared : Prop := D.Soft k ∧ ∃ j, j ≠ i ∧ D.Above j k

/-- A missing place with the name of a temporary file, on the way of nobody. -/
def Scratch : Prop := D.Free k ∧ (∀ j, ¬D.Above j k) ∧ ∃ n d, k = temporaryName n :: d

structure Seen : Prop where
  notForeign : ¬D.Foreign i k
  notShared : ¬D.Shared i k
  notScratch : ¬D.Scratch k

/-- What a division must be like. The root is nobody's. No place on the way to what belongs to somebody, and none where that
begins, has the name of a temporary file; temporary files with six digits are enough for all. -/
structure Fair : Prop where
  sound : D.base.Sound
  root {i : ι} : ¬D.own i []
  closed {i : ι} {k l : Location} : D.own i k → k <:+ l → D.own i l
  apart {i j : ι} {k : Location} : D.own i k → D.own j k → i = j
  tops {i : ι} {n : Nat} {d : Location} : D.own i (temporaryName n :: d) → D.own i d
  ways {n : Nat} {d : Location} : ¬D.Soft (temporaryName n :: d)
  room (d : Location) : (D.base.children d).length + D.crowd ≤ 1000000

/-- A tree as it may be at any time. What belongs to nobody is as at the start, but that missing
directories are made as directories are made, and that temporary files come and go. -/
structure Orderly (fs : FileSystem) : Prop where
  sound : fs.Sound
  kept {k : Location} : (∀ j, ¬D.own j k) → D.base.at k ≠ none → fs.at k = D.base.at k
  soft {k : Location} : D.Soft k → fs.at k = none ∨
    fs.at k = some (fs.newDirectory k.tail) ∧ fs.yields k.tail = true ∧ fs.admits k.tail = true
  scratch {k : Location} : D.Scratch k → ∀ e ∈ fs.at k, e.isDirectory = false
  bare {k : Location} : D.Free k → ¬D.Soft k → ¬D.Scratch k → fs.at k = none

/-- A tree that others change too is, for one of them, like the tree that it would have alone. -/
structure Mirrors (fs fs' : FileSystem) : Prop where
  alone : D.Orderly fs
  tidy {k : Location} : D.Scratch k → fs.at k = none
  among : D.Orderly fs'
  same {k : Location} : D.Seen i k → fs'.at k = fs.at k
  more {k : Location} : D.Soft k → fs.at k ≠ none → fs'.at k = fs.at k

variable {D i k} {j : ι} {l d : Location} {w : Bytes} {n : Nat} {e : Entry} {o : Option Entry}
  {fs fs' g g' : FileSystem}

/-! ### Places -/

theorem Foreign.symm_own (hD : D.Fair) (h : D.own i k) : ¬D.Foreign i k := fun ⟨_, hne, hj⟩ =>
  hne (hD.apart hj h)

theorem Soft.not_own (h : D.Soft k) : ¬D.own i k := h.1.1 i

theorem Scratch.not_own (h : D.Scratch k) : ¬D.own i k := h.1.1 i

theorem Scratch.not_soft (h : D.Scratch k) : ¬D.Soft k := fun ⟨_, j, hj⟩ => h.2.1 j hj

theorem Above.of_suffix (h : D.Above i l) (hk : k <:+ l) : D.Above i k := by
  obtain ⟨m, hm, hl⟩ := h
  exact ⟨m, hm, hk.trans hl⟩

theorem seen_of_own (hD : D.Fair) (h : D.own i k) : D.Seen i k where
  notForeign := Foreign.symm_own hD h
  notShared hs := hs.1.not_own h
  notScratch hs := hs.not_own h

theorem Soft.ne_nil (h : D.Soft k) : k ≠ [] := by
  rintro rfl
  cases h.1.2

theorem tail_suffix (k : Location) : k.tail <:+ k := List.tail_suffix k

theorem Soft.tail_not_own (hD : D.Fair) (h : D.Soft k) (j : ι) : ¬D.own j k.tail := fun hj =>
  h.1.1 j (hD.closed hj (tail_suffix k))

theorem Soft.tail_not_scratch (h : D.Soft k) : ¬D.Scratch k.tail := fun hs => by
  obtain ⟨j, hj⟩ := h.2
  exact hs.2.1 j (hj.of_suffix (tail_suffix k))

/-! ### Changes -/

theorem newDirectory_congr (h : fs'.at d = fs.at d) : fs'.newDirectory d = fs.newDirectory d := by
  rw [newDirectory, newDirectory, h]

theorem yields_congr (h : fs'.at d = fs.at d) : fs'.yields d = fs.yields d := by
  rw [yields, yields, h]

theorem admits_congr (h : fs'.at d = fs.at d) : fs'.admits d = fs.admits d := by
  rw [admits, admits, h]

/-- A change to what belongs to one. -/
structure Within (D : Division ι) (i : ι) (fs fs' : FileSystem) : Prop where
  sound : fs'.Sound
  same {k : Location} : ¬D.own i k → fs'.at k = fs.at k

theorem Within.refl (hs : fs.Sound) : D.Within i fs fs := ⟨hs, fun _ => rfl⟩

theorem Within.of_edit (h : Edit fs l o fs') (hl : D.own i l) :
    D.Within i fs fs' := ⟨h.sound, fun hk => h.at_of_ne fun hc => hk (hc ▸ hl)⟩

theorem Orderly.within (hD : D.Fair) (h : D.Orderly g) (hw : D.Within i g g') : D.Orderly g' where
  sound := hw.sound
  kept hk hne := (hw.same (hk i)).trans (h.kept hk hne)
  soft {k} hk := by
    have htail := hw.same (hk.tail_not_own hD i)
    rw [hw.same hk.not_own, newDirectory_congr htail, yields_congr htail, admits_congr htail]
    exact h.soft hk
  scratch hk := by rw [hw.same hk.not_own]; exact h.scratch hk
  bare hk hs hc := (hw.same (hk.1 i)).trans (h.bare hk hs hc)

/-- A soft directory that comes as directories are made. -/
theorem Orderly.made (h : D.Orderly g) (hl : D.Soft l) (hnone : g.at l = none)
    (hy : g.yields l.tail = true) (ha : g.admits l.tail = true)
    (hedit : Edit g l (some (g.newDirectory l.tail)) g') : D.Orderly g' := by
  have hne : ∀ {k}, k ≠ l → g'.at k = g.at k := hedit.at_of_ne
  have htail : l.tail ≠ l := by
    obtain ⟨v, d, rfl⟩ := List.exists_cons_of_ne_nil hl.ne_nil
    simp
  refine
    { sound := hedit.sound
      kept := fun {k} hk hb => (hne ?_).trans (h.kept hk hb)
      soft := fun {k} hk => ?_
      scratch := fun {k} hk => ?_
      bare := fun {k} hk hs hc => (hne ?_).trans (h.bare hk hs hc) }
  · rintro rfl; exact hb hl.1.2
  · by_cases hkl : k = l
    · subst hkl
      have hsame := hne htail
      rw [hedit.at_self, newDirectory_congr hsame, yields_congr hsame, admits_congr hsame]
      exact .inr ⟨rfl, hy, ha⟩
    · rw [hne hkl]
      by_cases ht : k.tail = l
      · -- nothing stands in a place where nothing stood
        refine .inl (h.sound.none_below (by simp [hnone]) (ht ▸ tail_suffix k) fun hc => ?_)
        exact hkl hc.symm
      · rw [newDirectory_congr (hne ht), yields_congr (hne ht), admits_congr (hne ht)]
        exact h.soft hk
  · rw [hne fun hc => (hc ▸ hk).not_soft hl]
    exact h.scratch hk
  · rintro rfl; exact hs hl

theorem Orderly.littered (h : D.Orderly g) (hl : D.Scratch l) (ho : ∀ e ∈ o, e.isDirectory = false)
    (hedit : Edit g l o g') : D.Orderly g' := by
  have hne : ∀ {k}, k ≠ l → g'.at k = g.at k := hedit.at_of_ne
  refine
    { sound := hedit.sound
      kept := fun {k} hk hb => (hne ?_).trans (h.kept hk hb)
      soft := fun {k} hk => ?_
      scratch := fun {k} hk => ?_
      bare := fun {k} hk hs hc => (hne ?_).trans (h.bare hk hs hc) }
  · rintro rfl; exact hb hl.1.2
  · have htail : k.tail ≠ l := fun hc => hk.tail_not_scratch (hc ▸ hl)
    rw [hne fun hc => hl.not_soft (hc ▸ hk), newDirectory_congr (hne htail),
      yields_congr (hne htail), admits_congr (hne htail)]
    exact h.soft hk
  · by_cases hkl : k = l
    · subst hkl
      rw [hedit.at_self]
      exact ho
    · rw [hne hkl]
      exact h.scratch hk
  · rintro rfl; exact hc hl

/-! ### The tree of one alone -/

theorem Mirrors.at_own (hD : D.Fair) (h : D.Mirrors i fs g) (hk : D.own i k) : g.at k = fs.at k :=
  h.same (seen_of_own hD hk)

theorem Mirrors.within (hD : D.Fair) (h : D.Mirrors i fs g) (hw : D.Within i fs fs')
    (hw' : D.Within i g g') (hown : ∀ {k}, D.own i k → g'.at k = fs'.at k) : D.Mirrors i fs' g' where
  alone := h.alone.within hD hw
  tidy hk := (hw.same hk.not_own).trans (h.tidy hk)
  among := h.among.within hD hw'
  same {k} hk := by
    by_cases hi : D.own i k
    · exact hown hi
    · rw [hw.same hi, hw'.same hi]
      exact h.same hk
  more hk hne := by
    rw [hw.same hk.not_own] at hne ⊢
    rw [hw'.same hk.not_own]
    exact h.more hk hne

theorem Mirrors.edit (hD : D.Fair) (h : D.Mirrors i fs g) (hl : D.own i l) (he : Edit fs l o fs')
    (he' : Edit g l o g') : D.Mirrors i fs' g' := by
  refine h.within hD (.of_edit he hl) (.of_edit he' hl) fun {k} hk => ?_
  by_cases hkl : k = l
  · rw [hkl, he.at_self, he'.at_self]
  · rw [he.at_of_ne hkl, he'.at_of_ne hkl]
    exact h.at_own hD hk

end Division
end Retrace
