import Retrace.Proofs.FileSystem.Temporary

/-!
Trees that differ in what stands at one place. Every operation on a name makes such an edit; edits at
one place add up to the last of them (`Edit.trans`), and a file that is renamed within its directory
is an edit at its new name alone (`Edit.rename`).
-/
namespace Retrace.FileSystem

variable {fs fs' fs'' : FileSystem} {d l k : Location} {o o' : Option Entry} {e : Entry} {f : Path}
  {t w : Bytes}

/-- A sound tree that is like another but for one place. -/
structure Edit (fs : FileSystem) (l : Location) (o : Option Entry) (fs' : FileSystem) : Prop where
  at_eq : ∀ k, fs'.at k = if k = l then o else fs.at k
  sound : fs'.Sound
  workplace : fs'.workplace = fs.workplace

theorem Edit.at_self (h : Edit fs l o fs') : fs'.at l = o := by rw [h.at_eq, if_pos rfl]

theorem Edit.at_of_ne (h : Edit fs l o fs') (hk : k ≠ l) : fs'.at k = fs.at k := by
  rw [h.at_eq, if_neg hk]

theorem Edit.refl (hs : fs.Sound) (l : Location) : Edit fs l (fs.at l) fs where
  at_eq k := by split <;> simp_all
  sound := hs
  workplace := rfl

theorem Edit.trans (h : Edit fs l o fs') (h' : Edit fs' l o' fs'') : Edit fs l o' fs'' where
  at_eq k := by
    rw [h'.at_eq, h.at_eq]
    split <;> rfl
  sound := h'.sound
  workplace := h'.workplace.trans h.workplace

theorem Edit.insert (hs : fs.Sound) (hd : ∃ m, fs.at d = some (.directory m))
    (he : e.isDirectory = true ∨ ∀ m, fs.at (w :: d) ≠ some (.directory m)) :
    Edit fs (w :: d) (some e) (fs.insert (w :: d) e) where
  at_eq k := at_insert fs _ k e (List.cons_ne_nil w d)
  sound := hs.insert (List.cons_ne_nil w d) hd he
  workplace := workplace_insert fs _ e

theorem Edit.erase (hs : fs.Sound) (hc : ∀ v, fs.at (v :: w :: d) = none) :
    Edit fs (w :: d) none (fs.erase (w :: d)) where
  at_eq k := at_erase fs _ k (List.cons_ne_nil w d)
  sound := hs.erase (List.cons_ne_nil w d) hc
  workplace := workplace_erase fs _

theorem Sound.none_in (hs : fs.Sound) (he : ∀ m, fs.at l ≠ some (.directory m)) (v : Bytes) :
    fs.at (v :: l) = none :=
  hs.none_below he (List.suffix_cons v l) (by simp)

theorem Edit.inside (h : Edit fs (w :: d) o fs') : Inside fs d fs' := fun _ hk => h.at_of_ne (hk w)

theorem Edit.yields_eq (h : Edit fs (w :: d) o fs') : fs'.yields d = fs.yields d := by
  simp [yields, h.at_of_ne (show d ≠ w :: d by simp)]

theorem suffix_of_siblings (h : t :: d <:+ w :: d) : t = w := by
  have := h.eq_of_length (by simp)
  simpa using this

/-- A new entry that goes to a place that gives way leaves an edit at that place. -/
theorem Edit.relocate (h : Edit fs l (some e) fs') (hs : fs.Sound) (hnew : fs.at l = none)
    (he : e.isDirectory = false) (hmove : Movable fs' l k) (hk : ∀ m, fs.at k ≠ some (.directory m))
    (hd : ∃ m, fs'.at k.tail = some (.directory m)) : Edit fs k (some e) (fs'.relocate l k) := by
  have hleaf : ∀ m, fs'.at l ≠ some (.directory m) := by
    rintro m hm
    rw [h.at_self] at hm
    obtain rfl : e = .directory m := by simpa using hm
    simp [Entry.isDirectory] at he
  refine ⟨fun j => ?_, h.sound.relocate hmove hd, h.workplace⟩
  rw [at_relocate h.sound hmove]
  by_cases hj : k <:+ j
  · rw [if_pos hj]
    obtain ⟨x, rfl⟩ := hj
    rw [show (x ++ k).take ((x ++ k).length - k.length) = x by simp]
    cases x with
    | nil => rw [List.nil_append, List.nil_append, h.at_self, if_pos rfl]
    | cons v x =>
      have hlong : ∀ u : Location, v :: x ++ u ≠ u := fun u hc => by
        have := congrArg List.length hc
        simp only [List.length_append, List.length_cons] at this
        omega
      rw [if_neg (hlong _), hs.none_below hk (List.suffix_append _ _) (hlong _).symm,
        h.sound.none_below hleaf (List.suffix_append _ _) (hlong _).symm]
  · have hjk : j ≠ k := fun hc => hj (hc ▸ List.suffix_refl j)
    rw [if_neg hj, if_neg hjk]
    by_cases hjl : l <:+ j
    · rw [if_pos hjl]
      by_cases hl : l = j
      · rw [← hl, hnew]
      · rw [hs.none_below (by simp [hnew]) hjl hl]
    · rw [if_neg hjl, h.at_of_ne fun hc => hjl (hc ▸ List.suffix_refl j)]

/-- A new file that goes to another name of its directory leaves an edit at that name. -/
theorem Edit.rename (h : Edit fs (t :: d) (some e) fs') (hs : fs.Sound) (hnew : fs.at (t :: d) = none)
    (hne : t ≠ w) (hw : ∀ m, fs.at (w :: d) ≠ some (.directory m)) (he : e.isDirectory = false) :
    Edit fs (w :: d) (some e) (fs'.relocate (t :: d) (w :: d)) :=
  h.relocate hs hnew he
    { source_ne_nil := List.cons_ne_nil _ _
      target_ne_nil := List.cons_ne_nil _ _
      not_into := fun hc => hne (suffix_of_siblings hc)
      not_out := fun hc => hne (suffix_of_siblings hc).symm
      vacant := h.sound.none_in fun m => by
        rw [h.at_of_ne (show w :: d ≠ t :: d by simpa using Ne.symm hne)]
        exact hw m }
    hw (h.sound.parent h.at_self)

/-- What becomes of a new file that is renamed to another name of its directory. -/
theorem Edit.rename_eq {m : Nat} {c : Bytes} (h : Edit fs (t :: d) (some (.file m c)) fs')
    (hs : fs.Sound) (hnew : fs.at (t :: d) = none) (hy : fs.yields d = true) (ht : Aims fs' f d t)
    (hw : Aims fs' f d w) :
    (∀ n, fs.at (w :: d) ≠ some (.directory n)) ∧ (∃ fs'', fs'.rename (f.join ⟨t⟩) (f.join ⟨w⟩) = .ok fs'' ∧
        Edit fs (w :: d) (some (.file m c)) fs'') ∨
      (∃ n, fs.at (w :: d) = some (.directory n)) ∧
        ∃ err, fs'.rename (f.join ⟨t⟩) (f.join ⟨w⟩) = .error err := by
  rw [ht.rename hw, h.at_self]
  simp only
  by_cases heq : t :: d = w :: d
  · obtain rfl : t = w := by simpa using heq
    rw [if_pos rfl]
    exact .inl ⟨by simp [hnew], fs', rfl, h⟩
  · have hne : t ≠ w := by simpa using heq
    have hinto : (t :: d).isSuffixOf (w :: d) = false := Bool.eq_false_iff.2 fun hc =>
      hne (suffix_of_siblings (List.isSuffixOf_iff_suffix.1 hc))
    have hout : (w :: d).isSuffixOf (t :: d) = false := Bool.eq_false_iff.2 fun hc =>
      hne (suffix_of_siblings (List.isSuffixOf_iff_suffix.1 hc)).symm
    rw [if_neg heq]
    simp only [renameBar, hinto, hout, Bool.false_eq_true, if_false, moveBar, h.yields_eq, hy,
      h.at_of_ne (Ne.symm heq)]
    cases hold : fs.at (w :: d) with
    | none => exact .inl ⟨by simp, _, rfl, h.rename hs hnew hne (by simp [hold]) rfl⟩
    | some e =>
      cases e with
      | file n b => exact .inl ⟨by simp, _, rfl, h.rename hs hnew hne (by simp [hold]) rfl⟩
      | directory n => exact .inr ⟨⟨n, rfl⟩, _, rfl⟩
      | link b => exact .inl ⟨by simp, _, rfl, h.rename hs hnew hne (by simp [hold]) rfl⟩

end Retrace.FileSystem
