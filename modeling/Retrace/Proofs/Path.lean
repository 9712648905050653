import Mathlib.Data.List.Basic
import Mathlib.Tactic.Common
import Retrace.Path

/-!
The words of a path: cutting and gluing undo one another, a name joined to a path is its last word,
and a normalized path is the list of its names.
-/
namespace Retrace.Path

/-- A word that leads to one entry of a directory. -/
def IsName (w : Bytes) : Prop := w ≠ [] ∧ w ≠ [dot] ∧ w ≠ [dot, dot] ∧ slash ∉ w

instance (w : Bytes) : Decidable (IsName w) := inferInstanceAs (Decidable (_ ∧ _ ∧ _ ∧ _))

variable {p : Path} {w : Bytes} {ws names : List Bytes}

theorem split_ne_nil (b : Bytes) : split b ≠ [] := by
  cases b with
  | nil => simp [split]
  | cons x r =>
    rw [split]
    split
    · simp
    · split <;> simp

theorem split_append_slash (a b : Bytes) : split (a ++ slash :: b) = split a ++ split b := by
  induction a with
  | nil => simp [split]
  | cons x r ih =>
    by_cases hx : x = slash
    · simp [split, hx, ih]
    · obtain ⟨w, ws, h⟩ := List.exists_cons_of_ne_nil (split_ne_nil r)
      simp [split, hx, ih, h]

theorem split_of_not_mem (h : slash ∉ w) : split w = [w] := by
  induction w with
  | nil => rfl
  | cons x r ih =>
    simp only [List.mem_cons, not_or] at h
    simp [split, Ne.symm h.1, ih h.2]

theorem split_append_name (a : Bytes) (h : slash ∉ w) : split (a ++ slash :: w) = split a ++ [w] := by
  rw [split_append_slash, split_of_not_mem h]

theorem not_mem_of_mem_split {b : Bytes} (h : w ∈ split b) : slash ∉ w := by
  induction b generalizing w with
  | nil => simp_all [split]
  | cons x r ih =>
    rw [split] at h
    split at h
    · rcases List.mem_cons.1 h with rfl | h
      · simp
      · exact ih h
    · next hx =>
      split at h
      · next hr => exact absurd hr (split_ne_nil r)
      · next v vs hr =>
        rcases List.mem_cons.1 h with rfl | h
        · simpa [Ne.symm hx] using ih (hr ▸ List.mem_cons_self)
        · exact ih (hr ▸ List.mem_cons_of_mem _ h)

theorem glue_cons_cons (v : Bytes) (h : ws ≠ []) : glue (v :: ws) = v ++ slash :: glue ws := by
  cases ws with
  | nil => exact absurd rfl h
  | cons w ws => rfl

theorem glue_append (h : ws ≠ []) (w : Bytes) : glue (ws ++ [w]) = glue ws ++ slash :: w := by
  induction ws with
  | nil => exact absurd rfl h
  | cons v ws ih =>
    by_cases hw : ws = []
    · subst hw; rfl
    · rw [List.cons_append, glue_cons_cons v (by simp), ih hw, glue_cons_cons v hw]
      simp

theorem glue_split (b : Bytes) : glue (split b) = b := by
  induction b with
  | nil => rfl
  | cons x r ih =>
    obtain ⟨w, ws, h⟩ := List.exists_cons_of_ne_nil (split_ne_nil r)
    by_cases hx : x = slash
    · rw [split, if_pos hx, glue_cons_cons _ (split_ne_nil r), ih, hx]; rfl
    · rw [split, if_neg hx, h]
      rw [h] at ih
      cases ws with
      | nil => simpa [glue] using ih
      | cons v vs => simpa [glue] using ih

theorem split_glue (hne : ws ≠ []) (h : ∀ w ∈ ws, slash ∉ w) : split (glue ws) = ws := by
  induction ws with
  | nil => exact absurd rfl hne
  | cons v ws ih =>
    have hv := h v List.mem_cons_self
    by_cases hw : ws = []
    · subst hw; exact split_of_not_mem hv
    · rw [glue_cons_cons v hw, split_append_slash, split_of_not_mem hv,
        ih hw fun w h' => h w (List.mem_cons_of_mem _ h'), List.singleton_append]

/-! ### Pieces that lead somewhere -/

def named (p : Path) : List Bytes := p.pieces.filter (· ≠ [])

theorem IsName.not_mem (h : IsName w) : slash ∉ w := h.2.2.2

theorem IsName.ne_nil (h : IsName w) : w ≠ [] := h.1

theorem pieces_ofNames (h : ∀ w ∈ names, IsName w) (hne : names ≠ []) :
    (ofNames true names).pieces = [] :: names.reverse := by
  have hslash : ∀ w ∈ names.reverse, slash ∉ w := fun w hw => (h w (List.mem_reverse.1 hw)).not_mem
  simp only [pieces, ofNames, if_true, List.singleton_append, split]
  rw [split_glue (by simpa using hne) hslash]

theorem named_ofNames (h : ∀ w ∈ names, IsName w) : (ofNames true names).named = names.reverse := by
  by_cases hne : names = []
  · subst hne; rfl
  · rw [named, pieces_ofNames h hne, List.filter_cons_of_neg (by simp), List.filter_eq_self]
    exact fun w hw => by simpa using (h w (List.mem_reverse.1 hw)).ne_nil

@[simp] theorem isAbsolute_ofNames (names : List Bytes) : (ofNames true names).isAbsolute = true := rfl

theorem getLast?_ofNames (h : ∀ w ∈ names, IsName w) (hne : names ≠ []) :
    (ofNames true names).bytes.getLast? ≠ some slash := by
  obtain ⟨w, d, rfl⟩ := List.exists_cons_of_ne_nil hne
  obtain ⟨hw, -, -, hs⟩ := h w List.mem_cons_self
  have hlast : ∃ a, (ofNames true (w :: d)).bytes = a ++ w := by
    simp only [ofNames, if_true, List.reverse_cons]
    by_cases hd : d.reverse = []
    · exact ⟨[slash], by simp [hd, glue]⟩
    · exact ⟨[slash] ++ glue d.reverse ++ [slash], by simp [glue_append hd]⟩
  obtain ⟨a, ha⟩ := hlast
  rw [ha, List.getLast?_append_of_ne_nil _ hw]
  exact fun hc => hs (List.mem_of_getLast? hc)

/-! ### A name joined to a path -/

theorem isAbsolute_name (hw : IsName w) : (Path.mk w).isAbsolute = false := by
  cases w with
  | nil => exact absurd rfl hw.ne_nil
  | cons x r =>
    have : slash ≠ x := fun e => hw.not_mem (e ▸ List.mem_cons_self)
    simpa [isAbsolute] using this.symm

theorem join_name (p : Path) (hw : IsName w) :
    p.join ⟨w⟩ = if p.bytes = [] ∨ p.bytes.getLast? = some slash then ⟨p.bytes ++ w⟩
      else ⟨p.bytes ++ slash :: w⟩ := by
  simp [join, isAbsolute_name hw]

theorem pieces_join_name (p : Path) (hw : IsName w) :
    (p.join ⟨w⟩).pieces = p.pieces ++ [w] ∨
      ∃ ws, p.pieces = ws ++ [[]] ∧ (p.join ⟨w⟩).pieces = ws ++ [w] := by
  rw [join_name p hw]
  split
  · next h =>
    right
    rcases h with h | h
    · exact ⟨[], by simp [pieces, h, split, split_of_not_mem hw.not_mem]⟩
    · obtain ⟨a, ha⟩ := List.getLast?_eq_some_iff.1 h
      refine ⟨split a, ?_, ?_⟩
      · simp [pieces, ha, split_append_slash, split]
      · simp [pieces, ha, split_append_slash, split_of_not_mem hw.not_mem]
  · exact .inl (split_append_name _ hw.not_mem)

theorem named_join_name (p : Path) (hw : IsName w) : (p.join ⟨w⟩).named = p.named ++ [w] := by
  rcases pieces_join_name p hw with h | ⟨ws, h, h'⟩
  · simp [named, h, hw.ne_nil]
  · simp [named, h, h', hw.ne_nil]

theorem bytes_join_name (p : Path) (hw : IsName w) : ∃ a, (p.join ⟨w⟩).bytes = a ++ w := by
  rw [join_name p hw]
  split
  · exact ⟨_, rfl⟩
  · exact ⟨p.bytes ++ [slash], by simp⟩

theorem bytes_join_name_ne_nil (p : Path) (hw : IsName w) : (p.join ⟨w⟩).bytes ≠ [] := by
  obtain ⟨a, ha⟩ := bytes_join_name p hw
  simp [ha, hw.ne_nil]

theorem getLast?_join_name (p : Path) (hw : IsName w) :
    (p.join ⟨w⟩).bytes.getLast? ≠ some slash := by
  obtain ⟨a, ha⟩ := bytes_join_name p hw
  rw [ha, List.getLast?_append_of_ne_nil _ hw.ne_nil]
  exact fun hc => hw.not_mem (List.mem_of_getLast? hc)

theorem isAbsolute_join_name (hp : p.isAbsolute = true) (hw : IsName w) :
    (p.join ⟨w⟩).isAbsolute = true := by
  obtain ⟨b⟩ := p
  cases b with
  | nil => simp [isAbsolute] at hp
  | cons x r =>
    rw [join_name _ hw]
    split <;> simpa [isAbsolute] using hp

theorem isAbsolute_of_join_name {p : Path} (hw : IsName w) (h : (p.join ⟨w⟩).isAbsolute = true) :
    p.isAbsolute = true := by
  have hname := isAbsolute_name hw
  rw [join_name p hw] at h
  cases hb : p.bytes with
  | nil => simp_all [isAbsolute]
  | cons b bs =>
    simp only [isAbsolute, hb] at h ⊢
    split at h <;> simpa using h

theorem hasNul_join_name (p : Path) (hw : IsName w) :
    (p.join ⟨w⟩).hasNul = (p.hasNul || w.contains 0) := by
  rw [join_name p hw]
  split
  · simp [hasNul]
  · have : (0 : UInt8) ≠ slash := by decide
    simp [hasNul, this]

theorem lt_length_join_name (p : Path) (hw : IsName w) :
    p.bytes.length < (p.join ⟨w⟩).bytes.length := by
  have := List.length_pos_of_ne_nil hw.ne_nil
  rw [join_name p hw]
  split
  · simp only [List.length_append]; omega
  · simp only [List.length_append, List.length_cons]; omega

theorem length_join_name_mono (p : Path) {v : Bytes} (hv : IsName v) (hw : IsName w)
    (h : v.length ≤ w.length) : (p.join ⟨v⟩).bytes.length ≤ (p.join ⟨w⟩).bytes.length := by
  rw [join_name p hv, join_name p hw]
  split
  · simp only [List.length_append]; omega
  · simp only [List.length_append, List.length_cons]; omega

theorem ofNames_join (d : List Bytes) (hd : ∀ v ∈ d, IsName v) (hw : IsName w) :
    (ofNames true d).join ⟨w⟩ = ofNames true (w :: d) := by
  rw [join_name _ hw]
  by_cases hne : d = []
  · subst hne
    simp [ofNames, glue]
  · rw [if_neg]
    · simp [ofNames, glue_append (by simpa using hne : d.reverse ≠ [])]
    · have := getLast?_ofNames hd hne
      simp_all [ofNames]

def Tidy (p : Path) : Prop :=
  p = ⟨[slash]⟩ ∨ ∃ ws w, ws ≠ [] ∧ w ≠ [] ∧ w ≠ [dot] ∧ p.pieces = ws ++ [w]

theorem pieces_ne_singleton (hp : p.isAbsolute = true) (w : Bytes) : p.pieces ≠ [w] := by
  obtain ⟨b⟩ := p
  cases b with
  | nil => simp [isAbsolute] at hp
  | cons x r =>
    obtain rfl : x = slash := by simpa [isAbsolute] using hp
    simp [pieces, split, split_ne_nil]

theorem tidy_join_name (hp : p.isAbsolute = true) (hw : IsName w) : (p.join ⟨w⟩).Tidy := by
  right
  have habs := pieces_ne_singleton (isAbsolute_join_name hp hw) w
  rcases pieces_join_name p hw with h | ⟨ws, -, h⟩
  · exact ⟨p.pieces, w, split_ne_nil _, hw.1, hw.2.1, h⟩
  · refine ⟨ws, w, ?_, hw.1, hw.2.1, h⟩
    rintro rfl
    exact habs h

theorem tidy_ofNames (h : ∀ w ∈ names, IsName w) : (ofNames true names).Tidy := by
  cases names with
  | nil => exact .inl rfl
  | cons w d =>
    rw [← ofNames_join d (fun v hv => h v (List.mem_cons_of_mem _ hv)) (h w List.mem_cons_self)]
    exact tidy_join_name rfl (h w List.mem_cons_self)

theorem trimEnd_cons (h₁ : w ≠ []) (h₂ : w ≠ [dot]) : trimEnd (w :: ws) = w :: ws := by
  cases ws <;> simp [trimEnd, h₁, h₂]

theorem parent?_join_name (hp : p.Tidy) (hw : IsName w) : (p.join ⟨w⟩).parent? = some p := by
  rcases hp with rfl | ⟨ws, v, hne, hv, hv', hpieces⟩
  · have : (Path.join ⟨[slash]⟩ ⟨w⟩).pieces = [[], w] := by
      rw [join_name _ hw]
      simp [pieces, split, split_of_not_mem hw.not_mem]
    simp [parent?, this, trimEnd_cons hw.1 hw.2.1, trimEnd]
  · have hjoin : (p.join ⟨w⟩).pieces = p.pieces ++ [w] := by
      rcases pieces_join_name p hw with h | ⟨us, h, -⟩
      · exact h
      · exact absurd (List.append_inj' (hpieces.symm.trans h) rfl).2 (by simpa using hv)
    have hglue : glue (ws ++ [v]) = p.bytes := by rw [← hpieces]; exact glue_split _
    have hroot : ws ++ [v] ≠ [[]] := fun h => hne (by simpa using congrArg List.length h)
    simp [parent?, hjoin, hpieces, trimEnd_cons hw.1 hw.2.1, trimEnd_cons hv hv', hroot, hglue]

theorem parent?_ofNames_nil : (ofNames true []).parent? = none := by decide +kernel

theorem parent?_ofNames_cons {w : Bytes} (hn : ∀ v ∈ w :: names, IsName v) :
    (ofNames true (w :: names)).parent? = some (ofNames true names) := by
  have hnames : ∀ v ∈ names, IsName v := fun v hv => hn v (List.mem_cons_of_mem _ hv)
  have hw := hn w List.mem_cons_self
  rw [← ofNames_join names hnames hw, parent?_join_name (tidy_ofNames hnames) hw]

theorem bytes_ne_nil_of_isAbsolute (hp : p.isAbsolute = true) : p.bytes ≠ [] := by
  intro h; simp [isAbsolute, h] at hp

theorem trimEnd_append_singleton (ws : List Bytes) (w : Bytes) :
    ∃ vs, trimEnd (ws ++ [w]) = vs ++ [w] := by
  induction ws with
  | nil => exact ⟨[], rfl⟩
  | cons v ws ih =>
    obtain ⟨vs, hvs⟩ := ih
    cases hws : ws ++ [w] with
    | nil => simp at hws
    | cons x xs =>
      rw [List.cons_append, hws, trimEnd]
      · split
        · exact ⟨vs, by rw [← hws, hvs]⟩
        · exact ⟨v :: ws, by rw [← hws, List.cons_append]⟩
      · simp

/-- What holds an absolute path is absolute. -/
theorem isAbsolute_of_parent? (hp : p.isAbsolute = true) (h : p.parent? = some q) :
    q.isAbsolute = true := by
  obtain ⟨b⟩ := p
  cases b with
  | nil => simp [isAbsolute] at hp
  | cons x r =>
    obtain rfl : x = slash := by simpa [isAbsolute] using hp
    obtain ⟨vs, hvs⟩ := trimEnd_append_singleton (split r).reverse []
    have hpieces : trimEnd (pieces ⟨slash :: r⟩).reverse = vs ++ [[]] := by
      simpa [pieces, split] using hvs
    rw [parent?, hpieces] at h
    cases vs with
    | nil => cases h
    | cons v vs =>
      obtain ⟨us, hus⟩ := trimEnd_append_singleton vs []
      obtain ⟨y, ys, hys⟩ : ∃ y ys, vs ++ [([] : Bytes)] = y :: ys := by cases vs <;> simp
      rw [List.cons_append, hys] at h
      simp only [← hys, hus, List.reverse_append, List.reverse_cons, List.reverse_nil,
        List.nil_append, List.singleton_append, Option.some.injEq] at h
      rw [← h]
      split
      · rfl
      · next hne =>
        cases hrev : us.reverse with
        | nil => exact absurd (by rw [hrev]) hne
        | cons z zs => rfl

/-! ### Normalized paths -/

theorem isName_of_stepOf? {v : Bytes} (hs : slash ∉ w) (h : stepOf? w = some (.down v)) :
    IsName v := by
  unfold stepOf? at h
  split at h
  · simp at h
  · next h₁ =>
    split at h
    · simp at h
    · next h₂ =>
      obtain rfl : w = v := by simpa using h
      simp only [not_or] at h₁
      exact ⟨h₁.1, h₁.2, h₂, hs⟩

theorem isName_foldl_walk {ss : List Step} (hs : ∀ w, Step.down w ∈ ss → IsName w)
    (hn : ∀ w ∈ names, IsName w) : ∀ w ∈ ss.foldl walk names, IsName w := by
  induction ss generalizing names with
  | nil => exact hn
  | cons s ss ih =>
    refine ih (fun w hw => hs w (List.mem_cons_of_mem _ hw)) ?_
    intro w hw
    cases s with
    | up => exact hn w (List.mem_of_mem_drop hw)
    | down v =>
      rcases List.mem_cons.1 hw with rfl | hw
      · exact hs _ List.mem_cons_self
      · exact hn w hw

def spelled (root p : Path) : List Bytes := (root.join p).steps.foldl walk []

theorem isName_of_mem_spelled {root : Path} : ∀ w ∈ spelled root p, IsName w := by
  refine isName_foldl_walk (fun w hw => ?_) (by simp)
  obtain ⟨v, hv, h⟩ := List.mem_filterMap.1 hw
  exact isName_of_stepOf? (not_mem_of_mem_split hv) h

theorem isAbsolute_join {root : Path} (hr : root.isAbsolute = true) : (root.join p).isAbsolute = true := by
  obtain ⟨b⟩ := root
  unfold join
  split
  · assumption
  · cases b with
    | nil => simp [isAbsolute] at hr
    | cons x r => split <;> simpa [isAbsolute] using hr

theorem normalize_eq {root : Path} (hr : root.isAbsolute = true) :
    root.normalize p = ofNames true (spelled root p) := by
  simp only [normalize, isAbsolute_join hr, spelled]

theorem isAbsolute_normalize {root : Path} (hr : root.isAbsolute = true) :
    (root.normalize p).isAbsolute = true := by
  rw [normalize_eq hr]
  rfl

theorem steps_ofNames (h : ∀ w ∈ names, IsName w) :
    (ofNames true names).steps = names.reverse.map .down := by
  have hstep : ∀ w ∈ names.reverse, stepOf? w = some (.down w) := fun w hw => by
    obtain ⟨h₁, h₂, h₃, -⟩ := h w (List.mem_reverse.1 hw)
    rw [stepOf?, if_neg (not_or.2 ⟨h₁, h₂⟩), if_neg h₃]
  by_cases hne : names = []
  · subst hne
    decide
  · rw [steps, pieces_ofNames h hne, List.filterMap_cons_none (by decide),
      List.filterMap_congr hstep, List.filterMap_eq_map']

theorem foldl_walk_down (ws : List Bytes) :
    (ws.map Step.down).foldl walk names = ws.reverse ++ names := by
  induction ws generalizing names with
  | nil => rfl
  | cons w ws ih =>
    rw [List.map_cons, List.foldl_cons, ih, List.reverse_cons, List.append_assoc]
    rfl

theorem spelled_ofNames (here : Path) (h : ∀ w ∈ names, IsName w) :
    spelled here (ofNames true names) = names := by
  have hjoin : here.join (ofNames true names) = ofNames true names := if_pos (isAbsolute_ofNames names)
  rw [spelled, hjoin, steps_ofNames h, foldl_walk_down, List.reverse_reverse, List.append_nil]

theorem normalize_ofNames (here : Path) (h : ∀ w ∈ names, IsName w) :
    here.normalize (ofNames true names) = ofNames true names := by
  have hjoin : here.join (ofNames true names) = ofNames true names := if_pos (isAbsolute_ofNames names)
  rw [normalize, hjoin, isAbsolute_ofNames, steps_ofNames h, foldl_walk_down, List.reverse_reverse,
    List.append_nil]

end Retrace.Path
