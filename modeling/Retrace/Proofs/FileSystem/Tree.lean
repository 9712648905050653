import Mathlib.Data.List.Basic
import Mathlib.Tactic.Common
import Retrace.FileSystem.Operations

/-!
Trees of files as maps from places to entries. In a sound tree every entry stands in a directory;
each change of a tree keeps that, and says place by place what stands there afterwards.
-/
namespace Retrace.FileSystem

/-- Every entry stands in a directory. -/
def Sound (fs : FileSystem) : Prop :=
  ∀ x ∈ fs.entries, x.1 ≠ [] ∧ (fs.at x.1.tail).any Entry.isDirectory = true

instance (fs : FileSystem) : Decidable fs.Sound := inferInstanceAs (Decidable (∀ x ∈ _, _))

variable {fs : FileSystem} {l k source target : Location} {e : Entry}

@[simp] theorem at_nil (fs : FileSystem) : fs.at [] = some (.directory fs.rootMode) := rfl

theorem at_of_ne_nil (fs : FileSystem) (hl : l ≠ []) : fs.at l = fs.entries.lookup l := if_neg hl

theorem any_isDirectory_iff {o : Option Entry} :
    o.any Entry.isDirectory = true ↔ ∃ m, o = some (.directory m) := by
  cases o with
  | none => simp
  | some e => cases e <;> simp [Entry.isDirectory]

theorem mem_of_at (hl : l ≠ []) (h : fs.at l = some e) : (l, e) ∈ fs.entries := by
  rw [at_of_ne_nil fs hl, List.lookup_eq_some_iff] at h
  obtain ⟨l₁, l₂, h, -⟩ := h
  exact h ▸ List.mem_append_right _ List.mem_cons_self

theorem isSome_at_of_mem (h : (l, e) ∈ fs.entries) : (fs.at l).isSome := by
  by_cases hl : l = []
  · subst hl; rfl
  · rw [at_of_ne_nil fs hl, List.lookup_isSome_iff]
    exact ⟨_, h, by simp⟩

theorem Sound.parent (hs : fs.Sound) {w : Bytes} (h : fs.at (w :: l) = some e) :
    ∃ m, fs.at l = some (.directory m) :=
  any_isDirectory_iff.1 (hs _ (mem_of_at (List.cons_ne_nil _ _) h)).2

theorem Sound.above (hs : fs.Sound) (h : fs.at k = some e) (hk : l <:+ k) (hne : l ≠ k) :
    ∃ m, fs.at l = some (.directory m) := by
  induction k generalizing e with
  | nil => exact absurd (List.suffix_nil.1 hk) hne
  | cons w k ih =>
    obtain ⟨m, hm⟩ := hs.parent h
    rcases List.suffix_cons_iff.1 hk with rfl | hk
    · exact absurd rfl hne
    · by_cases he : l = k
      · exact ⟨m, he ▸ hm⟩
      · exact ih hm hk he

theorem Sound.none_below (hs : fs.Sound) (hd : ∀ m, fs.at l ≠ some (.directory m)) (hk : l <:+ k)
    (hne : l ≠ k) : fs.at k = none := by
  by_contra h
  obtain ⟨e, he⟩ := Option.ne_none_iff_exists'.1 h
  obtain ⟨m, hm⟩ := hs.above he hk hne
  exact hd m hm

theorem mem_children {w : Bytes} : w ∈ fs.children l ↔ (fs.at (w :: l)).isSome := by
  rw [at_of_ne_nil fs (List.cons_ne_nil _ _), List.lookup_isSome_iff]
  simp only [children, List.mem_filterMap]
  constructor
  · rintro ⟨⟨p, e⟩, hp, h⟩
    cases p with
    | nil => simp at h
    | cons v above =>
      simp only [Option.ite_none_right_eq_some, Option.some.injEq] at h
      exact ⟨_, hp, by simp [h.1, h.2]⟩
  · rintro ⟨⟨p, e⟩, hp, h⟩
    obtain rfl := eq_of_beq h
    exact ⟨_, hp, by simp⟩

theorem children_eq_nil : fs.children l = [] ↔ ∀ w, fs.at (w :: l) = none := by
  simp only [List.eq_nil_iff_forall_not_mem, mem_children, Option.not_isSome_iff_eq_none]

theorem Sound.none_below_empty (hs : fs.Sound) (hc : ∀ w, fs.at (w :: l) = none) (hk : l <:+ k)
    (hne : l ≠ k) : fs.at k = none := by
  obtain ⟨x, rfl⟩ := hk
  induction x with
  | nil => exact absurd rfl hne
  | cons v x ih =>
    by_contra h
    obtain ⟨e, he⟩ := Option.ne_none_iff_exists'.1 h
    obtain ⟨m, hm⟩ := hs.parent he
    by_cases hx : x = []
    · subst hx; exact absurd (hc v) h
    · simp [ih (by simpa using hx)] at hm

/-! ### Entries put in and taken out -/

theorem mem_put {x : Location × Entry} {es : List (Location × Entry)} (h : x ∈ put l e es) :
    x = (l, e) ∨ x ∈ es := by
  induction es with
  | nil => simpa [put] using h
  | cons y r ih =>
    obtain ⟨j, z⟩ := y
    simp only [put] at h
    split at h
    · rcases List.mem_cons.1 h with h | h
      · exact .inl h
      · exact .inr (List.mem_cons_of_mem _ h)
    · rcases List.mem_cons.1 h with h | h
      · exact .inr (h ▸ List.mem_cons_self)
      · exact (ih h).imp_right (List.mem_cons_of_mem _)

@[simp] theorem workplace_insert (fs : FileSystem) (l : Location) (e : Entry) :
    (fs.insert l e).workplace = fs.workplace := by
  unfold insert; split <;> rfl

@[simp] theorem workplace_erase (fs : FileSystem) (l : Location) :
    (fs.erase l).workplace = fs.workplace := rfl

@[simp] theorem workplace_relocate (fs : FileSystem) (k l : Location) :
    (fs.relocate k l).workplace = fs.workplace := rfl

theorem Sound.insert (hs : fs.Sound) (hl : l ≠ []) (hp : ∃ m, fs.at l.tail = some (.directory m))
    (hd : e.isDirectory = true ∨ ∀ m, fs.at l ≠ some (.directory m)) : (fs.insert l e).Sound := by
  intro x hx
  have hentries : (fs.insert l e).entries = put l e fs.entries := by simp [FileSystem.insert, hl]
  have hstays : ∀ j m, fs.at j = some (.directory m) →
      ((fs.insert l e).at j).any Entry.isDirectory = true := by
    intro j m hj
    rw [at_insert _ _ _ _ hl]
    split
    · next h =>
      subst h
      rcases hd with hd | hd
      · simpa using hd
      · exact absurd hj (hd m)
    · simp [hj, Entry.isDirectory]
  rcases mem_put (hentries ▸ hx) with rfl | hx
  · obtain ⟨m, hm⟩ := hp
    exact ⟨hl, hstays _ m hm⟩
  · obtain ⟨hne, hdir⟩ := hs x hx
    obtain ⟨m, hm⟩ := any_isDirectory_iff.1 hdir
    exact ⟨hne, hstays _ m hm⟩

theorem Sound.erase (hs : fs.Sound) (hl : l ≠ []) (hc : ∀ w, fs.at (w :: l) = none) :
    (fs.erase l).Sound := by
  rintro ⟨k, x⟩ hx
  have hx := (List.mem_filter.1 hx).1
  have hx' := isSome_at_of_mem hx
  obtain ⟨hne, hdir⟩ := hs _ hx
  refine ⟨hne, ?_⟩
  obtain ⟨w, k, rfl⟩ := List.exists_cons_of_ne_nil hne
  rw [List.tail_cons] at hdir ⊢
  rw [at_erase _ _ _ hl, if_neg]
  · exact hdir
  · rintro rfl
    simp [hc w] at hx'

/-! ### Entries that go elsewhere -/

theorem carry_of_suffix (x : Location) : carry source target (x ++ source) = x ++ target := by
  simp [carry]

theorem carry_of_not_suffix (h : ¬source <:+ l) : carry source target l = l := by
  simp [carry, h]

structure Movable (fs : FileSystem) (source target : Location) : Prop where
  source_ne_nil : source ≠ []
  target_ne_nil : target ≠ []
  not_into : ¬source <:+ target
  not_out : ¬target <:+ source
  vacant : ∀ w, fs.at (w :: target) = none

theorem carry_eq_iff (hk : ¬target <:+ k) (j : Location) :
    carry source target j = k ↔ j = k ∧ ¬source <:+ k := by
  by_cases hs : source <:+ j
  · obtain ⟨x, rfl⟩ := hs
    rw [carry_of_suffix]
    constructor
    · rintro rfl; exact absurd (List.suffix_append x target) hk
    · rintro ⟨rfl, hn⟩; exact absurd (List.suffix_append x source) hn
  · rw [carry_of_not_suffix hs]
    exact ⟨fun e => ⟨e, e ▸ hs⟩, And.left⟩

theorem carry_eq_append_iff (x : Location) {j : Location} (hj : ¬target <:+ j) :
    carry source target j = x ++ target ↔ j = x ++ source := by
  by_cases hs : source <:+ j
  · obtain ⟨y, rfl⟩ := hs
    simp [carry_of_suffix]
  · rw [carry_of_not_suffix hs]
    constructor
    · rintro rfl; exact absurd (List.suffix_append x target) hj
    · rintro rfl; exact absurd (List.suffix_append x source) hs

theorem Movable.not_suffix_of_mem (h : Movable fs source target) (hs : fs.Sound) {x : Location × Entry}
    (hx : x ∈ (fs.erase target).entries) : ¬target <:+ x.1 := by
  obtain ⟨hx, hne⟩ := List.mem_filter.1 hx
  intro hsuf
  have hsome := isSome_at_of_mem (e := x.2) hx
  by_cases he : target = x.1
  · simp [he] at hne
  · simp [hs.none_below_empty h.vacant hsuf he] at hsome

theorem lookup_map_key {f : Location → Location} {es : List (Location × Entry)} {j k : Location}
    (hf : ∀ x ∈ es, f x.1 = k ↔ x.1 = j) :
    (es.map fun x => (f x.1, x.2)).lookup k = es.lookup j := by
  induction es with
  | nil => rfl
  | cons x r ih =>
    obtain ⟨i, b⟩ := x
    have hi : f i = k ↔ i = j := hf (i, b) List.mem_cons_self
    have ih := ih fun y hy => hf y (List.mem_cons_of_mem _ hy)
    have hkey : (k == f i) = (j == i) := by
      rw [Bool.eq_iff_iff, beq_iff_eq, beq_iff_eq, eq_comm, hi, eq_comm]
    simp only [List.map_cons, List.lookup_cons, hkey, ih]

/-- After a move the target has what the source had, all below included; the source has nothing. -/
theorem at_relocate (hs : fs.Sound) (h : Movable fs source target) (k : Location) :
    (fs.relocate source target).at k =
      if target <:+ k then fs.at (k.take (k.length - target.length) ++ source)
      else if source <:+ k then none else fs.at k := by
  have hmem := fun x hx => h.not_suffix_of_mem hs (x := x) hx
  by_cases hk : k = []
  · subst hk
    simp [relocate, h.target_ne_nil, h.source_ne_nil, erase]
  have hlook : (fs.relocate source target).at k =
      ((fs.erase target).entries.map fun x => (carry source target x.1, x.2)).lookup k := by
    rw [at_of_ne_nil _ hk]; rfl
  rw [hlook]
  split
  · next hsuf =>
    obtain ⟨x, rfl⟩ := hsuf
    rw [lookup_map_key (j := x ++ source) fun y hy => carry_eq_append_iff x (hmem y hy)]
    have hne : x ++ source ≠ [] := by simp [h.source_ne_nil]
    rw [← at_of_ne_nil _ hne, at_erase _ _ _ h.target_ne_nil, if_neg]
    · simp
    · intro he
      exact h.not_into (he ▸ List.suffix_append x source)
  · next hsuf =>
    split
    · next hsrc =>
      rw [List.lookup_eq_none_iff]
      rintro _ hy
      obtain ⟨y, hy, rfl⟩ := List.mem_map.1 hy
      exact bne_iff_ne.2 fun he => ((carry_eq_iff hsuf y.1).1 he.symm).2 hsrc
    · next hsrc =>
      rw [lookup_map_key (j := k) fun y _ => by rw [carry_eq_iff hsuf]; tauto]
      rw [← at_of_ne_nil _ hk, at_erase _ _ _ h.target_ne_nil, if_neg]
      rintro rfl
      exact hsuf (List.suffix_refl k)

theorem Sound.relocate (hs : fs.Sound) (h : Movable fs source target)
    (hp : ∃ m, fs.at target.tail = some (.directory m)) : (fs.relocate source target).Sound := by
  intro x hx
  obtain ⟨⟨j, b⟩, hy, rfl⟩ := List.mem_map.1 hx
  have hny : ¬target <:+ j := h.not_suffix_of_mem hs hy
  obtain ⟨hne, hdir⟩ := hs _ (List.mem_filter.1 hy).1
  change carry source target j ≠ [] ∧
    ((fs.relocate source target).at (carry source target j).tail).any Entry.isDirectory = true
  obtain ⟨m, hm⟩ := any_isDirectory_iff.1 hdir
  obtain ⟨v, t, ht⟩ := List.exists_cons_of_ne_nil h.target_ne_nil
  -- a directory that is neither moved nor overwritten is where it was
  have hkept : ∀ i, (∃ m, fs.at i = some (.directory m)) → ¬target <:+ i → ¬source <:+ i →
      ((fs.relocate source target).at i).any Entry.isDirectory = true := by
    rintro i ⟨m, hj⟩ h₁ h₂
    rw [at_relocate hs h, if_neg h₁, if_neg h₂, hj]; rfl
  by_cases hsuf : source <:+ j
  · obtain ⟨x, rfl⟩ := hsuf
    rw [carry_of_suffix]
    refine ⟨by simp [h.target_ne_nil], ?_⟩
    cases x with
    | nil =>
      rw [List.nil_append]
      refine hkept _ hp ?_ ?_
      · rw [ht]; exact fun hc => absurd hc.length_le (by simp)
      · exact fun hc => h.not_into (hc.trans (List.tail_suffix target))
    | cons w x =>
      rw [List.cons_append, List.tail_cons, at_relocate hs h, if_pos (List.suffix_append x target)]
      rw [List.cons_append, List.tail_cons] at hm
      simp [hm, Entry.isDirectory]
  · rw [carry_of_not_suffix hsuf]
    refine ⟨hne, hkept _ ⟨m, hm⟩ ?_ ?_⟩
    · exact fun hc => hny (hc.trans (List.tail_suffix j))
    · exact fun hc => hsuf (hc.trans (List.tail_suffix j))

end Retrace.FileSystem
