import Retrace.Proofs.Atomic
import Retrace.Proofs.Lexical

/-!
The paths above a path. The parts of an absolute path are taken off one by one from its end
(`back`), those that lead nowhere together with the one before them, so what stands above it are the
paths that are left (`above_iff`). Each spells a place (`spot`), which is not longer to write than the
path (`length_spot_le`).
-/
namespace Retrace.Path

variable {p q r : Path} {c w : Bytes} {cs ws : List Bytes}

/-- The place that an absolute path spells, the innermost name first. -/
def spells (p : Path) : List Bytes := p.pieces.foldl stack []

theorem normalize_of_isAbsolute (hp : p.isAbsolute = true) (root : Path) :
    root.normalize p = ofNames true p.spells := by
  have hjoin : root.join p = p := if_pos hp
  rw [normalize, hjoin, hp, spells, ← foldl_steps, steps]

theorem isName_spells (p : Path) : ∀ w ∈ p.spells, IsName w :=
  isName_foldl_stack (fun _ hw => not_mem_of_mem_split hw) (List.forall_mem_nil IsName)

/-! ### Pieces from the end of a path -/

def isBlank (w : Bytes) : Bool := w = [] ∨ w = [dot]

theorem isBlank_iff : isBlank w = true ↔ w = [] ∨ w = [dot] := decide_eq_true_iff

theorem isBlank_eq_false_iff : isBlank w = false ↔ w ≠ [] ∧ w ≠ [dot] := by
  rw [← Bool.not_eq_true, isBlank_iff, not_or]

/-- The absolute path of pieces, the last one first, without those at its end that lead nowhere. -/
def back (cs : List Bytes) : Path := ⟨slash :: glue (cs.dropWhile isBlank).reverse⟩

/-- The place that pieces spell, the last one first. -/
def spot (cs : List Bytes) : List Bytes := cs.reverse.foldl stack []

@[simp] theorem spot_nil : spot [] = [] := rfl

@[simp] theorem spot_cons (c : Bytes) (cs : List Bytes) : spot (c :: cs) = stack (spot cs) c := by
  rw [spot, List.reverse_cons, List.foldl_append, List.foldl_cons, List.foldl_nil, spot]

theorem spot_blank (h : isBlank c = true) : spot (c :: cs) = spot cs := by
  rw [spot_cons, stack_blank (isBlank_iff.1 h)]

theorem back_blank (h : isBlank c = true) : back (c :: cs) = back cs := by
  rw [back, back, List.dropWhile_cons_of_pos h]

theorem back_solid (h : isBlank c = false) : back (c :: cs) = ⟨slash :: glue (c :: cs).reverse⟩ := by
  rw [back, List.dropWhile_cons_of_neg (by simp [h])]

@[simp] theorem isAbsolute_back (cs : List Bytes) : (back cs).isAbsolute = true := rfl

theorem pieces_back (hs : ∀ w ∈ c :: cs, slash ∉ w) (h : isBlank c = false) :
    (back (c :: cs)).pieces = [] :: (c :: cs).reverse := by
  rw [back_solid h, pieces, split, if_pos rfl,
    split_glue (by simp) fun w hw => hs w (List.mem_reverse.1 hw)]

theorem named_back (hs : ∀ w ∈ cs, slash ∉ w) :
    (back cs).named = (cs.dropWhile isBlank).reverse.filter (· ≠ []) := by
  induction cs with
  | nil => rfl
  | cons c cs ih =>
    cases h : isBlank c with
    | true =>
      rw [back_blank h, ih fun w hw => hs w (List.mem_cons_of_mem _ hw), List.dropWhile_cons_of_pos h]
    | false =>
      rw [named, pieces_back hs h, List.filter_cons_of_neg (by simp),
        List.dropWhile_cons_of_neg (by simp [h])]

theorem tidy_back (hs : ∀ w ∈ cs, slash ∉ w) : (back cs).Tidy := by
  induction cs with
  | nil => exact .inl rfl
  | cons c cs ih =>
    cases h : isBlank c with
    | true =>
      rw [back_blank h]
      exact ih fun w hw => hs w (List.mem_cons_of_mem _ hw)
    | false =>
      have hc := isBlank_eq_false_iff.1 h
      exact .inr ⟨[] :: cs.reverse, c, by simp, hc.1, hc.2, by rw [pieces_back hs h]; simp⟩

theorem spells_back (hs : ∀ w ∈ cs, slash ∉ w) : (back cs).spells = spot cs := by
  induction cs with
  | nil => rfl
  | cons c cs ih =>
    cases h : isBlank c with
    | true => rw [back_blank h, spot_blank h, ih fun w hw => hs w (List.mem_cons_of_mem _ hw)]
    | false => rw [spells, pieces_back hs h, List.foldl_cons, stack_blank (.inl rfl), spot]

/-! ### Taking components off -/

theorem trimEnd_append (ws : List Bytes) (w : Bytes) :
    trimEnd (ws ++ [w]) = ws.dropWhile isBlank ++ [w] := by
  induction ws with
  | nil => rfl
  | cons v ws ih =>
    obtain ⟨x, xs, hx⟩ : ∃ x xs, ws ++ [w] = x :: xs := by cases ws <;> simp
    rw [List.cons_append, hx, trimEnd, ← hx]
    · cases h : isBlank v with
      | true => rw [if_pos (isBlank_iff.1 h), ih, List.dropWhile_cons_of_pos h]
      | false =>
        rw [if_neg (not_or.2 (isBlank_eq_false_iff.1 h)),
          List.dropWhile_cons_of_neg (by simp [h]), List.cons_append]
    · simp

def parts (p : Path) : List Bytes := p.pieces.tail.reverse

theorem slash_not_mem_parts : ∀ w ∈ p.parts, slash ∉ w := fun _ hw =>
  not_mem_of_mem_split (List.mem_of_mem_tail (List.mem_reverse.1 hw))

theorem slash_not_mem_tops (p : Path) : ∀ w ∈ (p.parts.dropWhile isBlank).tail, slash ∉ w := fun w hw =>
  slash_not_mem_parts w ((List.dropWhile_suffix _).subset (List.mem_of_mem_tail hw))

theorem pieces_of_isAbsolute (hp : p.isAbsolute = true) : p.pieces = [] :: p.parts.reverse := by
  obtain ⟨b⟩ := p
  cases b with
  | nil => simp [isAbsolute] at hp
  | cons x r =>
    obtain rfl : x = slash := by simpa [isAbsolute] using hp
    simp [parts, pieces, split]

theorem parent?_of_isAbsolute (hp : p.isAbsolute = true) : p.parent? =
    match p.parts.dropWhile isBlank with
    | [] => none
    | _ :: cs => some (back cs) := by
  rw [parent?, pieces_of_isAbsolute hp, List.reverse_cons, List.reverse_reverse, trimEnd_append]
  cases p.parts.dropWhile isBlank with
  | nil => rfl
  | cons c cs =>
    obtain ⟨x, xs, hx⟩ : ∃ x xs, cs ++ [([] : Bytes)] = x :: xs := by cases cs <;> simp
    have hglue : ∀ es : List Bytes, (if (es ++ [[]]).reverse = [[]] then Path.mk [slash]
        else ⟨glue (es ++ [[]]).reverse⟩) = ⟨slash :: glue es.reverse⟩ := by
      intro es
      cases es using List.reverseRecOn with
      | nil => rfl
      | append_singleton es e => simp [glue_cons_cons]
    rw [List.cons_append, hx]
    simp only [← hx, trimEnd_append, hglue, back]

theorem parts_back (hs : ∀ w ∈ c :: cs, slash ∉ w) (h : isBlank c = false) :
    (back (c :: cs)).parts = c :: cs := by
  rw [parts, pieces_back hs h, List.tail_cons, List.reverse_reverse]

theorem parent?_back_nil : (back []).parent? = none := by decide

theorem parent?_back (hs : ∀ w ∈ c :: cs, slash ∉ w) (h : isBlank c = false) :
    (back (c :: cs)).parent? = some (back cs) := by
  rw [parent?_of_isAbsolute rfl, parts_back hs h, List.dropWhile_cons_of_neg (by simp [h])]

/-! ### What is above -/

theorem above_iff_of_parent? (h : p.parent? = some r) : q.Above p ↔ q = r ∨ q.Above r := by
  constructor
  · rintro (hq | ⟨hr, hq⟩)
    · exact .inl (Option.some.inj (hq.symm.trans h))
    · exact .inr (Option.some.inj (hr.symm.trans h) ▸ hq)
  · rintro (rfl | hq)
    · exact .parent h
    · exact .above h hq

theorem not_above_of_parent? (h : p.parent? = none) : ¬q.Above p := by
  rintro (hq | ⟨hr, -⟩)
  · rw [h] at hq
    cases hq
  · rw [h] at hr
    cases hr

theorem eq_or_above_back (hs : ∀ w ∈ cs, slash ∉ w) :
    q = back cs ∨ q.Above (back cs) ↔ ∃ zs, zs <:+ cs ∧ q = back zs := by
  induction cs with
  | nil =>
    have hnone := not_above_of_parent? (q := q) parent?_back_nil
    simp [hnone]
  | cons c cs ih =>
    have ih := ih fun w hw => hs w (List.mem_cons_of_mem _ hw)
    simp only [List.suffix_cons_iff, or_and_right, exists_or, exists_eq_left, ← ih]
    cases h : isBlank c with
    | true => rw [back_blank h, or_self_left]
    | false => rw [above_iff_of_parent? (parent?_back hs h)]

theorem above_iff (hp : p.isAbsolute = true) : q.Above p ↔ p.parts.dropWhile isBlank ≠ [] ∧
    ∃ zs, zs <:+ (p.parts.dropWhile isBlank).tail ∧ q = back zs := by
  have hparent := parent?_of_isAbsolute hp
  have hs := slash_not_mem_tops p
  cases hcs : p.parts.dropWhile isBlank with
  | nil =>
    rw [hcs] at hparent
    simp [not_above_of_parent? hparent]
  | cons c cs =>
    rw [hcs] at hparent hs
    rw [List.tail_cons] at hs
    rw [above_iff_of_parent? hparent, eq_or_above_back hs]
    simp

def tops (p : Path) : List Path :=
  if p.parts.dropWhile isBlank = [] then [] else (p.parts.dropWhile isBlank).tail.tails.map back

theorem mem_tops (hp : p.isAbsolute = true) : q ∈ p.tops ↔ q.Above p := by
  rw [tops, above_iff hp]
  split
  · next h => simp [h]
  · next h => simp [h, eq_comm]

/-! ### The names that are spelled -/

theorem isName_spot (hs : ∀ w ∈ cs, slash ∉ w) : ∀ w ∈ spot cs, IsName w := by
  rw [← spells_back hs]
  exact isName_spells _

theorem spot_subset (cs : List Bytes) : spot cs ⊆ cs := by
  induction cs with
  | nil => simp
  | cons c cs ih =>
    rw [spot_cons, stack]
    split
    · exact List.Subset.trans ih (List.subset_cons_self c cs)
    split
    · exact List.Subset.trans (List.tail_suffix _).subset
        (List.Subset.trans ih (List.subset_cons_self c cs))
    · exact List.cons_subset_cons c ih

def span : List Bytes → Nat
  | [] => 0
  | w :: ws => w.length + 1 + span ws

theorem length_glue (hne : ws ≠ []) : (glue ws).length + 1 = span ws := by
  induction ws with
  | nil => exact absurd rfl hne
  | cons w ws ih =>
    by_cases hw : ws = []
    · subst hw
      simp [glue, span]
    · have ih := ih hw
      rw [glue_cons_cons w hw, span, List.length_append, List.length_cons]
      omega

theorem span_append (vs ws : List Bytes) : span (vs ++ ws) = span vs + span ws := by
  induction vs with
  | nil => simp [span]
  | cons v vs ih =>
    rw [List.cons_append, span, span, ih]
    omega

theorem span_reverse (ws : List Bytes) : span ws.reverse = span ws := by
  induction ws with
  | nil => rfl
  | cons w ws ih =>
    rw [List.reverse_cons, span_append, ih, span, span, span]
    omega

theorem span_spot (cs : List Bytes) : span (spot cs) ≤ span cs := by
  induction cs with
  | nil => simp
  | cons c cs ih =>
    rw [spot_cons, span, stack]
    split
    · omega
    split
    · cases hspot : spot cs with
      | nil => exact Nat.zero_le _
      | cons v vs =>
        rw [hspot, span] at ih
        rw [List.tail_cons]
        omega
    · rw [span]
      omega

/-- A place is not longer to write than the pieces that spell it. -/
theorem length_spot_le (h : isBlank c = false) :
    (ofNames true (spot (c :: cs))).bytes.length ≤ (back (c :: cs)).bytes.length := by
  have hback : (back (c :: cs)).bytes.length = span (c :: cs) := by
    rw [back_solid h, List.length_cons, length_glue (by simp), span_reverse]
  have hspan := span_spot (c :: cs)
  rw [hback]
  by_cases hnil : spot (c :: cs) = []
  · rw [hnil]
    exact Nat.succ_le_of_lt (Nat.add_pos_left (Nat.succ_pos _) _)
  · have hne : (spot (c :: cs)).reverse ≠ [] := by simpa using hnil
    have hlength := length_glue hne
    rw [span_reverse] at hlength
    simp only [ofNames, if_true, List.singleton_append, List.length_cons]
    omega

theorem mem_glue (hb : w ∈ ws) {b : UInt8} (h : b ∈ w) : b ∈ glue ws := by
  induction ws with
  | nil => cases hb
  | cons v ws ih =>
    cases ws with
    | nil => rw [List.mem_singleton.1 hb] at h; exact h
    | cons u us =>
      rw [glue_cons_cons v (List.cons_ne_nil u us), List.mem_append, List.mem_cons]
      rcases List.mem_cons.1 hb with rfl | hb
      · exact .inl h
      · exact .inr (.inr (ih hb))

theorem exists_of_mem_glue {b : UInt8} (h : b ∈ glue ws) : b = slash ∨ ∃ w ∈ ws, b ∈ w := by
  induction ws with
  | nil => cases h
  | cons v ws ih =>
    cases ws with
    | nil => exact .inr ⟨v, by simp, h⟩
    | cons u us =>
      rw [glue_cons_cons v (List.cons_ne_nil u us), List.mem_append, List.mem_cons] at h
      rcases h with h | h | h
      · exact .inr ⟨v, by simp, h⟩
      · exact .inl h
      · obtain h | ⟨w, hw, h⟩ := ih h
        · exact .inl h
        · exact .inr ⟨w, List.mem_cons_of_mem v hw, h⟩

theorem hasNul_spot (h : isBlank c = false) (hz : (back (c :: cs)).hasNul = false) :
    (ofNames true (spot (c :: cs))).hasNul = false := by
  have hslash : (0 : UInt8) ≠ slash := by decide
  rw [hasNul, Bool.eq_false_iff, ne_eq, List.contains_iff_mem] at hz ⊢
  rw [back_solid h, List.mem_cons, not_or] at hz
  simp only [ofNames, if_true, List.singleton_append, List.mem_cons, not_or]
  refine ⟨hslash, fun hc => hz.2 ?_⟩
  obtain hc | ⟨w, hw, hc⟩ := exists_of_mem_glue hc
  · exact absurd hc hslash
  · exact mem_glue (List.mem_reverse.2 (spot_subset _ (List.mem_reverse.1 hw))) hc

/-! ### Paths of names -/

/-- An absolute path that is spelled by names alone. -/
def IsNormal (p : Path) : Prop := ∃ names, (∀ w ∈ names, IsName w) ∧ p = ofNames true names

theorem IsNormal.isAbsolute {p : Path} (h : p.IsNormal) : p.isAbsolute = true := by
  obtain ⟨names, -, rfl⟩ := h
  rfl

theorem isNormal_normalize {root : Path} (hroot : root.isAbsolute = true) (p : Path) :
    (root.normalize p).IsNormal := ⟨spelled root p, isName_of_mem_spelled, normalize_eq hroot⟩

/-- What is above a path of names is spelled by fewer of them. -/
theorem Above.of_ofNames {p q : Path} {names : List Bytes} (h : q.Above p) (hp : p = ofNames true names)
    (hn : ∀ w ∈ names, IsName w) : ∃ j, j <:+ names ∧ j ≠ names ∧ q = ofNames true j := by
  induction h generalizing names with
  | parent h =>
    cases names with
    | nil =>
      rw [hp, parent?_ofNames_nil] at h
      cases h
    | cons w j =>
      rw [hp, parent?_ofNames_cons hn] at h
      exact ⟨j, List.suffix_cons w j, by simp, (Option.some.inj h).symm⟩
  | above h _ ih =>
    cases names with
    | nil =>
      rw [hp, parent?_ofNames_nil] at h
      cases h
    | cons w j =>
      rw [hp, parent?_ofNames_cons hn] at h
      obtain ⟨i, hi, hne, hq⟩ := ih (Option.some.inj h).symm fun v hv => hn v (List.mem_cons_of_mem _ hv)
      refine ⟨i, hi.trans (List.suffix_cons w j), fun hc => ?_, hq⟩
      rw [hc] at hi
      exact absurd hi.length_le (by simp)

end Retrace.Path
