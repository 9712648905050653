import Mathlib.Data.List.Induction
import Mathlib.Logic.Relation
import Retrace.Proofs.Path

/-!
What a normalized path is. Three ways to find it agree: its pieces taken one by one on a stack of names
(`stack`), the path itself taken on piece by piece (`onward`), and its pieces crossed out against each
other in any order for as long as something can be crossed out (`Cancels`). So it is a lexical normal
form (`normalize_lexical`).
-/
namespace Retrace.Path

open Relation (ReflTransGen)

variable {p q root : Path} {w : Bytes} {ws vs names : List Bytes}

/-! ### A stack of names -/

/-- A piece taken on a stack: a name comes to the top, `..` takes the top off if there is one. -/
def stack (names : List Bytes) (w : Bytes) : List Bytes :=
  if w = [] ∨ w = [dot] then names
  else if w = [dot, dot] then names.tail
  else w :: names

theorem stack_name (hw : IsName w) : stack names w = w :: names := by
  rw [stack, if_neg (not_or.2 ⟨hw.1, hw.2.1⟩), if_neg hw.2.2.1]

theorem stack_blank (hw : w = [] ∨ w = [dot]) : stack names w = names := if_pos hw

theorem stack_up : stack names [dot, dot] = names.tail := by simp [stack]

theorem isName_or (hs : slash ∉ w) : (w = [] ∨ w = [dot]) ∨ w = [dot, dot] ∨ IsName w := by
  by_cases h₁ : w = [] ∨ w = [dot]
  · exact .inl h₁
  · by_cases h₂ : w = [dot, dot]
    · exact .inr (.inl h₂)
    · rw [not_or] at h₁
      exact .inr (.inr ⟨h₁.1, h₁.2, h₂, hs⟩)

theorem foldl_steps (ws : List Bytes) (names : List Bytes) :
    (ws.filterMap stepOf?).foldl walk names = ws.foldl stack names := by
  induction ws generalizing names with
  | nil => rfl
  | cons w ws ih =>
    rw [List.foldl_cons, ← ih, stack]
    by_cases h₁ : w = [] ∨ w = [dot]
    · rw [List.filterMap_cons_none (by rw [stepOf?, if_pos h₁]), if_pos h₁]
    · by_cases h₂ : w = [dot, dot]
      · rw [List.filterMap_cons_some (by rw [stepOf?, if_neg h₁, if_pos h₂]), if_neg h₁, if_pos h₂,
          List.foldl_cons, walk, List.drop_one]
      · rw [List.filterMap_cons_some (by rw [stepOf?, if_neg h₁, if_neg h₂]), if_neg h₁, if_neg h₂,
          List.foldl_cons, walk]

theorem spelled_eq_stack (root p : Path) : spelled root p = (root.join p).pieces.foldl stack [] :=
  foldl_steps _ _

theorem stack_ofNames (hn : ∀ w ∈ names, IsName w) :
    (ofNames true names).pieces.foldl stack [] = names := by
  have h := spelled_ofNames ⟨[]⟩ hn
  rwa [spelled_eq_stack, show Path.join ⟨[]⟩ (ofNames true names) = ofNames true names from rfl] at h

theorem foldl_stack_names (hn : ∀ w ∈ ws, IsName w) : ws.foldl stack names = ws.reverse ++ names := by
  induction ws generalizing names with
  | nil => rfl
  | cons w ws ih =>
    rw [List.foldl_cons, ih fun v hv => hn v (List.mem_cons_of_mem _ hv), stack_name (hn w List.mem_cons_self)]
    simp

theorem isName_foldl_stack (hs : ∀ w ∈ ws, slash ∉ w) (hn : ∀ w ∈ names, IsName w) :
    ∀ w ∈ ws.foldl stack names, IsName w := by
  rw [← foldl_steps]
  refine isName_foldl_walk (fun w hw => ?_) hn
  obtain ⟨v, hv, h⟩ := List.mem_filterMap.1 hw
  exact isName_of_stepOf? (hs v hv) h

/-! ### A path taken on -/

/-- A path taken on by a piece: a name is joined to it, `..` goes back to what is above it. -/
def onward (q : Path) (w : Bytes) : Path :=
  if w = [] ∨ w = [dot] then q
  else if w = [dot, dot] then q.parent?.getD q
  else q.join ⟨w⟩

theorem onward_ofNames (hs : slash ∉ w) (hn : ∀ v ∈ names, IsName v) :
    onward (ofNames true names) w = ofNames true (stack names w) := by
  rcases isName_or hs with hw | rfl | hw
  · rw [onward, if_pos hw, stack_blank hw]
  · rw [onward, if_neg (by decide), if_pos rfl, stack_up]
    cases names with
    | nil => rw [parent?_ofNames_nil]; rfl
    | cons v names => rw [parent?_ofNames_cons hn]; rfl
  · rw [onward, if_neg (not_or.2 ⟨hw.1, hw.2.1⟩), if_neg hw.2.2.1, stack_name hw, ofNames_join names hn hw]

theorem foldl_onward (hs : ∀ w ∈ ws, slash ∉ w) (hn : ∀ w ∈ names, IsName w) :
    ws.foldl onward (ofNames true names) = ofNames true (ws.foldl stack names) := by
  induction ws generalizing names with
  | nil => rfl
  | cons w ws ih =>
    have hw := hs w List.mem_cons_self
    rw [List.foldl_cons, List.foldl_cons, onward_ofNames hw hn]
    refine ih (fun v hv => hs v (List.mem_cons_of_mem _ hv)) ?_
    exact isName_foldl_stack (List.forall_mem_singleton.2 hw) hn

/-! ### Pieces crossed out -/

/-- Pieces are crossed out: one that leads nowhere, a name with the `..` after it, `..` at the root. -/
inductive Cancels : List Bytes → List Bytes → Prop
  | blank (before after : List Bytes) {w : Bytes} (h : w = [] ∨ w = [dot]) :
    Cancels (before ++ w :: after) (before ++ after)
  | back (before after : List Bytes) {w : Bytes} (h : IsName w) :
    Cancels (before ++ w :: [dot, dot] :: after) (before ++ after)
  | root (after : List Bytes) : Cancels ([dot, dot] :: after) after

theorem Cancels.stack_eq (h : Cancels ws vs) : vs.foldl stack [] = ws.foldl stack [] := by
  cases h with
  | blank before after hw => rw [List.foldl_append, List.foldl_append, List.foldl_cons, stack_blank hw]
  | back before after hw =>
    rw [List.foldl_append, List.foldl_append, List.foldl_cons, List.foldl_cons, stack_name hw, stack_up,
      List.tail_cons]
  | root after => rw [List.foldl_cons, stack_up, List.tail_nil]

theorem Cancels.subset (h : Cancels ws vs) : vs ⊆ ws := by
  cases h with
  | blank before after _ => simp
  | back before after _ => exact fun v hv => by simp only [List.mem_append, List.mem_cons] at hv ⊢; tauto
  | root after => exact List.subset_cons_self _ _

theorem Cancels.append (h : Cancels ws vs) (us : List Bytes) : Cancels (ws ++ us) (vs ++ us) := by
  cases h with
  | blank before after hw =>
    rw [List.append_assoc, List.append_assoc, List.cons_append]
    exact .blank _ _ hw
  | back before after hw =>
    rw [List.append_assoc, List.append_assoc, List.cons_append, List.cons_append]
    exact .back _ _ hw
  | root after => exact .root _

theorem stack_eq_of_cancels (h : ReflTransGen Cancels ws vs) :
    vs.foldl stack [] = ws.foldl stack [] ∧ vs ⊆ ws := by
  induction h with
  | refl => exact ⟨rfl, List.Subset.refl _⟩
  | tail _ h ih => exact ⟨h.stack_eq.trans ih.1, List.Subset.trans h.subset ih.2⟩

/-- Everything but the names that are on the stack in the end can be crossed out. -/
theorem cancels_to_stack (hs : ∀ w ∈ ws, slash ∉ w) (hn : ∀ w ∈ names, IsName w) :
    ReflTransGen Cancels (names.reverse ++ ws) (ws.foldl stack names).reverse := by
  induction ws generalizing names with
  | nil => rw [List.append_nil]; exact .refl
  | cons w ws ih =>
    have hws : ∀ v ∈ ws, slash ∉ v := fun v hv => hs v (List.mem_cons_of_mem _ hv)
    have hw := hs w List.mem_cons_self
    rw [List.foldl_cons]
    rcases isName_or hw with hw | rfl | hw
    · rw [stack_blank hw]
      exact .head (.blank _ _ hw) (ih hws hn)
    · rw [stack_up]
      cases names with
      | nil => exact .head (.root _) (ih hws hn)
      | cons v names =>
        rw [List.reverse_cons, List.append_assoc]
        exact .head (.back _ _ (hn v List.mem_cons_self)) (ih hws fun u hu => hn u (List.mem_cons_of_mem _ hu))
    · rw [stack_name hw, List.append_cons, ← List.reverse_cons]
      refine ih hws fun v hv => ?_
      rcases List.mem_cons.1 hv with rfl | hv
      · exact hw
      · exact hn v hv

theorem isName_of_not_cancels (hs : ∀ w ∈ ws, slash ∉ w) (h : ∀ vs, ¬Cancels ws vs) :
    ∀ w ∈ ws, IsName w := by
  induction ws using List.reverseRecOn with
  | nil => exact fun w hw => nomatch hw
  | append_singleton us u ih =>
    -- what could be crossed out before the last piece could be with it
    have hus : ∀ v ∈ us, IsName v := by
      refine ih (fun v hv => hs v (List.mem_append_left _ hv)) fun vs hc => ?_
      exact h _ (hc.append [u])
    intro w hw
    rcases List.mem_append.1 hw with hw | hw
    · exact hus w hw
    · obtain rfl := List.mem_singleton.1 hw
      rcases isName_or (hs w (by simp)) with hblank | rfl | hname
      · exact absurd (.blank us [] hblank) (h _)
      · cases us using List.reverseRecOn with
        | nil => exact absurd (.root []) (h _)
        | append_singleton us v =>
          rw [List.append_assoc] at h
          exact absurd (.back us [] (hus v (by simp))) (h _)
      · exact hname

theorem not_cancels_of_isName (hn : ∀ w ∈ ws, IsName w) : ¬Cancels ws vs := by
  intro h
  cases h with
  | blank before after hw =>
    have hname := hn _ (List.mem_append_right _ List.mem_cons_self)
    exact hw.elim hname.1 hname.2.1
  | back before after hw => exact (hn [dot, dot] (by simp)).2.2.1 rfl
  | root after => exact (hn [dot, dot] List.mem_cons_self).2.2.1 rfl

theorem ofNames_injective (hn : ∀ w ∈ names, IsName w) (hws : ∀ w ∈ ws, IsName w)
    (h : ofNames true names = ofNames true ws) : names = ws := by
  have hnamed := named_ofNames hn
  rw [h, named_ofNames hws] at hnamed
  exact (List.reverse_injective hnamed).symm

/-! ### Joined paths -/

theorem isAbsolute_join_relative (hp : p.isAbsolute = false) (hq : q.isAbsolute = false) :
    (p.join q).isAbsolute = false := by
  obtain ⟨b⟩ := p
  rw [join, if_neg (by simp [hq])]
  cases b with
  | nil => simpa using hq
  | cons x r => split <;> simpa [isAbsolute] using hp

theorem foldl_stack_join (hq : q.isAbsolute = false) (names : List Bytes) :
    (p.join q).pieces.foldl stack names = q.pieces.foldl stack (p.pieces.foldl stack names) := by
  rw [join, if_neg (by simp [hq])]
  split
  · next h =>
    rcases h with h | h
    · have hpieces : p.pieces = [[]] := by rw [pieces, h]; rfl
      rw [hpieces, h, List.nil_append, List.foldl_cons, List.foldl_nil, stack_blank (.inl rfl)]
    · -- the slash at the end leaves an empty piece, which the joined path does not have
      obtain ⟨a, ha⟩ := List.getLast?_eq_some_iff.1 h
      have hpieces : p.pieces = split a ++ [[]] := by rw [pieces, ha, split_append_slash]; rfl
      have hjoin : (Path.mk (p.bytes ++ q.bytes)).pieces = split a ++ q.pieces := by
        rw [pieces, ha, List.append_assoc, List.singleton_append, split_append_slash]
        rfl
      rw [hpieces, hjoin, List.foldl_append, List.foldl_append, List.foldl_cons, List.foldl_nil,
        stack_blank (.inl rfl)]
  · have hjoin : (Path.mk (p.bytes ++ slash :: q.bytes)).pieces = p.pieces ++ q.pieces :=
      split_append_slash _ _
    rw [hjoin, List.foldl_append]

theorem spelled_join (root p : Path) (hq : q.isAbsolute = false) :
    spelled root (p.join q) = q.pieces.foldl stack (spelled root p) := by
  rw [spelled_eq_stack, spelled_eq_stack]
  cases hp : p.isAbsolute with
  | true =>
    rw [show root.join p = p from if_pos hp, show root.join (p.join q) = p.join q from
      if_pos (isAbsolute_join hp), foldl_stack_join hq]
  | false =>
    rw [foldl_stack_join (isAbsolute_join_relative hp hq), foldl_stack_join hq, foldl_stack_join hp]

/-! ### The normal form -/

theorem cancels_iff (hroot : root.isAbsolute = true) (p : Path) (ws : List Bytes) :
    (ReflTransGen Cancels (root.join p).pieces ws ∧ ∀ vs, ¬Cancels ws vs) ↔
      (∀ w ∈ ws, IsName w) ∧ root.normalize p = ofNames true ws.reverse := by
  have hslash : ∀ w ∈ (root.join p).pieces, slash ∉ w := fun w hw => not_mem_of_mem_split hw
  have hnames : ∀ w ∈ spelled root p, IsName w := isName_of_mem_spelled
  constructor
  · rintro ⟨hsteps, hend⟩
    obtain ⟨hstack, hsub⟩ := stack_eq_of_cancels hsteps
    have hws := isName_of_not_cancels (fun w hw => hslash w (hsub hw)) hend
    rw [foldl_stack_names hws, List.append_nil] at hstack
    exact ⟨hws, by rw [normalize_eq hroot, spelled_eq_stack, hstack]⟩
  · rintro ⟨hws, heq⟩
    rw [normalize_eq hroot] at heq
    obtain rfl : ws = (spelled root p).reverse := by
      rw [ofNames_injective hnames (fun w hw => hws w (List.mem_reverse.1 hw)) heq, List.reverse_reverse]
    refine ⟨?_, fun vs => not_cancels_of_isName hws⟩
    rw [spelled_eq_stack]
    exact cancels_to_stack hslash (List.forall_mem_nil IsName)

/-- A normalized path is absolute, and but for the root it is made of names with single slashes before
them. It is what the pieces leave on a stack and what a path is when it is taken on by each piece, and
its names are what is left of the pieces in whatever order they are crossed out. It stays as it is from
everywhere, an absolute path has the same one from everywhere, and that of a joined path is found from
that of the path before. -/
theorem normalize_lexical (hroot : root.isAbsolute = true) (p : Path) :
    ((root.normalize p).isAbsolute = true ∧ (root.normalize p ≠ ⟨[slash]⟩ →
      (∀ w ∈ (root.normalize p).pieces.tail, IsName w) ∧
        (root.normalize p).bytes.getLast? ≠ some slash)) ∧
    root.normalize p = ofNames true ((root.join p).pieces.foldl stack []) ∧
    root.normalize p = (root.join p).pieces.foldl onward ⟨[slash]⟩ ∧
    (∀ ws, (ReflTransGen Cancels (root.join p).pieces ws ∧ ∀ vs, ¬Cancels ws vs) ↔
      (∀ w ∈ ws, IsName w) ∧ root.normalize p = ofNames true ws.reverse) ∧
    (∀ here : Path, here.normalize (root.normalize p) = root.normalize p) ∧
    (p.isAbsolute = true → ∀ here : Path, here.normalize p = root.normalize p) ∧
    ∀ q : Path, q.isAbsolute = false → root.normalize (p.join q) = (root.normalize p).normalize q := by
  have hnames : ∀ w ∈ spelled root p, IsName w := isName_of_mem_spelled
  have hnormal := normalize_eq (p := p) hroot
  refine ⟨⟨isAbsolute_normalize hroot, fun hne => ?_⟩, ?_, ?_, cancels_iff hroot p, fun here => ?_,
    fun hp here => ?_, fun q hq => ?_⟩
  · have hspelled : spelled root p ≠ [] := fun hc => hne (by rw [hnormal, hc]; rfl)
    rw [hnormal, pieces_ofNames hnames hspelled, List.tail_cons]
    exact ⟨fun w hw => hnames w (List.mem_reverse.1 hw), getLast?_ofNames hnames hspelled⟩
  · rw [hnormal, spelled_eq_stack]
  · rw [hnormal, spelled_eq_stack]
    exact (foldl_onward (fun w hw => not_mem_of_mem_split hw) (List.forall_mem_nil IsName)).symm
  · rw [hnormal]
    exact normalize_ofNames here hnames
  · rw [normalize, normalize, show here.join p = p from if_pos hp, show root.join p = p from if_pos hp]
  · have habs : (root.normalize p).isAbsolute = true := isAbsolute_normalize hroot
    rw [normalize_eq hroot, normalize_eq habs, spelled_join root p hq, hnormal, spelled_eq_stack (ofNames _ _),
      foldl_stack_join hq, stack_ofNames hnames]

theorem normalize_lexical_of_climbing :
    let root := ofString "/p"
    let p := ofString "../../a/./b//../c/"
    root.isAbsolute = true ∧ root.normalize p = ofString "/a/c" ∧
      (∀ w ∈ (ofString "/a/c").pieces.tail, IsName w) ∧
      (∀ here : Path, here.normalize (ofString "/a/c") = ofString "/a/c") ∧
      ∀ q : Path, q.isAbsolute = false → root.normalize (p.join q) = (ofString "/a/c").normalize q := by
  have hroot : (ofString "/p").isAbsolute = true := by decide +kernel
  have hvalue : (ofString "/p").normalize (ofString "../../a/./b//../c/") = ofString "/a/c" := by
    decide +kernel
  obtain ⟨⟨-, hnames⟩, -, -, -, hstays, -, hjoined⟩ := normalize_lexical hroot (ofString "../../a/./b//../c/")
  rw [hvalue] at hnames hstays hjoined
  exact ⟨hroot, hvalue, (hnames (by decide +kernel)).1, hstays, hjoined⟩

end Retrace.Path
