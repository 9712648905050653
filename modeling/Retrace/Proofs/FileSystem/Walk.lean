import Retrace.Proofs.FileSystem.Tree
import Retrace.Proofs.Path

/-!
Walks along paths. A walk depends only on the places that it looks at (`walk_congr`), and its last
piece is looked up in the directory that the pieces before it lead to (`walk_last`).
-/
namespace Retrace.FileSystem

open Retrace.Path (IsName dot slash)

variable {fs fs' : FileSystem} {manner : Manner} {n : Nat} {here d l : Location}
  {w : Bytes} {xs : List Bytes} {e : Entry} {s follow : Bool}

/-! ### The places that a walk looks at -/

def strollWay (fs : FileSystem) (detour : Location → Path → List Bytes → List Location) :
    Location → List Bytes → List Location
  | here, [] => [here]
  | here, w :: rest =>
    here ::
      if w = [] ∨ w = [dot] then strollWay fs detour here rest
      else if w = [dot, dot] then strollWay fs detour (here.drop 1) rest
      else (w :: here) ::
        match fs.at (w :: here) with
        | some (.directory _) => strollWay fs detour (w :: here) rest
        | some (.link t) => detour here t rest
        | _ => []

def walkWay (fs : FileSystem) : Nat → Location → List Bytes → List Location
  | 0 => strollWay fs fun _ _ _ => []
  | links + 1 => strollWay fs fun here t rest =>
      walkWay fs links (start here t) (pathPieces t ++ rest)

theorem stroll_congr {detour detour' : Location → Path → List Bytes → Except Errno Found}
    {way : Location → Path → List Bytes → List Location}
    (hd : ∀ here t rest, (∀ k ∈ way here t rest, fs'.at k = fs.at k) →
      detour' here t rest = detour here t rest)
    (h : ∀ k ∈ strollWay fs way here xs, fs'.at k = fs.at k) :
    stroll fs' manner detour' here xs = stroll fs manner detour here xs := by
  induction xs generalizing here with
  | nil => simp [stroll, arrive, h here (by simp [strollWay])]
  | cons w rest ih =>
    simp only [strollWay, List.mem_cons, forall_eq_or_imp] at h
    obtain ⟨hh, h⟩ := h
    have hadmits : fs'.admits here = fs.admits here := by simp [admits, hh]
    simp only [stroll, hadmits]
    by_cases h₁ : w = []
    · simp only [h₁, true_or, if_true] at h ⊢
      exact ih h
    by_cases h₂ : w = [dot]
    · simp only [h₂, or_true, if_true] at h ⊢
      simp [ih h]
    by_cases h₃ : w = [dot, dot]
    · simp only [h₃, if_true] at h ⊢
      simp [ih (by simpa using h)]
    simp only [h₁, h₂, h₃, or_self, if_false, List.mem_cons, forall_eq_or_imp] at h ⊢
    obtain ⟨hw, h⟩ := h
    rw [hw]
    cases he : fs.at (w :: here) with
    | none => rfl
    | some e =>
      rw [he] at h
      cases e with
      | file m c => rfl
      | directory m => simp only [ih h]
      | link t => simp only [hd here t rest h]

/-- A walk depends only on the places that it looks at. -/
theorem walk_congr (h : ∀ k ∈ fs.walkWay n here xs, fs'.at k = fs.at k) :
    fs'.walk manner n here xs = fs.walk manner n here xs := by
  induction n generalizing here xs with
  | zero => exact stroll_congr (fun _ _ _ _ => rfl) h
  | succ n ih => exact stroll_congr (fun here t rest hk => ih hk) h

theorem strollWay_congr {way way' : Location → Path → List Bytes → List Location}
    (hd : ∀ here t rest, (∀ k ∈ way here t rest, fs'.at k = fs.at k) →
      way' here t rest = way here t rest)
    (h : ∀ k ∈ strollWay fs way here xs, fs'.at k = fs.at k) :
    strollWay fs' way' here xs = strollWay fs way here xs := by
  induction xs generalizing here with
  | nil => rfl
  | cons w rest ih =>
    simp only [strollWay, List.mem_cons, forall_eq_or_imp] at h ⊢
    obtain ⟨-, h⟩ := h
    congr 1
    split
    · next hw => simp only [hw, if_true] at h; exact ih h
    · next hw =>
      simp only [hw, if_false] at h
      split
      · next hu => simp only [hu, if_true] at h; exact ih h
      · next hu =>
        simp only [hu, if_false, List.mem_cons, forall_eq_or_imp] at h
        obtain ⟨he, h⟩ := h
        rw [he]
        congr 1
        split
        · next hx => simp only [hx] at h; exact ih h
        · next hx => simp only [hx] at h; exact hd _ _ _ h
        · rfl

theorem walkWay_congr (h : ∀ k ∈ fs.walkWay n here xs, fs'.at k = fs.at k) :
    fs'.walkWay n here xs = fs.walkWay n here xs := by
  induction n generalizing here xs with
  | zero => exact strollWay_congr (fun _ _ _ _ => rfl) h
  | succ n ih => exact strollWay_congr (fun here t rest hk => ih hk) h

/-! ### The last piece of a path -/

def foundAt (fs : FileSystem) (d : Location) (w : Bytes) : Found :=
  match fs.at (w :: d) with
  | none => .vacant d w false
  | some e => .entry (w :: d) e false

def lookUp (fs : FileSystem) (d : Location) (w : Bytes) : Except Errno Found :=
  if longestName < w.length then .error .nameTooLong else .ok (fs.foundAt d w)

theorem stroll_last {detour detour' : Location → Path → List Bytes → Except Errno Found}
    (hw : IsName w)
    (hleaf : follow = false ∨ longestName < w.length ∨ ∀ t, fs.at (w :: d) ≠ some (.link t))
    (hd : ∀ here t rest, detour here t (rest ++ [[dot]]) = .ok (.entry d e s) →
      detour' here t (rest ++ [w]) = fs.lookUp d w)
    (h : stroll fs ⟨true, true⟩ detour here (xs ++ [[dot]]) = .ok (.entry d e s)) :
    stroll fs ⟨follow, true⟩ detour' here (xs ++ [w]) = fs.lookUp d w := by
  obtain ⟨hw₁, hw₂, hw₃, -⟩ := hw
  induction xs generalizing here with
  | nil =>
    simp only [List.nil_append, stroll] at h ⊢
    by_cases ha : fs.admits here = true
    · simp only [ha, arrive, List.cons_ne_self, if_false, if_true, Bool.not_true,
        Bool.and_false, Bool.false_eq_true] at h
      have hdir : d = here := by
        cases hx : fs.at here with
        | none => simp [hx] at h
        | some x => simp [hx] at h; exact h.1.symm
      subst hdir
      simp only [hw₁, hw₂, hw₃, ha, if_false, Bool.not_true, Bool.and_false, Bool.false_eq_true,
        List.all_nil, if_true]
      unfold lookUp foundAt
      by_cases hlong : longestName < w.length
      · simp only [hlong, if_true]
      simp only [hlong, if_false]
      cases hx : fs.at (w :: d) with
      | none => rfl
      | some x =>
        cases x with
        | file m c => rfl
        | directory m => simp [arrive, hx]
        | link t =>
          rcases hleaf with rfl | hlong' | hleaf
          · simp
          · exact absurd hlong' hlong
          · exact absurd hx (hleaf t)
    · simp [ha] at h
  | cons x xs ih =>
    simp only [List.cons_append, stroll] at h ⊢
    by_cases hx₁ : x = []
    · simp only [hx₁, if_true] at h ⊢
      exact ih h
    by_cases ha : fs.admits here = true
    · have hlast : ∀ v : Bytes, v ≠ [] → (xs ++ [v]).all (· = []) = false := by
        intro v hv; simp [hv]
      simp only [hx₁, ha, if_false, Bool.not_true, Bool.and_false, Bool.false_eq_true] at h ⊢
      by_cases hx₂ : x = [dot]
      · simp only [hx₂, if_true] at h ⊢
        exact ih h
      by_cases hx₃ : x = [dot, dot]
      · simp only [hx₃, if_true] at h ⊢
        simp only [List.cons.injEq, reduceCtorEq, and_false, if_false] at h ⊢
        exact ih h
      simp only [hx₂, hx₃, if_false, hlast [dot] (by simp), hlast w hw₁] at h ⊢
      by_cases hlen : longestName < x.length
      · simp [hlen] at h
      simp only [hlen, if_false] at h ⊢
      cases hx : fs.at (x :: here) with
      | none => simp [hx] at h
      | some z =>
        cases z with
        | file m c => simp [hx] at h
        | directory m => simp only [hx] at h ⊢; exact ih h
        | link t =>
          simp only [hx, List.append_eq_nil_iff, List.cons_ne_self, and_false, false_and,
            if_false] at h ⊢
          exact hd here t xs h
    · simp [ha, hx₁] at h

/-- A name is looked up in the directory that the pieces before it lead to. -/
theorem walk_last (hw : IsName w)
    (hleaf : follow = false ∨ longestName < w.length ∨ ∀ t, fs.at (w :: d) ≠ some (.link t))
    (h : fs.walk ⟨true, true⟩ n here (xs ++ [[dot]]) = .ok (.entry d e s)) :
    fs.walk ⟨follow, true⟩ n here (xs ++ [w]) = fs.lookUp d w := by
  induction n generalizing here xs with
  | zero => exact stroll_last hw hleaf (by simp) h
  | succ n ih =>
    refine stroll_last hw hleaf (fun here t rest h => ?_) h
    rw [← List.append_assoc] at h ⊢
    exact ih h

theorem stroll_present {detour detour' : Location → Path → List Bytes → Except Errno Found}
    (hd : ∀ here t rest, detour here t (rest ++ [[dot]]) = .ok (.entry d e s) →
      ∃ k x, detour' here t rest = .ok (.entry k x false))
    (h : stroll fs ⟨true, true⟩ detour here (xs ++ [[dot]]) = .ok (.entry d e s)) :
    ∃ k x, stroll fs ⟨false, true⟩ detour' here xs = .ok (.entry k x false) := by
  induction xs generalizing here with
  | nil =>
    simp only [List.nil_append, stroll] at h ⊢
    by_cases ha : fs.admits here = true
    · simp only [ha, List.cons_ne_self, if_false, if_true, Bool.not_true,
        Bool.and_false, Bool.false_eq_true] at h
      unfold arrive at h ⊢
      cases hx : fs.at here with
      | none => simp [hx] at h
      | some x => exact ⟨here, x, rfl⟩
    · simp [ha] at h
  | cons x xs ih =>
    simp only [List.cons_append, stroll] at h ⊢
    by_cases hx₁ : x = []
    · simp only [hx₁, if_true] at h ⊢
      exact ih h
    by_cases ha : fs.admits here = true
    · have hlast : (xs ++ [[dot]]).all (· = []) = false := by simp
      simp only [hx₁, ha, if_false, Bool.not_true, Bool.and_false, Bool.false_eq_true] at h ⊢
      by_cases hx₂ : x = [dot]
      · simp only [hx₂, if_true] at h ⊢
        exact ih h
      by_cases hx₃ : x = [dot, dot]
      · simp only [hx₃, List.cons.injEq, reduceCtorEq, and_false, if_false,
          if_true] at h ⊢
        exact ih h
      simp only [hx₂, hx₃, if_false, hlast] at h ⊢
      by_cases hlen : longestName < x.length
      · simp [hlen] at h
      simp only [hlen, if_false] at h ⊢
      cases hx : fs.at (x :: here) with
      | none => simp [hx] at h
      | some z =>
        cases z with
        | file m c => simp [hx] at h
        | directory m => simp only [hx] at h ⊢; exact ih h
        | link t =>
          simp only [hx, List.append_eq_nil_iff, List.cons_ne_self, and_false, false_and,
            if_false] at h ⊢
          by_cases hr : xs = []
          · exact ⟨x :: here, .link t, by simp [hr]⟩
          · simpa [hr] using hd here t xs h
    · simp [ha, hx₁] at h

theorem walk_present (h : fs.walk ⟨true, true⟩ n here (xs ++ [[dot]]) = .ok (.entry d e s)) :
    ∃ k x, fs.walk ⟨false, true⟩ n here xs = .ok (.entry k x false) := by
  induction n generalizing here xs with
  | zero => exact stroll_present (by simp) h
  | succ n ih =>
    refine stroll_present (fun here t rest h => ?_) h
    rw [← List.append_assoc] at h
    exact ih h

theorem stroll_entry {detour : Location → Path → List Bytes → Except Errno Found}
    (hd : ∀ here t rest, detour here t rest = .ok (.entry l e s) → fs.at l = some e)
    (h : stroll fs manner detour here xs = .ok (.entry l e s)) : fs.at l = some e := by
  have harrive : ∀ k r, arrive fs k r = .ok (.entry l e s) → fs.at l = some e := by
    intro k r hk
    unfold arrive at hk
    cases hx : fs.at k with
    | none => simp [hx] at hk
    | some x =>
      simp only [hx, Except.ok.injEq, Found.entry.injEq] at hk
      obtain ⟨rfl, rfl, -⟩ := hk
      exact hx
  induction xs generalizing here with
  | nil => exact harrive _ _ h
  | cons x xs ih =>
    simp only [stroll] at h
    split at h
    · exact ih h
    split at h
    · cases h
    split at h
    · exact ih h
    split at h
    · exact ih h
    split at h
    · cases h
    split at h
    · split at h <;> cases h
    · exact ih h
    · next hx =>
      split at h
      · cases h; exact hx
      · cases h
    · next hx =>
      split at h
      · cases h; exact hx
      · exact hd _ _ _ h

theorem walk_entry (h : fs.walk manner n here xs = .ok (.entry l e s)) : fs.at l = some e := by
  induction n generalizing here xs with
  | zero => exact stroll_entry (by simp) h
  | succ n ih => exact stroll_entry (fun _ _ _ h => ih h) h

/-! ### Links at the end -/

theorem stroll_unfollowed {detour detour' : Location → Path → List Bytes → Except Errno Found}
    {dots : Bool} {r : Found} {x : Location × Entry}
    (hd : ∀ here t rest r x, detour here t rest = .ok r → r.reached = .ok x →
      ∃ r' x', detour' here t rest = .ok r' ∧ r'.reached = .ok x')
    (h : stroll fs ⟨true, dots⟩ detour here xs = .ok r) (hr : r.reached = .ok x) :
    ∃ r' x', stroll fs ⟨false, dots⟩ detour' here xs = .ok r' ∧ r'.reached = .ok x' := by
  induction xs generalizing here with
  | nil => exact ⟨r, x, h, hr⟩
  | cons v xs ih =>
    rw [stroll] at h ⊢
    by_cases hv : v = []
    · rw [if_pos hv] at h ⊢
      exact ih h
    rw [if_neg hv] at h ⊢
    by_cases ha : ((dots || !isDots v) && !fs.admits here) = true
    · simp [ha] at h
    rw [if_neg ha] at h ⊢
    by_cases hdot : v = [dot]
    · rw [if_pos hdot] at h ⊢
      exact ih h
    rw [if_neg hdot] at h ⊢
    by_cases hup : v = [dot, dot]
    · rw [if_pos hup] at h ⊢
      exact ih h
    rw [if_neg hup] at h ⊢
    by_cases hlong : longestName < v.length
    · simp [hlong] at h
    rw [if_neg hlong] at h ⊢
    cases he : fs.at (v :: here) with
    | none => exact ⟨r, x, by simpa [he] using h, hr⟩
    | some e =>
      cases e with
      | file m c => exact ⟨r, x, by simpa [he] using h, hr⟩
      | directory m =>
        simp only [he] at h
        exact ih h
      | link t =>
        simp only [he, not_true_eq_false, and_false, if_false] at h
        by_cases hlast : xs = []
        · exact ⟨.entry (v :: here) (.link t) false, (v :: here, .link t), by simp [hlast], rfl⟩
        · simp only [hlast, false_and, if_false]
          exact hd _ _ _ _ _ h hr

theorem walk_unfollowed {dots : Bool} {r : Found} {x : Location × Entry}
    (h : fs.walk ⟨true, dots⟩ n here xs = .ok r) (hr : r.reached = .ok x) :
    ∃ r' x', fs.walk ⟨false, dots⟩ n here xs = .ok r' ∧ r'.reached = .ok x' := by
  induction n generalizing here xs r x with
  | zero => exact stroll_unfollowed (fun _ _ _ _ _ h => by cases h) h hr
  | succ n ih => exact stroll_unfollowed (fun _ _ _ _ _ h hr => ih h hr) h hr

theorem entryAt_unfollowed {p : Path} {x : Location × Entry} (h : fs.entryAt true p = .ok x) :
    ∃ x', fs.entryAt false p = .ok x' := by
  rw [entryAt, find] at h ⊢
  by_cases hp : p.bytes = []
  · rw [if_pos hp] at h
    cases h
  by_cases hlong : longestPath ≤ p.bytes.length
  · rw [if_neg hp, if_pos hlong] at h
    cases h
  rw [if_neg hp, if_neg hlong] at h ⊢
  cases hw : fs.walk ⟨true, true⟩ mostLinks (start fs.workplace p) (pathPieces p) with
  | error e => rw [hw] at h; cases h
  | ok r =>
    rw [hw] at h
    obtain ⟨r', x', hw', hr'⟩ := walk_unfollowed hw h
    rw [hw']
    exact ⟨x', hr'⟩

end Retrace.FileSystem
