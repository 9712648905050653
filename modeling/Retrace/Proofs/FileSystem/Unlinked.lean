import Retrace.Proofs.FileSystem.Reach

/-!
Paths without links, where not all that they spell need be there. What such a path leads to stands at
the place that it spells (`entryAt_unlinked`), and an operation that gets to its end shows that it ends
in a directory (`directory_of_approach`).
-/
namespace Retrace.FileSystem

open Retrace.Path (IsName dot ofNames)

variable {fs fs' : FileSystem} {manner : Manner} {n : Nat} {here d k l : Location} {w : Bytes}
  {xs ys : List Bytes} {e : Entry} {s : Bool} {r : Found} {follow : Bool} {kind : FileKind}

def Unlinked (fs : FileSystem) (l : Location) : Prop := ∀ k, k <:+ l → ∀ t, fs.at k ≠ some (.link t)

theorem Unlinked.above (h : Unlinked fs l) (hk : k <:+ l) : Unlinked fs k :=
  fun j hj => h j (hj.trans hk)

theorem unlinked_of_tails (h : ∀ k ∈ l.tails, (fs.at k).all (·.kind ≠ .link)) : Unlinked fs l := by
  intro k hk t ht
  have hall := h k ((List.mem_tails k l).2 hk)
  rw [ht] at hall
  simp [Entry.kind] at hall

theorem Unlinked.congr (h : Unlinked fs l) (hk : ∀ k, k <:+ l → fs'.at k = fs.at k) : Unlinked fs' l := by
  intro k hkl t
  rw [hk k hkl]
  exact h k hkl t

theorem walks_dots (hy : ∀ y ∈ ys, y = [dot]) (h : Walks fs manner n here ys (.entry k e s)) :
    k = here := by
  induction ys with
  | nil => cases h; rfl
  | cons y ys ih =>
    obtain rfl := hy _ List.mem_cons_self
    cases h with
    | stay ha h => exact ih (fun y hy' => hy y (List.mem_cons_of_mem _ hy')) h
    | down hw | file hw | link hw | follow hw => exact absurd rfl hw.ne_dot

/-- Names without links lead where they spell. -/
theorem Walks.unlinked (hn : ∀ x ∈ xs, IsName x) (hy : ∀ y ∈ ys, y = [dot])
    (hl : Unlinked fs (xs.reverse ++ here)) (h : Walks fs manner n here (xs ++ ys) (.entry k e s)) :
    k = xs.reverse ++ here := by
  induction xs generalizing here with
  | nil => exact walks_dots hy h
  | cons x xs ih =>
    obtain ⟨hx₁, hx₂, hx₃, -⟩ := hn x List.mem_cons_self
    have hspell : (x :: xs).reverse ++ here = xs.reverse ++ x :: here := by simp
    rw [hspell] at hl ⊢
    have hnot := hl (x :: here) (List.suffix_append _ _)
    have hrest : (xs ++ ys).all (· = []) = true → xs = [] := by
      intro hall
      cases xs with
      | nil => rfl
      | cons v vs =>
        have hv := List.all_eq_true.1 hall v (by simp)
        exact absurd (by simpa using hv) (hn v (by simp)).1
    rw [List.cons_append] at h
    generalize hxs : xs ++ ys = rest at h hrest
    cases h with
    | blank => exact absurd rfl hx₁
    | stay => exact absurd rfl hx₂
    | up => exact absurd rfl hx₃
    | down hw hx h =>
      subst hxs
      exact ih (fun v hv => hn v (List.mem_cons_of_mem _ hv)) hl h
    | file hw hx hlast => rw [hrest hlast]; rfl
    | link hw hx => exact absurd hx (hnot _)
    | follow hw hx => exact absurd hx (hnot _)

/-- What a path without links leads to is what stands at its place. -/
theorem entryAt_unlinked (hn : ∀ v ∈ l, IsName v) (hl : Unlinked fs l)
    (h : fs.entryAt follow (ofNames true l) = .ok (k, e)) : k = l ∧ fs.at l = some e := by
  obtain ⟨r, hfind, hr⟩ := exists_of_bind h
  have hne : (ofNames true l).bytes ≠ [] := Path.bytes_ne_nil_of_isAbsolute rfl
  cases r with
  | vacant => cases hr
  | entry k' e' s =>
    rw [Found.reached] at hr
    split at hr
    · cases hr
    obtain ⟨rfl, rfl⟩ := Prod.mk.inj (Except.ok.inj hr)
    rw [find, if_neg hne] at hfind
    split at hfind
    · cases hfind
    rw [start_of_isAbsolute rfl, pathPieces_of_tidy (Path.tidy_ofNames hn), Path.named_ofNames hn]
      at hfind
    have hwalks := walks_of_walk hfind
    rw [← List.append_nil l.reverse] at hwalks
    have hplace := Walks.unlinked (fun x hx => hn x (List.mem_reverse.1 hx)) (by simp)
      (by simpa using hl) hwalks
    rw [List.reverse_reverse, List.append_nil] at hplace
    subst hplace
    exact ⟨rfl, walk_entry hfind⟩

theorem status_unlinked (hn : ∀ v ∈ l, IsName v) (hl : Unlinked fs l)
    (h : fs.status (ofNames true l) = .ok kind) : ∃ e, fs.at l = some e ∧ e.kind = kind := by
  have h := eq_ok_of_named h
  cases he : fs.entryAt true (ofNames true l) with
  | error err => rw [he] at h; cases h
  | ok x =>
    obtain ⟨-, hx⟩ := entryAt_unlinked hn hl he
    rw [he] at h
    exact ⟨x.2, hx, Except.ok.inj h⟩

/-- A path without links that can be gone along ends in a directory. -/
theorem directory_of_approach (hs : fs.Sound) (hn : ∀ v ∈ w :: d, IsName v) (hl : Unlinked fs d)
    {a : Approach} (h : fs.approach (ofNames true (w :: d)) = .ok a) :
    ∃ m, fs.at d = some (.directory m) := by
  have hw := hn w List.mem_cons_self
  have hnd : ∀ v ∈ d, IsName v := fun v hv => hn v (List.mem_cons_of_mem _ hv)
  rw [← Path.ofNames_join d hnd hw] at h
  by_cases hfits : ((ofNames true d).join ⟨w⟩).bytes.length < longestPath
  · rw [approach_join_name rfl hw hfits, Path.named_ofNames hnd] at h
    cases hwalk : fs.walk ⟨true, true⟩ mostLinks [] (d.reverse ++ [[dot]]) with
    | error e => simp [hwalk] at h
    | ok r =>
      rw [hwalk] at h
      cases r with
      | vacant => cases h
      | entry k e s =>
        have hwalks := walks_of_walk hwalk
        have hplace := Walks.unlinked (fun x hx => hnd x (List.mem_reverse.1 hx)) (by simp)
          (by simpa using hl) hwalks
        rw [List.reverse_reverse, List.append_nil] at hplace
        subst hplace
        obtain ⟨he, hdir⟩ := hwalks.ends hs ⟨_, at_nil fs⟩
        have hdir := hdir (.inr (by simp))
        cases e with
        | directory m => exact ⟨m, he⟩
        | file | link => cases hdir
  · rw [approach, if_neg (Path.bytes_join_name_ne_nil _ hw), if_pos (Nat.not_lt.1 hfits)] at h
    cases h

end Retrace.FileSystem
