import Retrace.Proofs.FileSystem.Aim

/-!
Walks that get somewhere, as a relation with one rule for each kind of step (`walk_eq_ok_iff`). In a
sound tree such a walk goes through directories that are there, so it is the same in every tree that
has all of its entries (`Walks.congr`), and it ends at names (`Walks.names`).
-/
namespace Retrace.FileSystem

open Retrace.Path (IsName dot slash)

variable {fs fs' : FileSystem} {manner : Manner} {n : Nat} {here d l : Location} {w : Bytes}
  {xs rest : List Bytes} {e : Entry} {s : Bool} {r : Found}

structure Looked (fs : FileSystem) (here : Location) (w : Bytes) : Prop where
  ne_nil : w ≠ []
  ne_dot : w ≠ [dot]
  ne_up : w ≠ [dot, dot]
  admits : fs.admits here = true
  short : w.length ≤ longestName

/-- A walk with at most the given number of links on its way, and what it finds. -/
inductive Walks (fs : FileSystem) (manner : Manner) : Nat → Location → List Bytes → Found → Prop
  | arrive {n : Nat} {here : Location} {e : Entry} (hx : fs.at here = some e) :
    Walks fs manner n here [] (.entry here e false)
  | blank {n : Nat} {here : Location} {rest : List Bytes} {r : Found}
    (h : Walks fs manner n here rest r) : Walks fs manner n here ([] :: rest) r
  | stay {n : Nat} {here : Location} {rest : List Bytes} {r : Found}
    (ha : manner.dots = true → fs.admits here = true) (h : Walks fs manner n here rest r) :
    Walks fs manner n here ([dot] :: rest) r
  | up {n : Nat} {here : Location} {rest : List Bytes} {r : Found}
    (ha : manner.dots = true → fs.admits here = true)
    (h : Walks fs manner n (here.drop 1) rest r) : Walks fs manner n here ([dot, dot] :: rest) r
  | vacant {n : Nat} {here : Location} {w : Bytes} {rest : List Bytes} (hw : Looked fs here w)
    (hx : fs.at (w :: here) = none) (hlast : rest.all (· = []) = true) :
    Walks fs manner n here (w :: rest) (.vacant here w (rest ≠ []))
  | down {n : Nat} {here : Location} {w : Bytes} {rest : List Bytes} {m : Nat} {r : Found}
    (hw : Looked fs here w) (hx : fs.at (w :: here) = some (.directory m))
    (h : Walks fs manner n (w :: here) rest r) : Walks fs manner n here (w :: rest) r
  | file {n : Nat} {here : Location} {w : Bytes} {rest : List Bytes} {m : Nat} {c : Bytes}
    (hw : Looked fs here w) (hx : fs.at (w :: here) = some (.file m c))
    (hlast : rest.all (· = []) = true) :
    Walks fs manner n here (w :: rest) (.entry (w :: here) (.file m c) (rest ≠ []))
  | link {n : Nat} {here : Location} {w : Bytes} {t : Path} (hw : Looked fs here w)
    (hx : fs.at (w :: here) = some (.link t)) (hf : manner.follow = false) :
    Walks fs manner n here [w] (.entry (w :: here) (.link t) false)
  | follow {n : Nat} {here : Location} {w : Bytes} {rest : List Bytes} {t : Path} {r : Found}
    (hw : Looked fs here w) (hx : fs.at (w :: here) = some (.link t))
    (hf : ¬(rest = [] ∧ ¬manner.follow))
    (h : Walks fs manner n (start here t) (pathPieces t ++ rest) r) :
    Walks fs manner (n + 1) here (w :: rest) r

theorem walks_of_stroll {detour : Location → Path → List Bytes → Except Errno Found}
    (hd : ∀ {here w rest t}, Looked fs here w → fs.at (w :: here) = some (.link t) →
      ¬(rest = [] ∧ ¬manner.follow) → detour here t rest = .ok r →
      Walks fs manner n here (w :: rest) r)
    (h : stroll fs manner detour here xs = .ok r) : Walks fs manner n here xs r := by
  induction xs generalizing here with
  | nil =>
    rw [stroll, arrive] at h
    split at h
    · next e hx =>
      obtain rfl := Except.ok.inj h
      exact .arrive hx
    · cases h
  | cons w rest ih =>
    rw [stroll] at h
    by_cases hw₁ : w = []
    · rw [if_pos hw₁] at h
      subst hw₁
      exact .blank (ih h)
    rw [if_neg hw₁] at h
    by_cases ha : ((manner.dots || !isDots w) && !fs.admits here) = true
    · rw [if_pos ha] at h
      cases h
    rw [if_neg ha] at h
    by_cases hw₂ : w = [dot]
    · rw [if_pos hw₂] at h
      subst hw₂
      exact .stay (by simpa [isDots] using ha) (ih h)
    rw [if_neg hw₂] at h
    by_cases hw₃ : w = [dot, dot]
    · rw [if_pos hw₃] at h
      subst hw₃
      exact .up (by simpa [isDots] using ha) (ih h)
    rw [if_neg hw₃] at h
    by_cases hlong : longestName < w.length
    · rw [if_pos hlong] at h
      cases h
    rw [if_neg hlong] at h
    have hw : Looked fs here w :=
      ⟨hw₁, hw₂, hw₃, by simpa [isDots, hw₂, hw₃] using ha, Nat.not_lt.1 hlong⟩
    cases hx : fs.at (w :: here) with
    | none =>
      simp only [hx] at h
      split at h
      · next hlast =>
        obtain rfl := Except.ok.inj h
        exact .vacant hw hx hlast
      · cases h
    | some e =>
      cases e with
      | directory m =>
        simp only [hx] at h
        exact .down hw hx (ih h)
      | file m c =>
        simp only [hx] at h
        split at h
        · next hlast =>
          obtain rfl := Except.ok.inj h
          exact .file hw hx hlast
        · cases h
      | link t =>
        simp only [hx] at h
        split at h
        · next hlast =>
          obtain rfl := Except.ok.inj h
          rw [hlast.1]
          exact .link hw hx (by simpa using hlast.2)
        · next hf => exact hd hw hx hf h

theorem walks_of_walk (h : fs.walk manner n here xs = .ok r) : Walks fs manner n here xs r := by
  induction n generalizing here xs with
  | zero => exact walks_of_stroll (fun _ _ _ h => by cases h) h
  | succ n ih => exact walks_of_stroll (fun hw hx hf h => .follow hw hx hf (ih h)) h

theorem Looked.step {detour : Location → Path → List Bytes → Except Errno Found}
    (hw : Looked fs here w) :
    stroll fs manner detour here (w :: rest) =
      match fs.at (w :: here) with
      | none => if rest.all (· = []) then .ok (.vacant here w (rest ≠ [])) else .error .noEntry
      | some (.directory _) => stroll fs manner detour (w :: here) rest
      | some (.file m c) =>
        if rest.all (· = []) then .ok (.entry (w :: here) (.file m c) (rest ≠ []))
        else .error .notDirectory
      | some (.link t) =>
        if rest = [] ∧ ¬manner.follow then .ok (.entry (w :: here) (.link t) false)
        else detour here t rest :=
  (if_neg hw.ne_nil).trans <| (if_neg (by simp [hw.admits])).trans <| (if_neg hw.ne_dot).trans <|
    (if_neg hw.ne_up).trans <| if_neg (Nat.not_lt.2 hw.short)

theorem Walks.walk (h : Walks fs manner n here xs r) : fs.walk manner n here xs = .ok r := by
  induction h with
  | @arrive n here e hx =>
    obtain ⟨detour, hdetour⟩ := walk_eq_stroll fs manner n
    rw [hdetour, stroll, FileSystem.arrive, hx]
  | @blank n here rest r h ih =>
    obtain ⟨detour, hdetour⟩ := walk_eq_stroll fs manner n
    rw [hdetour] at ih ⊢
    rw [stroll, if_pos rfl, ih]
  | @stay n here rest r ha h ih =>
    obtain ⟨detour, hdetour⟩ := walk_eq_stroll fs manner n
    rw [hdetour] at ih ⊢
    rw [stroll, if_neg (by simp), if_neg (by simpa [isDots] using ha), if_pos rfl, ih]
  | @up n here rest r ha h ih =>
    obtain ⟨detour, hdetour⟩ := walk_eq_stroll fs manner n
    rw [hdetour] at ih ⊢
    rw [stroll, if_neg (by simp), if_neg (by simpa [isDots] using ha), if_neg (by simp), if_pos rfl, ih]
  | @vacant n here w rest hw hx hlast =>
    obtain ⟨detour, hdetour⟩ := walk_eq_stroll fs manner n
    rw [hdetour, hw.step, hx]
    exact if_pos hlast
  | @down n here w rest m r hw hx h ih =>
    obtain ⟨detour, hdetour⟩ := walk_eq_stroll fs manner n
    rw [hdetour] at ih ⊢
    rw [hw.step, hx]
    exact ih
  | @file n here w rest m c hw hx hlast =>
    obtain ⟨detour, hdetour⟩ := walk_eq_stroll fs manner n
    rw [hdetour, hw.step, hx]
    exact if_pos hlast
  | @link n here w t hw hx hf =>
    obtain ⟨detour, hdetour⟩ := walk_eq_stroll fs manner n
    rw [hdetour, hw.step, hx]
    exact if_pos ⟨rfl, by simp [hf]⟩
  | @follow n here w rest t r hw hx hf h ih =>
    rw [FileSystem.walk, hw.step, hx]
    exact (if_neg hf).trans ih

/-- The walks that get somewhere. -/
theorem walk_eq_ok_iff : fs.walk manner n here xs = .ok r ↔ Walks fs manner n here xs r :=
  ⟨walks_of_walk, Walks.walk⟩

/-! ### What is on the way -/

theorem Sound.drop (hs : fs.Sound) (hd : ∃ m, fs.at here = some (.directory m)) :
    ∃ m, fs.at (here.drop 1) = some (.directory m) := by
  cases here with
  | nil => exact hd
  | cons w here =>
    obtain ⟨m, hm⟩ := hd
    exact hs.parent hm

theorem directory_start {t : Path} (hd : ∃ m, fs.at here = some (.directory m)) :
    ∃ m, fs.at (start here t) = some (.directory m) := by
  rw [start]
  split
  · exact ⟨_, at_nil fs⟩
  · exact hd

/-- Where a walk ends: pieces that stop at a dot end at a directory, and a free name is free. -/
def Found.Ends (fs : FileSystem) (xs : List Bytes) : Found → Prop
  | .entry l e _ => fs.at l = some e ∧ (xs.getLast? = none ∨ xs.getLast? = some [dot] →
      e.isDirectory = true)
  | .vacant d w _ => (∃ m, fs.at d = some (.directory m)) ∧ fs.at (w :: d) = none ∧
      xs.getLast? ≠ some [dot]

theorem Found.Ends.cons {ys : List Bytes} (h : r.Ends fs ys)
    (hlast : xs.getLast? = none ∨ xs.getLast? = some [dot] →
      ys.getLast? = none ∨ ys.getLast? = some [dot])
    (hdot : xs.getLast? = some [dot] → ys ≠ []) : r.Ends fs xs := by
  cases r with
  | entry l e s => exact ⟨h.1, fun hx => h.2 (hlast hx)⟩
  | vacant d w s =>
    refine ⟨h.1, h.2.1, fun hx => ?_⟩
    rcases hlast (.inr hx) with hy | hy
    · exact hdot hx (List.getLast?_eq_none_iff.1 hy)
    · exact h.2.2 hy

theorem getLast?_of_all_nil (h : rest.all (· = []) = true) (hw : w ≠ [dot]) :
    (w :: rest).getLast? ≠ none ∧ (w :: rest).getLast? ≠ some [dot] := by
  refine ⟨by simp, fun hx => ?_⟩
  rcases List.mem_cons.1 (List.mem_of_getLast? hx) with hd | hd
  · exact hw hd.symm
  · have := List.all_eq_true.1 h _ hd
    simp at this

theorem Walks.ends (h : Walks fs manner n here xs r) (hs : fs.Sound)
    (hd : ∃ m, fs.at here = some (.directory m)) : r.Ends fs xs := by
  have hcons : ∀ {v : Bytes} {ys : List Bytes}, ys ≠ [] → (v :: ys).getLast? = ys.getLast? :=
    fun h => List.getLast?_cons_of_ne_nil h
  induction h with
  | arrive hx =>
    obtain ⟨m, hm⟩ := hd
    refine ⟨hx, fun _ => ?_⟩
    obtain rfl := Option.some.inj (hx.symm.trans hm)
    rfl
  | @blank n here rest r h ih =>
    by_cases hr : rest = []
    · exact (ih hd).cons (fun _ => .inl (by rw [hr]; rfl)) fun hx => by rw [hr] at hx; cases hx
    · exact (ih hd).cons (by rw [hcons hr]; exact id) fun _ => hr
  | @stay n here rest r ha h ih =>
    by_cases hr : rest = []
    · subst hr
      cases h with
      | arrive hx =>
        obtain ⟨m, hm⟩ := hd
        refine ⟨hx, fun _ => ?_⟩
        obtain rfl := Option.some.inj (hx.symm.trans hm)
        rfl
    · exact (ih hd).cons (by rw [hcons hr]; exact id) fun _ => hr
  | @up n here rest r ha h ih =>
    by_cases hr : rest = []
    · exact (ih (hs.drop hd)).cons (fun _ => .inl (by rw [hr]; rfl)) fun hx => by
        rw [hr] at hx; cases hx
    · exact (ih (hs.drop hd)).cons (by rw [hcons hr]; exact id) fun _ => hr
  | vacant hw hx hlast => exact ⟨hd, hx, (getLast?_of_all_nil hlast hw.ne_dot).2⟩
  | @down n here w rest m r hw hx h ih =>
    by_cases hr : rest = []
    · subst hr
      exact (ih ⟨m, hx⟩).cons (fun _ => .inl rfl) fun hl => absurd (by simpa using hl) hw.ne_dot
    · exact (ih ⟨m, hx⟩).cons (by rw [hcons hr]; exact id) fun _ => hr
  | file hw hx hlast =>
    obtain ⟨h₁, h₂⟩ := getLast?_of_all_nil hlast hw.ne_dot
    exact ⟨hx, fun h => h.elim (fun h => absurd h h₁) fun h => absurd h h₂⟩
  | link hw hx hf =>
    exact ⟨hx, fun h => by simp [hw.ne_dot] at h⟩
  | @follow n here w rest t r hw hx hf h ih =>
    have h' := ih (directory_start hd)
    by_cases hr : rest = []
    · subst hr
      cases r with
      | entry l e s => exact ⟨h'.1, fun h => by simp [hw.ne_dot] at h⟩
      | vacant d v s => exact ⟨h'.1, h'.2.1, fun h => by simp [hw.ne_dot] at h⟩
    · refine h'.cons (fun hl => ?_) fun _ => by simp [hr]
      rw [hcons hr] at hl
      rw [List.getLast?_append_of_ne_nil _ hr]
      exact hl

theorem walkWay_eq_strollWay (fs : FileSystem) (n : Nat) : ∃ way, fs.walkWay n = strollWay fs way := by
  cases n with
  | zero => exact ⟨_, rfl⟩
  | succ n => exact ⟨_, rfl⟩

theorem Looked.way (hw : Looked fs here w) {way : Location → Path → List Bytes → List Location} :
    strollWay fs way here (w :: rest) = here :: (w :: here) ::
      match fs.at (w :: here) with
      | some (.directory _) => strollWay fs way (w :: here) rest
      | some (.link t) => way here t rest
      | _ => [] :=
  congrArg (here :: ·) <| (if_neg (by simp [hw.ne_nil, hw.ne_dot])).trans (if_neg hw.ne_up)

/-- A walk to an entry looks at nothing but places where something stands, and at no file but the
entry. -/
theorem Walks.occupied (h : Walks fs manner n here xs r) (hs : fs.Sound) (hf : manner.follow = true)
    (hd : ∃ m, fs.at here = some (.directory m)) (hr : r = .entry l e s) :
    ∀ k ∈ fs.walkWay n here xs, ∃ x, fs.at k = some x ∧ (x.kind = .file → x = e) := by
  have hdirectory : ∀ {k : Location}, (∃ m, fs.at k = some (.directory m)) →
      ∃ x, fs.at k = some x ∧ (x.kind = .file → x = e) := fun ⟨m, hm⟩ => ⟨_, hm, nofun⟩
  induction h with
  | @arrive n here e hx =>
    obtain ⟨way, hway⟩ := walkWay_eq_strollWay fs n
    rw [hway]
    rintro k hk
    rw [List.mem_singleton.1 hk]
    exact hdirectory hd
  | @blank n here rest r h ih =>
    obtain ⟨way, hway⟩ := walkWay_eq_strollWay fs n
    have ih := ih hd hr
    rw [hway] at ih ⊢
    rintro k hk
    rcases List.mem_cons.1 hk with rfl | hk
    · exact hdirectory hd
    · exact ih k (by simpa using hk)
  | @stay n here rest r ha h ih =>
    obtain ⟨way, hway⟩ := walkWay_eq_strollWay fs n
    have ih := ih hd hr
    rw [hway] at ih ⊢
    rintro k hk
    rcases List.mem_cons.1 hk with rfl | hk
    · exact hdirectory hd
    · exact ih k (by simpa using hk)
  | @up n here rest r ha h ih =>
    obtain ⟨way, hway⟩ := walkWay_eq_strollWay fs n
    have ih := ih (hs.drop hd) hr
    rw [hway] at ih ⊢
    rintro k hk
    rcases List.mem_cons.1 hk with rfl | hk
    · exact hdirectory hd
    · exact ih k (by simpa using hk)
  | vacant hw hx hlast => cases hr
  | @down n here w rest m r hw hx h ih =>
    obtain ⟨way, hway⟩ := walkWay_eq_strollWay fs n
    have ih := ih ⟨m, hx⟩ hr
    rw [hway] at ih ⊢
    rw [hw.way, hx]
    rintro k hk
    rcases List.mem_cons.1 hk with rfl | hk
    · exact hdirectory hd
    rcases List.mem_cons.1 hk with rfl | hk
    · exact hdirectory ⟨m, hx⟩
    · exact ih k hk
  | @file n here w rest m c hw hx hlast =>
    obtain ⟨way, hway⟩ := walkWay_eq_strollWay fs n
    rw [hway, hw.way, hx]
    rintro k hk
    rcases List.mem_cons.1 hk with rfl | hk
    · exact hdirectory hd
    · rw [List.mem_singleton.1 hk]
      exact ⟨_, hx, fun _ => (Found.entry.inj hr).2.1⟩
  | link hw hx hf' => rw [hf] at hf'; cases hf'
  | @follow n here w rest t r hw hx hf' h ih =>
    have ih := ih (directory_start hd) hr
    rw [FileSystem.walkWay, hw.way, hx]
    rintro k hk
    rcases List.mem_cons.1 hk with rfl | hk
    · exact hdirectory hd
    rcases List.mem_cons.1 hk with rfl | hk
    · exact ⟨_, hx, nofun⟩
    · exact ih k hk

/-- A walk to an entry is the same where something has come to free places only. -/
theorem Walks.congr (h : Walks fs manner n here xs (.entry l e s)) (hs : fs.Sound)
    (hf : manner.follow = true) (hd : ∃ m, fs.at here = some (.directory m))
    (hfs : ∀ k ∈ fs.walkWay n here xs, (fs.at k).isSome → fs'.at k = fs.at k) :
    fs'.walk manner n here xs = .ok (.entry l e s) := by
  rw [walk_congr fun k hk => ?_]
  · exact h.walk
  · obtain ⟨x, hx, -⟩ := h.occupied hs hf hd rfl k hk
    exact hfs k hk (by rw [hx]; rfl)

theorem Walks.followed {dots : Bool} (h : Walks fs ⟨false, dots⟩ n here xs r)
    (hr : ∀ l t s, r ≠ .entry l (.link t) s) : Walks fs ⟨true, dots⟩ n here xs r := by
  induction h with
  | arrive hx => exact .arrive hx
  | blank _ ih => exact .blank (ih hr)
  | stay ha _ ih => exact .stay ha (ih hr)
  | up ha _ ih => exact .up ha (ih hr)
  | vacant hw hx hlast => exact .vacant hw hx hlast
  | down hw hx _ ih => exact .down hw hx (ih hr)
  | file hw hx hlast => exact .file hw hx hlast
  | link => exact absurd rfl (hr _ _ _)
  | follow hw hx _ _ ih => exact .follow hw hx (by simp) (ih hr)

theorem Walks.undotted {follow : Bool} (h : Walks fs ⟨follow, true⟩ n here xs r) :
    Walks fs ⟨follow, false⟩ n here xs r := by
  induction h with
  | arrive hx => exact .arrive hx
  | blank _ ih => exact .blank ih
  | stay _ _ ih => exact .stay nofun ih
  | up _ _ ih => exact .up nofun ih
  | vacant hw hx hlast => exact .vacant hw hx hlast
  | down hw hx _ ih => exact .down hw hx ih
  | file hw hx hlast => exact .file hw hx hlast
  | link hw hx hf => exact .link hw hx hf
  | follow hw hx hf _ ih => exact .follow hw hx hf ih

theorem Walks.not_link {t : Path} (h : Walks fs manner n here xs r) (hs : fs.Sound)
    (hf : manner.follow = true) (hd : ∃ m, fs.at here = some (.directory m)) :
    r ≠ .entry l (.link t) s := by
  induction h with
  | arrive hx =>
    rintro hr
    obtain ⟨m, hm⟩ := hd
    rw [hm, (Found.entry.inj hr).2.1] at hx
    cases hx
  | blank _ ih | stay _ _ ih => exact ih hd
  | up _ _ ih => exact ih (hs.drop hd)
  | vacant => exact nofun
  | down _ hx _ ih => exact ih ⟨_, hx⟩
  | file => exact nofun
  | link _ _ hf' => rw [hf] at hf'; cases hf'
  | follow _ _ _ _ ih => exact ih (directory_start hd)

/-! ### Names -/

theorem slash_not_mem_pathPieces {p : Path} {x : Bytes} (hx : x ∈ pathPieces p) : slash ∉ x := by
  have hnamed : ∀ x ∈ p.pieces.filter (· ≠ []), slash ∉ x := fun x hx =>
    Path.not_mem_of_mem_split (List.mem_filter.1 hx).1
  rw [pathPieces] at hx
  split at hx
  · rcases List.mem_append.1 hx with hx | hx
    · exact hnamed x hx
    · rw [List.mem_singleton.1 hx]; simp
  · exact hnamed x hx

def Found.location : Found → Location
  | .entry l _ _ => l
  | .vacant d w _ => w :: d

/-- A walk from a place that is spelled with names ends at one. -/
theorem Walks.names (h : Walks fs manner n here xs r) (hx : ∀ x ∈ xs, slash ∉ x)
    (hn : ∀ v ∈ here, IsName v) : ∀ v ∈ r.location, IsName v := by
  have hcons : ∀ {w : Bytes} {here rest}, Looked fs here w → (∀ x ∈ w :: rest, slash ∉ x) →
      (∀ v ∈ here, IsName v) → ∀ v ∈ w :: here, IsName v := by
    intro w here rest hw hx hn v hv
    rcases List.mem_cons.1 hv with rfl | hv
    · exact ⟨hw.ne_nil, hw.ne_dot, hw.ne_up, hx _ List.mem_cons_self⟩
    · exact hn v hv
  have htail : ∀ {w : Bytes} {rest : List Bytes}, (∀ x ∈ w :: rest, slash ∉ x) →
      ∀ x ∈ rest, slash ∉ x := fun h x hx => h x (List.mem_cons_of_mem _ hx)
  induction h with
  | arrive => exact hn
  | blank h ih | stay _ h ih => exact ih (htail hx) hn
  | up _ h ih => exact ih (htail hx) fun v hv => hn v (List.mem_of_mem_drop hv)
  | vacant hw | file hw | link hw => exact hcons hw hx hn
  | down hw _ h ih => exact ih (htail hx) (hcons hw hx hn)
  | @follow n here w rest t r hw _ _ h ih =>
    refine ih (fun x hx' => ?_) fun v hv => ?_
    · rcases List.mem_append.1 hx' with hx' | hx'
      · exact slash_not_mem_pathPieces hx'
      · exact htail hx x hx'
    · rw [start] at hv
      split at hv
      · cases hv
      · exact hn v hv

end Retrace.FileSystem
