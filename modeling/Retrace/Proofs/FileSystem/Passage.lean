import Retrace.Proofs.FileSystem.Growth

/-!
What a path passes. `passage` follows a path like a walk, but goes on through names where nothing
stands as if they were directories, so making a directory on the way does not change it; each place is
marked by whether a piece of the path itself leads to it or a piece of a link on the way. Two trees
that are equal at all that is passed, but for places where the first still lacks a directory, are
walked alike up to the first of those (`walk_alike`).
-/
namespace Retrace.FileSystem

open Retrace.Path (IsName dot)

abbrev Piece := Bytes × Bool

def strollPassage (fs : FileSystem)
    (detour : Location → Path → List Piece → List (Location × Bool)) :
    Location → List Piece → List (Location × Bool)
  | _, [] => []
  | here, (w, direct) :: rest =>
    if w = [] ∨ w = [dot] then strollPassage fs detour here rest
    else if w = [dot, dot] then strollPassage fs detour (here.drop 1) rest
    else (w :: here, direct) ::
      match fs.at (w :: here) with
      | some (.file ..) => []
      | some (.link t) => detour here t rest
      | _ => strollPassage fs detour (w :: here) rest

def walkPassage (fs : FileSystem) : Nat → Location → List Piece → List (Location × Bool)
  | 0 => strollPassage fs fun _ _ _ => []
  | links + 1 => strollPassage fs fun here t rest =>
      walkPassage fs links (start here t) ((pathPieces t).map (·, false) ++ rest)

/-- The places that a path passes, the last one and those of a link there included. -/
def passage (fs : FileSystem) (p : Path) : List (Location × Bool) :=
  fs.walkPassage mostLinks (start fs.workplace p) ((pathPieces p).map (·, true))

def strollEnd (fs : FileSystem) (follow : Bool)
    (detour : Location → Path → List Bytes → Option Location) :
    Location → List Bytes → Option Location
  | here, [] => some here
  | here, w :: rest =>
    if w = [] ∨ w = [dot] then strollEnd fs follow detour here rest
    else if w = [dot, dot] then strollEnd fs follow detour (here.drop 1) rest
    else match fs.at (w :: here) with
      | some (.file ..) => if rest.all (· = []) then some (w :: here) else none
      | some (.link t) =>
        if rest = [] ∧ ¬follow then some (w :: here) else detour here t rest
      | _ => strollEnd fs follow detour (w :: here) rest

def walkEnd (fs : FileSystem) (follow : Bool) : Nat → Location → List Bytes → Option Location
  | 0 => strollEnd fs follow fun _ _ _ => none
  | links + 1 => strollEnd fs follow fun here t rest =>
      walkEnd fs follow links (start here t) (pathPieces t ++ rest)

def ending? (fs : FileSystem) (follow : Bool) (p : Path) : Option Location :=
  fs.walkEnd follow mostLinks (start fs.workplace p) (pathPieces p)

variable {fs fs' : FileSystem} {manner : Manner} {n : Nat} {here d l k : Location} {w : Bytes}
  {xs rest : List Bytes} {ps qs : List Piece} {direct follow dots : Bool} {e : Entry} {p : Path}

/-! ### One step -/

def IsLookedUp (w : Bytes) : Prop := w ≠ [] ∧ w ≠ [dot] ∧ w ≠ [dot, dot]

theorem isLookedUp_of_isName (h : IsName w) : IsLookedUp w := ⟨h.1, h.2.1, h.2.2.1⟩

theorem walk_blank : fs.walk manner n here ([] :: rest) = fs.walk manner n here rest := by
  cases n <;> simp only [walk, stroll, if_true]

theorem walk_stay : fs.walk manner n here ([dot] :: rest) =
    if manner.dots && !fs.admits here then .error .denied else fs.walk manner n here rest := by
  cases n <;> simp [walk, stroll, isDots]

theorem walk_up : fs.walk manner n here ([dot, dot] :: rest) =
    if manner.dots && !fs.admits here then .error .denied
    else fs.walk manner n (here.drop 1) rest := by
  cases n <;> simp [walk, stroll, isDots]

theorem walk_name (hw : IsLookedUp w) : fs.walk manner n here (w :: rest) =
    if !fs.admits here then .error .denied
    else if longestName < w.length then .error .nameTooLong
    else match fs.at (w :: here) with
      | none => if rest.all (· = []) then .ok (.vacant here w (rest ≠ [])) else .error .noEntry
      | some (.directory _) => fs.walk manner n (w :: here) rest
      | some (.file m c) =>
        if rest.all (· = []) then .ok (.entry (w :: here) (.file m c) (rest ≠ []))
        else .error .notDirectory
      | some (.link t) =>
        if rest = [] ∧ ¬manner.follow then .ok (.entry (w :: here) (.link t) false)
        else match n with
          | 0 => .error .tooManyLinks
          | n + 1 => fs.walk manner n (start here t) (pathPieces t ++ rest) := by
  obtain ⟨h₁, h₂, h₃⟩ := hw
  cases n <;> simp only [walk, stroll, h₁, h₂, h₃, isDots, if_false, decide_false, Bool.or_false,
    Bool.not_false, Bool.or_true, Bool.true_and] <;> rfl

theorem walkPassage_blank (hw : w = [] ∨ w = [dot]) :
    fs.walkPassage n here ((w, direct) :: ps) = fs.walkPassage n here ps := by
  cases n <;> simp only [walkPassage, strollPassage, hw, if_true]

theorem walkPassage_up : fs.walkPassage n here (([dot, dot], direct) :: ps) =
    fs.walkPassage n (here.drop 1) ps := by
  cases n <;> simp [walkPassage, strollPassage]

theorem walkPassage_name (hw : IsLookedUp w) : fs.walkPassage n here ((w, direct) :: ps) =
    (w :: here, direct) :: match fs.at (w :: here) with
      | some (.file ..) => []
      | some (.link t) => match n with
        | 0 => []
        | n + 1 => fs.walkPassage n (start here t) ((pathPieces t).map (·, false) ++ ps)
      | _ => fs.walkPassage n (w :: here) ps := by
  obtain ⟨h₁, h₂, h₃⟩ := hw
  cases n <;> simp only [walkPassage, strollPassage, h₁, h₂, h₃, or_self, if_false]

theorem walkEnd_blank (hw : w = [] ∨ w = [dot]) :
    fs.walkEnd follow n here (w :: rest) = fs.walkEnd follow n here rest := by
  cases n <;> simp only [walkEnd, strollEnd, hw, if_true]

theorem walkEnd_up : fs.walkEnd follow n here ([dot, dot] :: rest) =
    fs.walkEnd follow n (here.drop 1) rest := by
  cases n <;> simp [walkEnd, strollEnd]

theorem walkEnd_name (hw : IsLookedUp w) : fs.walkEnd follow n here (w :: rest) =
    match fs.at (w :: here) with
      | some (.file ..) => if rest.all (· = []) then some (w :: here) else none
      | some (.link t) =>
        if rest = [] ∧ ¬follow then some (w :: here)
        else match n with
          | 0 => none
          | n + 1 => fs.walkEnd follow n (start here t) (pathPieces t ++ rest)
      | _ => fs.walkEnd follow n (w :: here) rest := by
  obtain ⟨h₁, h₂, h₃⟩ := hw
  cases n <;> simp only [walkEnd, strollEnd, h₁, h₂, h₃, or_self, if_false]

/-! ### Two trees -/

/-- What the first tree has at a place that is passed the second has too; what it lacks on the path
itself the second may have. -/
def Lags (fs fs' : FileSystem) (x : Location × Bool) : Prop :=
  fs'.at x.1 = fs.at x.1 ∨ x.2 = true ∧ fs.at x.1 = none

def Level (fs fs' : FileSystem) (here : Location) : Prop :=
  ∀ j, j <:+ here → fs'.at j = fs.at j ∧ ∃ m, fs.at j = some (.directory m)

theorem Level.at_self (h : Level fs fs' here) : fs'.at here = fs.at here := (h here List.suffix_rfl).1

theorem Level.admits (h : Level fs fs' here) : fs'.admits here = fs.admits here := by
  simp only [FileSystem.admits, h.at_self]

theorem Level.drop (h : Level fs fs' here) : Level fs fs' (here.drop 1) := fun j hj =>
  h j (hj.trans (List.drop_suffix 1 here))

theorem Level.start (h : Level fs fs' here) (t : Path) : Level fs fs' (start here t) := by
  rw [FileSystem.start]
  split
  · exact fun j hj => h j (List.suffix_nil.1 hj ▸ List.nil_suffix)
  · exact h

theorem Level.down {m : Nat} (h : Level fs fs' here) (hx : fs.at (w :: here) = some (.directory m))
    (hx' : fs'.at (w :: here) = fs.at (w :: here)) : Level fs fs' (w :: here) := by
  intro j hj
  rcases List.suffix_cons_iff.1 hj with rfl | hj
  · exact ⟨hx', m, hx⟩
  · exact h j hj

def GoesOn (zs : List Bytes) : Prop := ¬zs.all (· = []) = true

theorem GoesOn.append {zs : List Bytes} (h : GoesOn zs) (ys : List Bytes) : GoesOn (ys ++ zs) := by
  simp only [GoesOn, List.all_append, Bool.and_eq_true, not_and] at h ⊢
  exact fun _ => h

def LeadsOn (fs : FileSystem) (dots : Bool) (n : Nat) (here : Location) (xs : List Bytes)
    (n' : Nat) (d : Location) : Prop :=
  ∀ follow zs, GoesOn zs → fs.walk ⟨follow, dots⟩ n here (xs ++ zs) = fs.walk ⟨follow, dots⟩ n' d zs

/-- A way fails before its end. -/
def Fails (fs : FileSystem) (dots : Bool) (n : Nat) (here : Location) (xs : List Bytes)
    (err : Errno) : Prop :=
  ∀ follow zs, GoesOn zs → fs.walk ⟨follow, dots⟩ n here (xs ++ zs) = .error err

/-- A way that leads both trees alike to a directory. -/
structure Reaches (fs fs' : FileSystem) (dots : Bool) (n : Nat) (here : Location) (ps : List Piece)
    (n' : Nat) (d : Location) : Prop where
  level : Level fs fs' d
  goes : LeadsOn fs dots n here (ps.map (·.1)) n' d
  goes' : LeadsOn fs' dots n here (ps.map (·.1)) n' d
  passes : ∀ us, ∀ x ∈ fs.walkPassage n' d us, x ∈ fs.walkPassage n here (ps ++ us)
  present : ∀ x ∈ fs.walkPassage n here ps, fs.at x.1 ≠ none
  ends : ∀ follow zs, zs ≠ [] →
    fs.walkEnd follow n here (ps.map (·.1) ++ zs) = fs.walkEnd follow n' d zs

theorem names_pieces (xs : List Bytes) (direct : Bool) : (xs.map (·, direct) : List Piece).map (·.1) = xs := by
  simp [Function.comp_def]

section

variable {n' : Nat} {zs : List Bytes} (h : Reaches fs fs' dots n here (xs.map (·, true)) n' d)
include h

theorem Reaches.leads : LeadsOn fs dots n here xs n' d := by
  have hgoes := h.goes
  rwa [names_pieces] at hgoes

theorem Reaches.leads' : LeadsOn fs' dots n here xs n' d := by
  have hgoes := h.goes'
  rwa [names_pieces] at hgoes

theorem Reaches.ends_names (follow : Bool) (hzs : zs ≠ []) :
    fs.walkEnd follow n here (xs ++ zs) = fs.walkEnd follow n' d zs := by
  have hends := h.ends follow zs hzs
  rwa [names_pieces] at hends

end

structure Fork (fs fs' : FileSystem) (dots : Bool) (n : Nat) (here : Location) (ps : List Piece)
    (qs : List Piece) (n' : Nat) (d : Location) (v : Bytes) (rest : List Piece) : Prop extends
    Reaches fs fs' dots n here qs n' d where
  split : ps = qs ++ (v, true) :: rest
  looked : Looked fs d v
  missing : fs.at (v :: d) = none
  there : fs'.at (v :: d) ≠ none

structure InStep (fs fs' : FileSystem) (dots : Bool) (n : Nat) (here : Location)
    (ps : List Piece) : Prop where
  same : ∀ follow, fs'.walk ⟨follow, dots⟩ n here (ps.map (·.1)) = fs.walk ⟨follow, dots⟩ n here (ps.map (·.1))
  on : (∃ n' d, Reaches fs fs' dots n here ps n' d) ∨
    ∃ err, Fails fs dots n here (ps.map (·.1)) err ∧ Fails fs' dots n here (ps.map (·.1)) err

def Compared (fs fs' : FileSystem) (dots : Bool) (n : Nat) (here : Location) (ps : List Piece) :
    Prop :=
  (∃ qs n' d v rest, Fork fs fs' dots n here ps qs n' d v rest) ∨ InStep fs fs' dots n here ps

/-- A piece at which both trees stop. -/
theorem Compared.stuck (err : Errno)
    (hsame : ∀ follow zs,
      fs'.walk ⟨follow, dots⟩ n here (w :: zs) = fs.walk ⟨follow, dots⟩ n here (w :: zs))
    (h : ∀ follow zs, GoesOn zs → fs.walk ⟨follow, dots⟩ n here (w :: zs) = .error err) :
    Compared fs fs' dots n here ((w, direct) :: ps) := by
  have hfails : Fails fs dots n here (((w, direct) :: ps).map (·.1)) err := fun follow zs hzs =>
    h follow _ (hzs.append _)
  exact .inr ⟨fun follow => hsame follow _, .inr ⟨err, hfails, fun follow zs hzs =>
    (hsame follow _).trans (hfails follow zs hzs)⟩⟩

/-- A piece that leads to a place in both trees from which the rest can be compared. -/
theorem Compared.pass {here' : Location} (h : Compared fs fs' dots n here' ps)
    (hw : ∀ follow zs, fs.walk ⟨follow, dots⟩ n here (w :: zs) = fs.walk ⟨follow, dots⟩ n here' zs)
    (hw' : ∀ follow zs, fs'.walk ⟨follow, dots⟩ n here (w :: zs) = fs'.walk ⟨follow, dots⟩ n here' zs)
    (hp : ∀ us, ∀ x ∈ fs.walkPassage n here' us, x ∈ fs.walkPassage n here ((w, direct) :: us))
    (hq : ∀ us, ∀ x ∈ fs.walkPassage n here ((w, direct) :: us),
      fs.at x.1 ≠ none ∨ x ∈ fs.walkPassage n here' us)
    (he : ∀ follow xs, fs.walkEnd follow n here (w :: xs) = fs.walkEnd follow n here' xs) :
    Compared fs fs' dots n here ((w, direct) :: ps) := by
  have hreaches : ∀ {qs n' d}, Reaches fs fs' dots n here' qs n' d →
      Reaches fs fs' dots n here ((w, direct) :: qs) n' d := fun h =>
    { level := h.level
      goes := fun follow zs hzs => (hw follow _).trans (h.goes follow zs hzs)
      goes' := fun follow zs hzs => (hw' follow _).trans (h.goes' follow zs hzs)
      passes := fun us x hx => hp _ x (h.passes us x hx)
      present := fun x hx => (hq _ x hx).elim id (h.present x)
      ends := fun follow zs hzs => (he follow _).trans (h.ends follow zs hzs) }
  rcases h with ⟨qs, n', d, v, rest, h⟩ | h
  · exact .inl ⟨(w, direct) :: qs, n', d, v, rest, hreaches h.toReaches, by rw [h.split]; rfl, h.looked,
      h.missing, h.there⟩
  · refine .inr ⟨fun follow => (hw' follow _).trans ((h.same follow).trans (hw follow _).symm), ?_⟩
    rcases h.on with ⟨n', d, h⟩ | ⟨err, hf, hf'⟩
    · exact .inl ⟨n', d, hreaches h⟩
    · exact .inr ⟨err, fun follow zs hzs => (hw follow _).trans (hf follow zs hzs),
        fun follow zs hzs => (hw' follow _).trans (hf' follow zs hzs)⟩

theorem Compared.turn {here' : Location} (h : Compared fs fs' dots n here' ps) (hlevel : Level fs fs' here)
    (hw : ∀ (t : FileSystem) follow zs, t.walk ⟨follow, dots⟩ n here (w :: zs) =
      if dots && !t.admits here then .error .denied else t.walk ⟨follow, dots⟩ n here' zs)
    (hp : ∀ us, fs.walkPassage n here ((w, direct) :: us) = fs.walkPassage n here' us)
    (he : ∀ follow xs, fs.walkEnd follow n here (w :: xs) = fs.walkEnd follow n here' xs) :
    Compared fs fs' dots n here ((w, direct) :: ps) := by
  have hadmits := hlevel.admits
  by_cases ha : (dots && !fs.admits here) = true
  · exact .stuck .denied (fun _ _ => by rw [hw, hw, hadmits, if_pos ha, if_pos ha])
      fun _ _ _ => by rw [hw, if_pos ha]
  · exact h.pass (fun _ _ => by rw [hw, if_neg ha]) (fun _ _ => by rw [hw, hadmits, if_neg ha])
      (fun _ _ hx => by rwa [hp]) (fun _ _ hx => .inr (by rwa [hp] at hx)) he

/-- A piece at which both trees have the same link. -/
theorem Compared.detour {here' : Location} {t : Path}
    (h : Compared fs fs' dots n here' ((pathPieces t).map (·, false) ++ ps))
    (hw : ∀ (follow : Bool) zs, ¬(zs = [] ∧ ¬follow) →
      fs.walk ⟨follow, dots⟩ (n + 1) here (w :: zs) = fs.walk ⟨follow, dots⟩ n here' (pathPieces t ++ zs))
    (hw' : ∀ (follow : Bool) zs, ¬(zs = [] ∧ ¬follow) →
      fs'.walk ⟨follow, dots⟩ (n + 1) here (w :: zs) = fs'.walk ⟨follow, dots⟩ n here' (pathPieces t ++ zs))
    (hlast : fs'.walk ⟨false, dots⟩ (n + 1) here [w] = fs.walk ⟨false, dots⟩ (n + 1) here [w])
    (hp : ∀ us, ∀ x ∈ fs.walkPassage n here' ((pathPieces t).map (·, false) ++ us),
      x ∈ fs.walkPassage (n + 1) here ((w, direct) :: us))
    (hq : ∀ us, ∀ x ∈ fs.walkPassage (n + 1) here ((w, direct) :: us),
      fs.at x.1 ≠ none ∨ x ∈ fs.walkPassage n here' ((pathPieces t).map (·, false) ++ us))
    (he : ∀ follow xs, xs ≠ [] →
      fs.walkEnd follow (n + 1) here (w :: xs) = fs.walkEnd follow n here' (pathPieces t ++ xs)) :
    Compared fs fs' dots (n + 1) here ((w, direct) :: ps) := by
  have hmap : ∀ us : List Piece,
      ((pathPieces t).map (·, false) ++ us).map (·.1) = pathPieces t ++ us.map (·.1) := fun us => by
    rw [List.map_append, names_pieces]
  have hne : ∀ {zs : List Bytes}, GoesOn zs → ∀ (follow : Bool) (ys : List Bytes), ¬(ys ++ zs = [] ∧ ¬follow) :=
    fun hzs follow ys hc => hzs (by simp [(List.append_eq_nil_iff.1 hc.1).2])
  have hreaches : ∀ {us n' d}, Reaches fs fs' dots n here' ((pathPieces t).map (·, false) ++ us) n' d →
      Reaches fs fs' dots (n + 1) here ((w, direct) :: us) n' d := fun {us n' d} h =>
    { level := h.level
      goes := fun follow zs hzs => by
        have := h.goes follow zs hzs
        rw [hmap, List.append_assoc] at this
        exact (hw follow _ (hne hzs follow _)).trans this
      goes' := fun follow zs hzs => by
        have := h.goes' follow zs hzs
        rw [hmap, List.append_assoc] at this
        exact (hw' follow _ (hne hzs follow _)).trans this
      passes := fun ys x hx => hp (us ++ ys) x (by rw [← List.append_assoc]; exact h.passes ys x hx)
      present := fun x hx => (hq us x hx).elim id (h.present x)
      ends := fun follow zs hzs => by
        have hends := h.ends follow zs hzs
        rw [hmap, List.append_assoc] at hends
        exact (he follow _ (by simp [hzs])).trans hends }
  rcases h with ⟨qs, n', d, v, rest, h⟩ | h
  · -- the missing place is one of the path itself, so it comes after the link
    obtain ⟨us, rfl, hps⟩ : ∃ us, qs = (pathPieces t).map (·, false) ++ us ∧ ps = us ++ (v, true) :: rest := by
      rcases List.append_eq_append_iff.1 h.split with ⟨us, hqs, hps⟩ | ⟨us, htarget, hrest⟩
      · exact ⟨us, hqs, hps⟩
      · cases us with
        | nil => exact ⟨[], by simpa using htarget.symm, by simpa using hrest.symm⟩
        | cons u us =>
          obtain ⟨rfl, -⟩ := List.cons.inj hrest
          have hmem : (v, true) ∈ (pathPieces t).map (·, false) := by rw [htarget]; simp
          simp at hmem
    exact .inl ⟨(w, direct) :: us, n', d, v, rest, hreaches h.toReaches, by rw [hps]; rfl, h.looked,
      h.missing, h.there⟩
  · refine .inr ⟨fun follow => ?_, ?_⟩
    · have hsame := h.same follow
      rw [hmap] at hsame
      by_cases hstop : ps.map (·.1) = [] ∧ ¬follow
      · obtain rfl : follow = false := by simpa using hstop.2
        rw [List.map_cons, hstop.1]
        exact hlast
      · exact (hw' follow _ hstop).trans (hsame.trans (hw follow _ hstop).symm)
    · rcases h.on with ⟨n', d, h⟩ | ⟨err, hf, hf'⟩
      · exact .inl ⟨n', d, hreaches h⟩
      · refine .inr ⟨err, fun follow zs hzs => ?_, fun follow zs hzs => ?_⟩
        · have := hf follow zs hzs
          rw [hmap, List.append_assoc] at this
          exact (hw follow _ (hne hzs follow _)).trans this
        · have := hf' follow zs hzs
          rw [hmap, List.append_assoc] at this
          exact (hw' follow _ (hne hzs follow _)).trans this

theorem walk_nil : fs.walk manner n here [] = arrive fs here false := by
  cases n <;> rfl

theorem Reaches.nil (h : Level fs fs' here) : Reaches fs fs' dots n here [] n here :=
  ⟨h, fun _ _ _ => rfl, fun _ _ _ => rfl, fun _ _ hx => hx, fun x hx => (by cases n <;> cases hx),
    fun _ _ _ => rfl⟩

theorem Compared.nil (h : Level fs fs' here) : Compared fs fs' dots n here [] :=
  .inr ⟨fun _ => by simp only [List.map_nil, walk_nil, arrive, h.at_self], .inl ⟨n, here, .nil h⟩⟩

section

variable (hlinks : ∀ m, n = m + 1 → ∀ here ps, (∀ x ∈ fs.walkPassage m here ps, Lags fs fs' x) →
    Level fs fs' here → Compared fs fs' dots m here ps)
  (hrest : ∀ here, (∀ x ∈ fs.walkPassage n here ps, Lags fs fs' x) → Level fs fs' here →
    Compared fs fs' dots n here ps)
  (hlags : ∀ x ∈ fs.walkPassage n here ((w, direct) :: ps), Lags fs fs' x) (hlevel : Level fs fs' here)
include hlinks hrest hlags hlevel

/-- A name, where the pieces to come are compared. -/
theorem Compared.name (hw : IsLookedUp w) : Compared fs fs' dots n here ((w, direct) :: ps) := by
  have hp : ∀ us, fs.walkPassage n here ((w, direct) :: us) = _ := fun us => walkPassage_name hw
  by_cases ha : (!fs.admits here) = true
  · have ha' : (!fs'.admits here) = true := by rw [hlevel.admits]; exact ha
    exact .stuck .denied (fun _ _ => by rw [walk_name hw, walk_name hw, if_pos ha, if_pos ha'])
      fun _ _ _ => by rw [walk_name hw, if_pos ha]
  have ha' : ¬(!fs'.admits here) = true := by rw [hlevel.admits]; exact ha
  by_cases hlong : longestName < w.length
  · exact .stuck .nameTooLong
      (fun _ _ => by rw [walk_name hw, walk_name hw, if_neg ha, if_neg ha', if_pos hlong, if_pos hlong])
      fun _ _ _ => by rw [walk_name hw, if_neg ha, if_pos hlong]
  have hname : ∀ follow zs, fs.walk ⟨follow, dots⟩ n here (w :: zs) = _ := fun _ zs =>
    (walk_name hw).trans ((if_neg ha).trans (if_neg hlong))
  have hname' : ∀ follow zs, fs'.walk ⟨follow, dots⟩ n here (w :: zs) = _ := fun _ zs =>
    (walk_name hw).trans ((if_neg ha').trans (if_neg hlong))
  have hend : ∀ follow xs, fs.walkEnd follow n here (w :: xs) = _ := fun follow xs =>
    walkEnd_name hw
  have hself : Lags fs fs' (w :: here, direct) := hlags _ (by rw [hp]; exact List.mem_cons_self)
  cases hx : fs.at (w :: here) with
  | none =>
    cases hx' : fs'.at (w :: here) with
    | some e =>
      obtain ⟨rfl, -⟩ := hself.resolve_left fun hc => by rw [hx, hx'] at hc; cases hc
      exact .inl ⟨[], n, here, w, ps, .nil hlevel, rfl,
        ⟨hw.1, hw.2.1, hw.2.2, by simpa using ha, Nat.not_lt.1 hlong⟩, hx, by simp [hx']⟩
    | none =>
      refine .stuck .noEntry (fun _ _ => by rw [hname, hname', hx, hx']) fun _ zs hzs => ?_
      rw [hname, hx]
      exact if_neg hzs
  | some e =>
    have hx' : fs'.at (w :: here) = some e := by
      rcases hself with hself | ⟨-, hc⟩
      · exact hself.trans hx
      · rw [hx] at hc; cases hc
    cases e with
    | file m c =>
      refine .stuck .notDirectory (fun _ _ => by rw [hname, hname', hx, hx']) fun _ zs hzs => ?_
      rw [hname, hx]
      exact if_neg hzs
    | directory m =>
      rw [hp, hx] at hlags
      refine (hrest (w :: here) (fun x hx => hlags x (List.mem_cons_of_mem _ hx))
        (hlevel.down hx (hx'.trans hx.symm))).pass (fun _ zs => by rw [hname, hx])
        (fun _ zs => by rw [hname', hx']) (fun us x hx₁ => ?_) (fun us x hx₁ => ?_)
        fun follow xs => by rw [hend, hx]
      · rw [hp, hx]
        exact List.mem_cons_of_mem _ hx₁
      · rw [hp, hx] at hx₁
        exact (List.mem_cons.1 hx₁).imp (fun h => by rw [h, hx]; simp) id
    | link t =>
      cases n with
      | zero =>
        refine .stuck .tooManyLinks (fun _ _ => by rw [hname, hname', hx, hx']) fun _ zs hzs => ?_
        rw [hname, hx]
        exact if_neg fun hc => hzs (by simp [hc.1])
      | succ n =>
        rw [hp, hx] at hlags
        refine (hlinks n rfl _ _ (fun x hx => hlags x (List.mem_cons_of_mem _ hx))
          (hlevel.start t)).detour (fun _ zs hzs => ?_) (fun _ zs hzs => ?_) ?_
          (fun us x hx₁ => ?_) (fun us x hx₁ => ?_) fun follow xs hxs => ?_
        · rw [hname, hx]; exact if_neg hzs
        · rw [hname', hx']; exact if_neg hzs
        · rw [hname, hname', hx, hx']
          simp only [Bool.false_eq_true, not_false_eq_true, and_self, if_true]
        · rw [hp, hx]
          exact List.mem_cons_of_mem _ hx₁
        · rw [hp, hx] at hx₁
          exact (List.mem_cons.1 hx₁).imp (fun h => by rw [h, hx]; simp) id
        · rw [hend, hx]
          exact if_neg fun hc => hxs hc.1

theorem Compared.cons : Compared fs fs' dots n here ((w, direct) :: ps) := by
  by_cases hnil : w = []
  · subst hnil
    have hp : ∀ us, fs.walkPassage n here (([], direct) :: us) = _ := fun us => walkPassage_blank (.inl rfl)
    rw [hp] at hlags
    exact (hrest here hlags hlevel).pass (fun _ _ => walk_blank) (fun _ _ => walk_blank)
      (fun _ _ hx => by rwa [hp]) (fun _ _ hx => .inr (by rwa [hp] at hx)) fun _ _ => walkEnd_blank (.inl rfl)
  by_cases hdot : w = [dot]
  · subst hdot
    rw [walkPassage_blank (.inr rfl)] at hlags
    exact (hrest here hlags hlevel).turn hlevel (fun _ _ _ => walk_stay)
      (fun _ => walkPassage_blank (.inr rfl)) fun _ _ => walkEnd_blank (.inr rfl)
  by_cases hup : w = [dot, dot]
  · subst hup
    rw [walkPassage_up] at hlags
    exact (hrest _ hlags hlevel.drop).turn hlevel (fun _ _ _ => walk_up) (fun _ => walkPassage_up)
      fun _ _ => walkEnd_up
  exact .name hlinks hrest hlags hlevel ⟨hnil, hdot, hup⟩

end

/-- Trees that are equal at all that a way passes, but for what the first lacks on the path itself, are
walked alike as far as nothing is missing. -/
theorem walk_alike (hlags : ∀ x ∈ fs.walkPassage n here ps, Lags fs fs' x) (hlevel : Level fs fs' here) :
    Compared fs fs' dots n here ps := by
  have hpieces : ∀ n, (∀ m, n = m + 1 → ∀ here ps, (∀ x ∈ fs.walkPassage m here ps, Lags fs fs' x) →
      Level fs fs' here → Compared fs fs' dots m here ps) → ∀ ps here,
      (∀ x ∈ fs.walkPassage n here ps, Lags fs fs' x) → Level fs fs' here →
      Compared fs fs' dots n here ps := by
    intro n hlinks ps
    induction ps with
    | nil => exact fun _ _ hlevel => .nil hlevel
    | cons x ps ih => exact fun here hlags hlevel => .cons hlinks (fun _ => ih _) hlags hlevel
  induction n generalizing here ps with
  | zero => exact hpieces 0 (fun m hm => by cases hm) ps here hlags hlevel
  | succ n ih =>
    refine hpieces (n + 1) (fun m hm here ps => ?_) ps here hlags hlevel
    obtain rfl := Nat.succ.inj hm
    exact ih

/-- More pieces at the end pass no less. -/
theorem walkPassage_append (us : List Piece) : fs.walkPassage n here ps ⊆ fs.walkPassage n here (ps ++ us) := by
  have hpieces : ∀ n, (∀ m, n = m + 1 → ∀ here ps,
      fs.walkPassage m here ps ⊆ fs.walkPassage m here (ps ++ us)) → ∀ ps here,
      fs.walkPassage n here ps ⊆ fs.walkPassage n here (ps ++ us) := by
    intro n hlinks ps
    induction ps with
    | nil => intro here; cases n <;> exact List.nil_subset _
    | cons x ps ih =>
      intro here
      obtain ⟨w, direct⟩ := x
      rw [List.cons_append]
      by_cases hblank : w = [] ∨ w = [dot]
      · rw [walkPassage_blank hblank, walkPassage_blank hblank]
        exact ih here
      by_cases hup : w = [dot, dot]
      · rw [hup, walkPassage_up, walkPassage_up]
        exact ih _
      rw [not_or] at hblank
      rw [walkPassage_name ⟨hblank.1, hblank.2, hup⟩, walkPassage_name ⟨hblank.1, hblank.2, hup⟩]
      refine List.cons_subset_cons _ ?_
      cases fs.at (w :: here) with
      | none => exact ih _
      | some e =>
        cases e with
        | file m c => exact List.Subset.refl _
        | directory m => exact ih _
        | link t =>
          cases n with
          | zero => exact List.Subset.refl _
          | succ n =>
            dsimp only
            rw [← List.append_assoc]
            exact hlinks n rfl _ _
  induction n generalizing here ps with
  | zero => exact hpieces 0 (fun m hm => by cases hm) ps here
  | succ n ih =>
    refine hpieces (n + 1) (fun m hm here ps => ?_) ps here
    obtain rfl := Nat.succ.inj hm
    exact ih

/-- A way that leads to a directory still leads there in a tree with the same entries on it. -/
theorem LeadsOn.still {names : List Bytes} (h : LeadsOn fs dots mostLinks [] names n d)
    (ha : fs.admits d = true) (hd : ∃ m, fs.at d = some (.directory m))
    (hway : ∀ x ∈ fs.walkPassage mostLinks [] (names.map (·, true)), fs'.at x.1 = fs.at x.1)
    (hroot : fs'.at [] = fs.at []) :
    (∃ n', LeadsOn fs' dots mostLinks [] names n' d) ∧ fs'.at d = fs.at d := by
  obtain ⟨m, hm⟩ := hd
  have hdot : GoesOn [[dot]] := by simp [GoesOn]
  have hhere := h true [[dot]] hdot
  rw [walk_stay, ha, Bool.not_true, Bool.and_false, if_neg (by simp), walk_nil, arrive, hm] at hhere
  dsimp only at hhere
  have hlevel : Level fs fs' [] := fun j hj => by
    rw [List.suffix_nil.1 hj]
    exact ⟨hroot, _, at_nil fs⟩
  have hcompared : Compared fs fs' dots mostLinks [] (names.map (·, true)) :=
    walk_alike (fun x hx => .inl (hway x hx)) hlevel
  rcases hcompared with
    ⟨qs, n', d', v, rest, hfork⟩ | hstep
  · -- what is missing on the way is missing in both trees
    have hmem := hfork.passes ((v, true) :: rest) (v :: d', true) (by
      rw [walkPassage_name ⟨hfork.looked.1, hfork.looked.2, hfork.looked.3⟩]
      exact List.mem_cons_self)
    rw [← hfork.split] at hmem
    exact absurd ((hway _ hmem).trans hfork.missing) hfork.there
  · rcases hstep.on with ⟨n', d', hreach⟩ | ⟨err, hf, -⟩
    · have hgoes := hreach.leads true [[dot]] hdot
      rw [hhere, walk_stay] at hgoes
      split at hgoes
      · cases hgoes
      rw [walk_nil, arrive] at hgoes
      split at hgoes
      · obtain ⟨rfl, -⟩ := Found.entry.inj (Except.ok.inj hgoes)
        exact ⟨⟨n', hreach.leads'⟩, hreach.level.at_self⟩
      · cases hgoes
    · have := hf true [[dot]] hdot
      rw [names_pieces, hhere] at this
      cases this

/-! ### Where a way ends -/

theorem walkEnd_nil : fs.walkEnd follow n here [] = some here := by cases n <;> rfl

theorem walkEnd_blanks (h : xs.all (· = []) = true) : fs.walkEnd follow n here xs = some here := by
  induction xs with
  | nil => exact walkEnd_nil
  | cons w xs ih =>
    simp only [List.all_cons, Bool.and_eq_true, decide_eq_true_eq] at h
    rw [walkEnd_blank (.inl h.1), ih h.2]

/-- A way that is walked to its end ends where it should. -/
theorem walkEnd_of_walk {found : Found} (h : fs.walk manner n here xs = .ok found) :
    fs.walkEnd manner.follow n here xs = some found.location := by
  have hpieces : ∀ n, (∀ m, n = m + 1 → ∀ here xs found, fs.walk manner m here xs = .ok found →
      fs.walkEnd manner.follow m here xs = some found.location) → ∀ xs here found,
      fs.walk manner n here xs = .ok found → fs.walkEnd manner.follow n here xs = some found.location := by
    intro n hlinks xs
    induction xs with
    | nil =>
      intro here found h
      rw [walk_nil, arrive] at h
      rw [walkEnd_nil]
      split at h
      · rw [← Except.ok.inj h]; rfl
      · cases h
    | cons w xs ih =>
      intro here found h
      by_cases hnil : w = []
      · rw [hnil, walk_blank] at h
        rw [walkEnd_blank (.inl hnil), ih _ _ h]
      by_cases hdot : w = [dot]
      · rw [hdot, walk_stay] at h
        split at h
        · cases h
        · rw [walkEnd_blank (.inr hdot), ih _ _ h]
      by_cases hup : w = [dot, dot]
      · rw [hup, walk_up] at h
        split at h
        · cases h
        · rw [hup, walkEnd_up, ih _ _ h]
      have hw : IsLookedUp w := ⟨hnil, hdot, hup⟩
      rw [walk_name hw] at h
      rw [walkEnd_name hw]
      split at h
      · cases h
      split at h
      · cases h
      cases hx : fs.at (w :: here) with
      | none =>
        rw [hx] at h
        dsimp only at h ⊢
        split at h
        · next hlast => rw [← Except.ok.inj h, walkEnd_blanks hlast]; rfl
        · cases h
      | some e =>
        rw [hx] at h
        cases e with
        | file m c =>
          dsimp only at h ⊢
          split at h
          · next hlast => rw [← Except.ok.inj h, if_pos hlast]; rfl
          · cases h
        | directory m => exact ih _ _ h
        | link t =>
          dsimp only at h ⊢
          split at h
          · next hstop => rw [← Except.ok.inj h, if_pos hstop]; rfl
          · next hgo =>
            rw [if_neg hgo]
            cases n with
            | zero => cases h
            | succ n => exact hlinks n rfl _ _ _ h
  induction n generalizing here xs found with
  | zero => exact hpieces 0 (fun m hm => by cases hm) xs here found h
  | succ n ih =>
    refine hpieces (n + 1) (fun m hm here xs found => ?_) xs here found h
    obtain rfl := Nat.succ.inj hm
    exact ih

/-! ### Names below a missing place -/

theorem walkEnd_through {us : List Bytes} (hn : ∀ v ∈ us, IsLookedUp v)
    (hus : ∀ vs, vs <:+ us → vs ≠ [] → ∀ e ∈ fs.at (vs ++ d), e.isDirectory = true) :
    ∀ xs, fs.walkEnd follow n d (us.reverse ++ xs) = fs.walkEnd follow n (us ++ d) xs := by
  induction us with
  | nil => exact fun _ => rfl
  | cons u us ih =>
    intro xs
    rw [List.reverse_cons, List.append_assoc,
      ih (fun v hv => hn v (List.mem_cons_of_mem u hv))
        (fun vs hvs => hus vs (hvs.trans (List.suffix_cons u us))),
      List.singleton_append, walkEnd_name (hn u List.mem_cons_self)]
    have hu := hus (u :: us) List.suffix_rfl (List.cons_ne_nil _ _)
    rw [List.cons_append] at hu ⊢
    cases hx : fs.at (u :: (us ++ d)) with
    | none => rfl
    | some e =>
      have := hu e hx
      cases e <;> first | rfl | cases this

/-- All places of a way through missing places and directories are passed. -/
theorem mem_walkPassage_through {us : List Bytes} (hn : ∀ v ∈ us, IsLookedUp v)
    (hus : ∀ vs, vs <:+ us → vs ≠ [] → ∀ e ∈ fs.at (vs ++ d), e.isDirectory = true) :
    (∀ ps, ∀ x ∈ fs.walkPassage n (us ++ d) ps,
        x ∈ fs.walkPassage n d (us.reverse.map (·, true) ++ ps)) ∧
      ∀ ps, ∀ vs, vs <:+ us → vs ≠ [] →
        (vs ++ d, true) ∈ fs.walkPassage n d (us.reverse.map (·, true) ++ ps) := by
  induction us with
  | nil => exact ⟨fun _ _ hx => hx, fun _ vs hvs hne => absurd (List.suffix_nil.1 hvs) hne⟩
  | cons u us ih =>
    obtain ⟨hrest, hplaces⟩ := ih (fun v hv => hn v (List.mem_cons_of_mem u hv))
      (fun vs hvs => hus vs (hvs.trans (List.suffix_cons u us)))
    have hu := hus (u :: us) List.suffix_rfl (List.cons_ne_nil _ _)
    have hsplit : ∀ ps, ((u :: us).reverse.map (·, true) ++ ps : List Piece) =
        us.reverse.map (·, true) ++ (u, true) :: ps := fun ps => by simp
    have hstep : ∀ ps, fs.walkPassage n (us ++ d) ((u, true) :: ps) =
        (u :: (us ++ d), true) :: fs.walkPassage n (u :: (us ++ d)) ps := fun ps => by
      rw [walkPassage_name (hn u List.mem_cons_self)]
      rw [List.cons_append] at hu
      cases hx : fs.at (u :: (us ++ d)) with
      | none => rfl
      | some e =>
        have := hu e hx
        cases e <;> first | rfl | cases this
    refine ⟨fun ps x hx => ?_, fun ps vs hvs hne => ?_⟩
    · rw [hsplit]
      exact hrest _ x (by rw [hstep]; exact List.mem_cons_of_mem _ hx)
    · rw [hsplit]
      rcases List.suffix_cons_iff.1 hvs with rfl | hvs
      · exact hrest _ _ (by rw [hstep]; exact List.mem_cons_self)
      · exact hplaces _ vs hvs hne

theorem walk_through {us : List Bytes} (hn : ∀ v ∈ us, IsLookedUp v ∧ v.length ≤ longestName)
    (ha : fs.admits d = true)
    (hus : ∀ vs, vs <:+ us → vs ≠ [] → (∃ m, fs.at (vs ++ d) = some (.directory m)) ∧
      fs.admits (vs ++ d) = true) :
    ∀ xs, fs.walk manner n d (us.reverse ++ xs) = fs.walk manner n (us ++ d) xs := by
  induction us with
  | nil => exact fun _ => rfl
  | cons u us ih =>
    intro xs
    obtain ⟨hu, hshort⟩ := hn u List.mem_cons_self
    obtain ⟨⟨m, hm⟩, -⟩ := hus (u :: us) List.suffix_rfl (List.cons_ne_nil _ _)
    have habove : fs.admits (us ++ d) = true := by
      by_cases hne : us = []
      · rw [hne]; exact ha
      · exact (hus us (List.suffix_cons u us) hne).2
    rw [List.cons_append] at hm
    rw [List.reverse_cons, List.append_assoc,
      ih (fun v hv => hn v (List.mem_cons_of_mem u hv))
        (fun vs hvs => hus vs (hvs.trans (List.suffix_cons u us))),
      List.singleton_append, walk_name hu, habove, if_neg (by simp), if_neg (Nat.not_lt.2 hshort), hm]
    rfl

/-- Names that are looked up one after the other until one is missing. -/
theorem walk_missing {us : List Bytes} (hn : ∀ v ∈ us, IsLookedUp v ∧ v.length ≤ longestName)
    (ha : fs.admits d = true)
    (hus : ∀ vs, vs <:+ us → vs ≠ [] → ∀ e ∈ fs.at (vs ++ d), e.isDirectory = true ∧
      fs.admits (vs ++ d) = true)
    (hnone : ∃ vs, vs <:+ us ∧ vs ≠ [] ∧ fs.at (vs ++ d) = none) :
    ∀ xs, GoesOn xs → fs.walk manner n d (us.reverse ++ xs) = .error .noEntry := by
  induction us with
  | nil =>
    obtain ⟨vs, hvs, hne, -⟩ := hnone
    exact absurd (List.suffix_nil.1 hvs) hne
  | cons u us ih =>
    intro xs hxs
    obtain ⟨hu, hshort⟩ := hn u List.mem_cons_self
    have hn' : ∀ v ∈ us, IsLookedUp v ∧ v.length ≤ longestName :=
      fun v hv => hn v (List.mem_cons_of_mem u hv)
    have hus' : ∀ vs, vs <:+ us → vs ≠ [] → ∀ e ∈ fs.at (vs ++ d), e.isDirectory = true ∧
        fs.admits (vs ++ d) = true := fun vs hvs => hus vs (hvs.trans (List.suffix_cons u us))
    rw [List.reverse_cons, List.append_assoc, List.singleton_append]
    by_cases hearly : ∃ vs, vs <:+ us ∧ vs ≠ [] ∧ fs.at (vs ++ d) = none
    · refine ih hn' hus' hearly (u :: xs) fun hall => hu.1 ?_
      simp only [List.all_cons, Bool.and_eq_true, decide_eq_true_eq] at hall
      exact hall.1
    · have hthere : ∀ vs, vs <:+ us → vs ≠ [] → (∃ m, fs.at (vs ++ d) = some (.directory m)) ∧
          fs.admits (vs ++ d) = true := by
        intro vs hvs hne
        obtain ⟨e, he⟩ := Option.ne_none_iff_exists'.1 fun hc => hearly ⟨vs, hvs, hne, hc⟩
        obtain ⟨hdir, hadmits⟩ := hus' vs hvs hne e he
        refine ⟨?_, hadmits⟩
        cases e with
        | directory m => exact ⟨m, he⟩
        | _ => cases hdir
      obtain ⟨vs, hvs, hne, hvnone⟩ := hnone
      obtain rfl : vs = u :: us := (List.suffix_cons_iff.1 hvs).resolve_right fun hvs =>
        hearly ⟨vs, hvs, hne, hvnone⟩
      rw [List.cons_append] at hvnone
      have habove : fs.admits (us ++ d) = true := by
        by_cases hne : us = []
        · rw [hne]; exact ha
        · exact (hthere us List.suffix_rfl hne).2
      rw [walk_through hn' ha hthere, walk_name hu, habove, if_neg (by simp),
        if_neg (Nat.not_lt.2 hshort), hvnone]
      exact if_neg hxs

/-! ### Ways without links -/

/-- A way of names without a link passes the places that it spells, and ends at the last one. -/
theorem walkPassage_straight {us : List Bytes} (hn : ∀ v ∈ us, IsLookedUp v)
    (hus : ∀ vs, vs <:+ us → vs ≠ [] → ∀ t, fs.at (vs ++ d) ≠ some (.link t)) :
    (∀ x ∈ fs.walkPassage n d (us.reverse.map (·, true)), x.2 = true ∧ x.1 <:+ us ++ d) ∧
      ∀ follow k, fs.walkEnd follow n d us.reverse = some k → k = us ++ d := by
  induction us using List.reverseRecOn generalizing d with
  | nil =>
    refine ⟨fun x hx => ?_, fun follow k hk => ?_⟩
    · cases n <;> cases hx
    · rw [List.reverse_nil, walkEnd_nil] at hk
      exact (Option.some.inj hk).symm
  | append_singleton us w ih =>
    have hw : IsLookedUp w := hn w (List.mem_append_right _ (List.mem_singleton_self w))
    obtain ⟨hpassed, hend⟩ := ih (d := w :: d) (fun v hv => hn v (List.mem_append_left _ hv))
      fun vs hvs _ t => by
        have := hus (vs ++ [w]) ((List.suffix_append_inj_of_length_eq rfl).2 ⟨hvs, rfl⟩) (by simp) t
        rwa [List.append_assoc] at this
    have hlink := hus [w] (List.suffix_append us [w]) (by simp)
    rw [List.singleton_append] at hlink
    have hsplit : us ++ [w] ++ d = us ++ w :: d := by rw [List.append_assoc, List.singleton_append]
    rw [hsplit, List.reverse_append, List.reverse_singleton, List.singleton_append, List.map_cons,
      walkPassage_name hw]
    simp only [walkEnd_name hw]
    cases hx : fs.at (w :: d) with
    | none =>
      refine ⟨fun x hx => ?_, hend⟩
      rcases List.mem_cons.1 hx with rfl | hx
      · exact ⟨rfl, List.suffix_append us (w :: d)⟩
      · exact hpassed x hx
    | some e =>
      cases e with
      | link t => exact absurd hx (hlink t)
      | directory m =>
        refine ⟨fun x hx => ?_, hend⟩
        rcases List.mem_cons.1 hx with rfl | hx
        · exact ⟨rfl, List.suffix_append us (w :: d)⟩
        · exact hpassed x hx
      | file m c =>
        refine ⟨fun x hx => ?_, fun follow k hk => ?_⟩
        · obtain rfl := List.mem_singleton.1 hx
          exact ⟨rfl, List.suffix_append us (w :: d)⟩
        · dsimp only at hk
          split at hk
          · next hlast =>
            obtain rfl : us = [] := List.eq_nil_iff_forall_not_mem.2 fun v hv =>
              (hn v (List.mem_append_left _ hv)).1 (by simpa using List.all_eq_true.1 hlast v (by simpa using hv))
            exact (Option.some.inj hk).symm
          · cases hk

theorem Walks.short {r : Found} (h : Walks fs manner n here xs r)
    (hs : ∀ v ∈ here, v.length ≤ longestName) : ∀ v ∈ r.location, v.length ≤ longestName := by
  have hcons : ∀ {w : Bytes} {here : Location}, Looked fs here w → (∀ v ∈ here, v.length ≤ longestName) →
      ∀ v ∈ w :: here, v.length ≤ longestName := by
    intro w here hw hs v hv
    rcases List.mem_cons.1 hv with rfl | hv
    · exact hw.short
    · exact hs v hv
  induction h with
  | arrive => exact hs
  | blank _ ih | stay _ _ ih => exact ih hs
  | up _ _ ih => exact ih fun v hv => hs v (List.mem_of_mem_drop hv)
  | vacant hw | file hw | link hw => exact hcons hw hs
  | down hw _ _ ih => exact ih (hcons hw hs)
  | follow _ _ _ _ ih =>
    refine ih fun v hv => ?_
    rw [start] at hv
    split at hv
    · cases hv
    · exact hs v hv

end Retrace.FileSystem
