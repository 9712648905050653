import Retrace.Proofs.FileSystem.Course
import Retrace.Proofs.FileSystem.Edit

/-!
Which place each operation changes, wherever its paths lead: the place of the path itself (`spot?`)
or the one that is found when all links are followed (`goal?`). A sound tree stays sound.
-/
namespace Retrace.FileSystem

open Retrace.Path (IsName dot)

variable {fs fs' : FileSystem} {p q f : Path} {l : Location} {w : Bytes} {e : Entry} {a : Approach}
  {r : Found} {content : Bytes} {mode : Nat}

/-- The place of the entry that a path itself names, a link included. -/
def spot? (fs : FileSystem) (p : Path) : Option Location :=
  match fs.approach p with
  | .ok a => a.location?
  | .error _ => none

/-- The place that a path leads to with all links followed, free or not. -/
def goal? (fs : FileSystem) (p : Path) : Option Location :=
  match fs.find ⟨true, true⟩ p with
  | .ok r => some r.location
  | .error _ => none

theorem spot?_of_approach (h : fs.approach p = .ok a) (hw : a.ending = .name w) :
    fs.spot? p = some (w :: a.directory) := by
  simp [spot?, h, Approach.location?, hw]

theorem goal?_of_find (h : fs.find ⟨true, true⟩ p = .ok r) : fs.goal? p = some r.location := by
  rw [goal?, h]

theorem goal?_of_entryAt (h : fs.entryAt true p = .ok (l, e)) :
    fs.goal? p = some l ∧ fs.at l = some e := by
  rw [entryAt] at h
  cases hf : fs.find ⟨true, true⟩ p with
  | error err => simp [hf, bind, Except.bind] at h
  | ok r =>
    simp only [hf, bind, Except.bind] at h
    cases r with
    | vacant d v s => cases h
    | entry k x s =>
      rw [Found.reached] at h
      split at h
      · cases h
      · obtain ⟨rfl, rfl⟩ := Prod.mk.inj (Except.ok.inj h)
        refine ⟨goal?_of_find hf, ?_⟩
        rw [find] at hf
        split at hf
        · cases hf
        split at hf
        · cases hf
        exact walk_entry hf

/-! ### Directories on the way -/

theorem approach_directory (hs : fs.Sound) (hp : p.isAbsolute = true) (h : fs.approach p = .ok a) :
    ∃ m, fs.at a.directory = some (.directory m) := by
  rw [approach] at h
  split at h
  · cases h
  split at h
  · cases h
  dsimp only at h
  split at h
  · obtain rfl := Except.ok.inj h
    exact ⟨_, at_nil fs⟩
  · next w above _ =>
    rw [start_of_isAbsolute hp] at h
    cases hwalk : fs.walk ⟨true, true⟩ mostLinks [] (above.reverse ++ [[dot]]) with
    | error err => simp [hwalk, bind, Except.bind] at h
    | ok r =>
      simp only [hwalk, bind, Except.bind] at h
      have hends := (walks_of_walk hwalk).ends hs ⟨_, at_nil fs⟩
      cases r with
      | vacant d v s => cases h
      | entry k x s =>
        obtain rfl := Except.ok.inj h
        have hdir := hends.2 (.inr (by simp))
        cases x with
        | directory m => exact ⟨m, hends.1⟩
        | _ => cases hdir

theorem find_ends (hs : fs.Sound) (hp : p.isAbsolute = true) {manner : Manner}
    (h : fs.find manner p = .ok r) : r.Ends fs (pathPieces p) ∧ ∀ v ∈ r.location, IsName v := by
  rw [find] at h
  split at h
  · cases h
  split at h
  · cases h
  rw [start_of_isAbsolute hp] at h
  exact ⟨(walks_of_walk h).ends hs ⟨_, at_nil fs⟩,
    (walks_of_walk h).names (fun _ => slash_not_mem_pathPieces) (by simp)⟩

/-! ### What an operation that went well has done -/

theorem exists_of_bind {α β ε : Type} {x : Except ε α} {f : α → Except ε β} {b : β}
    (h : (x >>= f) = .ok b) : ∃ a, x = .ok a ∧ f a = .ok b := by
  cases x with
  | error err => cases h
  | ok a => exact ⟨a, rfl, h⟩

theorem eq_ok_of_mapError {α ε ε' : Type} {x : Except ε α} {g : ε → ε'} {y : α}
    (h : x.mapError g = .ok y) : x = .ok y := by
  cases x with
  | error err => cases h
  | ok z => rw [Except.ok.inj h]

theorem eq_ok_of_named {α : Type} {x : Except Errno α} {y : α} (h : named p x = .ok y) : x = .ok y := by
  rw [named_of_noNul (noNul_of_named h)] at h
  exact eq_ok_of_mapError h

theorem standing_eq_ok {o : Option Entry} (h : fs.standing a w = .ok o) : o = fs.at (w :: a.directory) := by
  rw [standing] at h
  split at h
  · cases h
  · exact (Except.ok.inj h).symm

theorem makeDirectory_inv (h : fs.makeDirectory p = .ok fs') :
    ∃ a w, fs.approach p = .ok a ∧ a.ending = .name w ∧ fs.at (w :: a.directory) = none ∧
      fs' = fs.insert (w :: a.directory) (fs.newDirectory a.directory) := by
  obtain ⟨a, ha, h⟩ := exists_of_bind (eq_ok_of_named h)
  split at h
  · next w hw =>
    obtain ⟨o, hst, h⟩ := exists_of_bind h
    obtain rfl := standing_eq_ok hst
    split at h
    · cases h
    · next hx =>
      split at h
      · exact ⟨a, w, ha, hw, hx, (Except.ok.inj h).symm⟩
      · cases h
  · cases h

theorem removeFile_inv (h : fs.removeFile p = .ok fs') :
    ∃ a w e, fs.approach p = .ok a ∧ a.ending = .name w ∧ fs.at (w :: a.directory) = some e ∧
      e.isDirectory = false ∧ fs' = fs.erase (w :: a.directory) := by
  obtain ⟨a, ha, h⟩ := exists_of_bind (eq_ok_of_named h)
  split at h
  · next w hw =>
    obtain ⟨o, hst, h⟩ := exists_of_bind h
    obtain rfl := standing_eq_ok hst
    split at h
    · cases h
    · next e hx =>
      split at h
      · cases h
      split at h
      · cases h
      split at h
      · cases h
      · next hdir => exact ⟨a, w, e, ha, hw, hx, by simpa using hdir, (Except.ok.inj h).symm⟩
  · cases h

theorem removeDirectory_inv (h : fs.removeDirectory p = .ok fs') :
    ∃ a w, fs.approach p = .ok a ∧ a.ending = .name w ∧ fs.children (w :: a.directory) = [] ∧
      fs' = fs.erase (w :: a.directory) := by
  obtain ⟨a, ha, h⟩ := exists_of_bind (eq_ok_of_named h)
  split at h
  · cases h
  · cases h
  · cases h
  · next w hw =>
    obtain ⟨o, hst, h⟩ := exists_of_bind h
    split at h
    · cases h
    · next e hx =>
      split at h
      · cases h
      split at h
      · cases h
      split at h
      · next hempty => exact ⟨a, w, ha, hw, hempty, (Except.ok.inj h).symm⟩
      · cases h

theorem moveBar_eq_none {source : Entry} {above target : Location} {old : Option Entry}
    (h : fs.moveBar source above w target old = none) :
    (∀ e ∈ old, e.isDirectory = source.isDirectory) ∧
      (∀ e ∈ old, e.isDirectory = true → fs.children (w :: target) = []) := by
  rw [moveBar] at h
  split at h
  · cases h
  rw [Option.or_eq_none_iff] at h
  obtain ⟨hkind, h⟩ := h
  refine ⟨fun e he => ?_, fun e he hdir => ?_⟩
  · rw [show old = some e from he, Option.bind_some, mismatch] at hkind
    split at hkind
    · next heq => exact heq.symm
    · cases hkind
  · split at h
    · cases h
    split at h
    · cases h
    · next hfull =>
      by_contra hne
      exact hfull (by simp [show old = some e from he, hdir, hne])

theorem Sound.none_of_empty (hs : fs.Sound)
    (h : ∀ x ∈ fs.at l, x.isDirectory = true → fs.children l = []) (v : Bytes) :
    fs.at (v :: l) = none := by
  cases hx : fs.at l with
  | none => exact hs.none_in (by simp [hx]) v
  | some x =>
    by_cases hdir : x.isDirectory = true
    · exact children_eq_nil.1 (h x hx hdir) v
    · refine hs.none_in (fun m hm => hdir ?_) v
      obtain rfl := Option.some.inj (hx.symm.trans hm)
      rfl

/-- A rename leaves the tree alone or moves an entry to a place that gives way. -/
theorem rename_inv (hs : fs.Sound) (h : fs.rename p q = .ok fs') :
    ∃ a v b w e, fs.approach p = .ok a ∧ a.ending = .name v ∧ fs.approach q = .ok b ∧
      b.ending = .name w ∧ fs.at (v :: a.directory) = some e ∧
      (v :: a.directory = w :: b.directory ∧ fs' = fs ∨
        Movable fs (v :: a.directory) (w :: b.directory) ∧
          (∀ x ∈ fs.at (w :: b.directory), x.isDirectory = e.isDirectory) ∧
          fs' = fs.relocate (v :: a.directory) (w :: b.directory)) := by
  rw [rename] at h
  split at h
  · cases h
  replace h := eq_ok_of_mapError h
  obtain ⟨a, ha, h⟩ := exists_of_bind h
  obtain ⟨b, hb, h⟩ := exists_of_bind h
  split at h
  · next v w hv hw =>
    obtain ⟨o, hst, h⟩ := exists_of_bind h
    obtain rfl := standing_eq_ok hst
    split at h
    · cases h
    · next e hx =>
      obtain ⟨old, hst', h⟩ := exists_of_bind h
      obtain rfl := standing_eq_ok hst'
      refine ⟨a, v, b, w, e, ha, hv, hb, hw, hx, ?_⟩
      split at h
      · cases h
      split at h
      · next heq => exact .inl ⟨heq, (Except.ok.inj h).symm⟩
      split at h
      · cases h
      split at h
      · cases h
      next hinto hout =>
      split at h
      · cases h
      · next hbar =>
        obtain ⟨hkind, hempty⟩ := moveBar_eq_none hbar
        refine .inr ⟨?_, hkind, (Except.ok.inj h).symm⟩
        exact
          { source_ne_nil := List.cons_ne_nil _ _
            target_ne_nil := List.cons_ne_nil _ _
            not_into := by simpa using hinto
            not_out := by simpa using hout
            vacant := hs.none_of_empty hempty }
  · cases h

theorem standing_short {o : Option Entry} (h : fs.standing a w = .ok o) : w.length ≤ longestName := by
  rw [standing] at h
  split at h
  · cases h
  next hshort => exact Nat.not_lt.1 hshort

/-- The paths of a rename have names at their ends that the system takes. -/
theorem rename_names (h : fs.rename p q = .ok fs') :
    (p.hasNul = false ∧ ∀ a v, fs.approach p = .ok a → a.ending = .name v → v.length ≤ longestName) ∧
      q.hasNul = false ∧ ∀ b w, fs.approach q = .ok b → b.ending = .name w → w.length ≤ longestName := by
  rw [rename] at h
  split at h
  · cases h
  next hnul =>
  rw [Bool.or_eq_true, not_or, Bool.not_eq_true, Bool.not_eq_true] at hnul
  replace h := eq_ok_of_mapError h
  obtain ⟨a, ha, h⟩ := exists_of_bind h
  obtain ⟨b, hb, h⟩ := exists_of_bind h
  split at h
  · next v w hv hw =>
    obtain ⟨o, hst, h⟩ := exists_of_bind h
    split at h
    · cases h
    obtain ⟨old, hst', -⟩ := exists_of_bind h
    refine ⟨⟨hnul.1, fun a' v' ha' hv' => ?_⟩, hnul.2, fun b' w' hb' hw' => ?_⟩
    · obtain rfl := Except.ok.inj (ha.symm.trans ha')
      obtain rfl := Ending.name.inj (hv.symm.trans hv')
      exact standing_short hst
    · obtain rfl := Except.ok.inj (hb.symm.trans hb')
      obtain rfl := Ending.name.inj (hw.symm.trans hw')
      exact standing_short hst'
  · cases h

theorem Edit.insert_file {k : Location} {x : Entry} (hs : fs.Sound)
    (hk : fs.at k = some x ∨ ∃ w d m, k = w :: d ∧ fs.at d = some (.directory m))
    (hdir : ∀ m, fs.at k ≠ some (.directory m)) (e : Entry) : Edit fs k (some e) (fs.insert k e) := by
  have hne : k ≠ [] := by
    rintro rfl
    exact hdir _ (at_nil fs)
  obtain ⟨w, d, rfl⟩ := List.exists_cons_of_ne_nil hne
  refine Edit.insert hs ?_ (.inr hdir)
  rcases hk with hk | ⟨w', d', m, heq, hm⟩
  · exact hs.parent hk
  · obtain ⟨rfl, rfl⟩ := List.cons.inj heq
    exact ⟨m, hm⟩

/-- A file that is opened for writing is emptied, or comes to a free place in a directory. -/
theorem openEmpty_edit {k : Location} (hs : fs.Sound) (hp : p.isAbsolute = true)
    (h : fs.openEmpty p mode = .ok (k, fs')) :
    fs.goal? p = some k ∧ (∀ e ∈ fs.at k, e.kind = .file) ∧ ∃ m, Edit fs k (some (.file m [])) fs' := by
  obtain ⟨a, ha, h⟩ := exists_of_bind (eq_ok_of_named h)
  split at h
  · cases h
  obtain ⟨r, hr, h⟩ := exists_of_bind h
  have hends := (find_ends hs hp hr).1
  split at h
  · next l m c =>
    split at h
    · obtain ⟨rfl, rfl⟩ := Prod.mk.inj (Except.ok.inj h)
      exact ⟨goal?_of_find hr, by simp [hends.1, Entry.kind], _,
        Edit.insert_file hs (.inl hends.1) (by simp [hends.1]) _⟩
    · cases h
  · cases h
  · next d w slash =>
    split at h
    · cases h
    split at h
    · obtain ⟨rfl, rfl⟩ := Prod.mk.inj (Except.ok.inj h)
      obtain ⟨⟨m, hm⟩, hfree, -⟩ := hends
      exact ⟨goal?_of_find hr, by simp [hfree], _, Edit.insert hs ⟨m, hm⟩ (.inr (by simp [hfree]))⟩
    · cases h

/-- What is copied is a file, and the copy takes the place of a file or a free place. A file that is copied
to itself is emptied. -/
theorem copy_edit (hs : fs.Sound) (hq : q.isAbsolute = true) (h : fs.copy p q = .ok fs') :
    ∃ l m c, named p (fs.entryAt true p) = .ok (l, .file m c) ∧
      ∃ k n, fs.goal? q = some k ∧ (∀ e ∈ fs.at k, e.kind = .file) ∧
        Edit fs k (some (.file n (if l = k then [] else c))) fs' := by
  obtain ⟨⟨l, e⟩, hentry, h⟩ := exists_of_bind h
  dsimp only at h
  split at h
  · cases h
  split at h
  · next n b _ =>
    refine ⟨l, n, b, hentry, ?_⟩
    obtain ⟨⟨k, fs₁⟩, hopen, h⟩ := exists_of_bind h
    obtain ⟨hgoal, hfile, m, hedit⟩ := openEmpty_edit hs hq hopen
    obtain ⟨m', hread⟩ : ∃ m', fs₁.at l = some (.file m' (if l = k then [] else b)) := by
      by_cases hlk : l = k
      · exact ⟨m, by rw [if_pos hlk, hlk, hedit.at_self]⟩
      · exact ⟨n, by rw [if_neg hlk, hedit.at_of_ne hlk, (goal?_of_entryAt (eq_ok_of_named hentry)).2]⟩
    simp only [hread] at h
    obtain rfl := Except.ok.inj h
    exact ⟨k, _, hgoal, hfile, hedit.trans
      (Edit.insert_file hedit.sound (.inl hedit.at_self) (by simp [hedit.at_self]) _)⟩
  · cases h

/-! ### What is spared -/

/-- Everything that stands in a tree still stands there, but at the given places. -/
structure Spares (fs : FileSystem) (T : Location → Prop) (fs' : FileSystem) : Prop where
  sound : fs'.Sound
  at_eq : ∀ k e, fs.at k = some e → ¬T k → fs'.at k = some e

variable {T T' : Location → Prop} {fs'' : FileSystem}

theorem Spares.refl (hs : fs.Sound) : Spares fs T fs := ⟨hs, fun _ _ h _ => h⟩

theorem Spares.trans (h : Spares fs T fs') (h' : Spares fs' T fs'') : Spares fs T fs'' :=
  ⟨h'.sound, fun k e he hk => h'.at_eq k e (h.at_eq k e he hk) hk⟩

theorem Spares.mono (h : Spares fs T fs') (hT : ∀ k, (fs.at k).isSome → T k → T' k) :
    Spares fs T' fs' :=
  ⟨h.sound, fun k e he hk => h.at_eq k e he fun hc => hk (hT k (by simp [he]) hc)⟩

theorem Edit.spares {o : Option Entry} (h : Edit fs l o fs') (hT : (fs.at l).isSome → T l) :
    Spares fs T fs' where
  sound := h.sound
  at_eq k e he hk := by
    rw [h.at_of_ne fun hc => hk ?_, he]
    subst hc
    exact hT (by simp [he])

theorem Spares.walk {n : Nat} {xs : List Bytes} {d : Location} {s : Bool}
    (h : Spares fs (fun _ => False) fs') (hs : fs.Sound)
    (hwalk : fs.walk ⟨true, true⟩ n [] xs = .ok (.entry d e s)) :
    fs'.walk ⟨true, true⟩ n [] xs = .ok (.entry d e s) := by
  refine (walks_of_walk hwalk).congr hs rfl ⟨_, at_nil fs⟩ fun k _ hk => ?_
  obtain ⟨x, hx⟩ := Option.isSome_iff_exists.1 hk
  rw [hx, h.at_eq k x hx id]

theorem Leads.spared {d : Location} (h : Leads fs f d) (hs : fs.Sound)
    (hfs : Spares fs (fun _ => False) fs') : Leads fs' f d where
  absolute := h.absolute
  noNul := h.noNul
  tidy := h.tidy
  walk := by
    obtain ⟨m, s, hwalk⟩ := h.walk
    exact ⟨m, s, hfs.walk hs hwalk⟩

theorem Leads.beside {d : Location} {o : Option Entry} (h : Leads fs f d) (hs : fs.Sound)
    (hfree : fs.at l = none) (he : Edit fs l o fs') : Leads fs' f d :=
  h.spared hs (he.spares (by simp [hfree]))

theorem Leads.past_file {d : Location} {m : Nat} {o : Option Entry} (h : Leads fs f d) (hs : fs.Sound)
    (hfile : fs.at l = some (.file m content)) (he : Edit fs l o fs') : Leads fs' f d := by
  obtain ⟨n, s, hwalk⟩ := h.walk
  refine h.congr fun k hk => he.at_of_ne ?_
  rintro rfl
  obtain ⟨x, hx, hkind⟩ := (walks_of_walk hwalk).occupied hs rfl ⟨_, at_nil fs⟩ rfl k hk
  obtain rfl : .file m content = x := Option.some.inj (hfile.symm.trans hx)
  cases hkind rfl

theorem makeDirectory_spares (hs : fs.Sound) (hp : p.isAbsolute = true)
    (h : fs.makeDirectory p = .ok fs') : Spares fs T fs' := by
  obtain ⟨a, w, ha, -, hnone, rfl⟩ := makeDirectory_inv h
  exact (Edit.insert hs (approach_directory hs hp ha) (.inr (by simp [hnone]))).spares
    fun hc => by simp [hnone] at hc

theorem removeFile_spares (hs : fs.Sound) (h : fs.removeFile p = .ok fs') :
    Spares fs (fs.spot? p = some ·) fs' := by
  obtain ⟨a, w, e, ha, hw, he, hdir, rfl⟩ := removeFile_inv h
  refine (Edit.erase hs (hs.none_in ?_)).spares fun _ => spot?_of_approach ha hw
  rintro m hm
  obtain rfl := Option.some.inj (he.symm.trans hm)
  cases hdir

theorem removeDirectory_spares (hs : fs.Sound) (h : fs.removeDirectory p = .ok fs') :
    Spares fs (fs.spot? p = some ·) fs' := by
  obtain ⟨a, w, ha, hw, hempty, rfl⟩ := removeDirectory_inv h
  exact (Edit.erase hs (children_eq_nil.1 hempty)).spares fun _ => spot?_of_approach ha hw

theorem rename_spares (hs : fs.Sound) (hq : q.isAbsolute = true) (h : fs.rename p q = .ok fs') :
    Spares fs (fun k => (∃ l ∈ fs.spot? p, l <:+ k) ∨ fs.spot? q = some k) fs' := by
  obtain ⟨a, v, b, w, e, ha, hv, hb, hw, -, ⟨-, rfl⟩ | ⟨hmove, -, rfl⟩⟩ := rename_inv hs h
  · exact Spares.refl hs
  · refine ⟨hs.relocate hmove (approach_directory hs hq hb), fun k e he hk => ?_⟩
    rw [at_relocate hs hmove, if_neg, if_neg, he]
    · exact fun hc => hk (.inl ⟨_, spot?_of_approach ha hv, hc⟩)
    · intro hc
      by_cases heq : w :: b.directory = k
      · exact hk (.inr (heq ▸ spot?_of_approach hb hw))
      · rw [hs.none_below_empty hmove.vacant hc heq] at he
        cases he

theorem copy_spares (hs : fs.Sound) (hq : q.isAbsolute = true) (h : fs.copy p q = .ok fs') :
    Spares fs (fs.goal? q = some ·) fs' := by
  obtain ⟨_, _, _, -, k, n, hgoal, -, hedit⟩ := copy_edit hs hq h
  exact hedit.spares fun _ => hgoal

theorem fill_spares (hs : fs.Sound) (h : fs.fill p content = .ok fs') :
    Spares fs (fs.goal? p = some ·) fs' := by
  obtain ⟨⟨l, e⟩, hentry, h⟩ := exists_of_bind (eq_ok_of_named h)
  obtain ⟨hgoal, hat⟩ := goal?_of_entryAt hentry
  cases e with
  | file m c =>
    obtain rfl := Except.ok.inj h
    exact (Edit.insert_file hs (.inl hat) (by simp [hat]) _).spares fun _ => hgoal
  | _ => cases h

theorem write_spares (hs : fs.Sound) (hp : p.isAbsolute = true) (h : fs.write p content = .ok fs') :
    Spares fs (fs.goal? p = some ·) fs' := by
  obtain ⟨⟨l, fs₁⟩, hopen, h⟩ := exists_of_bind h
  obtain ⟨hgoal, -, m, hedit⟩ := openEmpty_edit hs hp hopen
  dsimp only at h
  split at h
  · obtain rfl := Except.ok.inj h
    refine (hedit.trans (Edit.insert_file hedit.sound (.inl hedit.at_self) ?_ _)).spares fun _ => hgoal
    simp [hedit.at_self]
  · obtain rfl := Except.ok.inj h
    exact hedit.spares fun _ => hgoal

theorem at_insert_nil (fs : FileSystem) (e : Entry) (k : Location) (hk : k ≠ []) :
    (fs.insert [] e).at k = fs.at k := by
  rw [at_of_ne_nil _ hk, at_of_ne_nil _ hk, insert, if_pos rfl]

theorem Sound.insert_nil (hs : fs.Sound) (e : Entry) : (fs.insert [] e).Sound := by
  intro x hx
  obtain ⟨hne, hdir⟩ := hs x (by simpa [FileSystem.insert] using hx)
  refine ⟨hne, ?_⟩
  by_cases htail : x.1.tail = []
  · rw [htail, at_nil]
    rfl
  · rw [at_insert_nil fs e _ htail]
    exact hdir

theorem setMode_spares (hs : fs.Sound) (h : fs.setMode p mode = .ok fs') :
    Spares fs (fs.goal? p = some ·) fs' := by
  obtain ⟨⟨l, e⟩, hentry, h⟩ := exists_of_bind (eq_ok_of_named h)
  obtain ⟨hgoal, hat⟩ := goal?_of_entryAt hentry
  obtain rfl := Except.ok.inj h
  cases l with
  | nil =>
    refine ⟨hs.insert_nil _, fun k x hx hk => ?_⟩
    rw [at_insert_nil fs _ k, hx]
    rintro rfl
    exact hk hgoal
  | cons w d =>
    refine (Edit.insert hs (hs.parent hat) ?_).spares fun _ => hgoal
    cases e with
    | directory m => exact .inl rfl
    | _ => exact .inr (by simp [hat])

/-- A temporary file comes to a free place in the directory that its path leads to, and its own path
is one that the system takes. -/
theorem makeTemporary_inv (hs : fs.Sound) (hp : p.isAbsolute = true)
    (h : fs.makeTemporary p = .ok (f, fs')) :
    ∃ d e s k, fs.walk ⟨true, true⟩ mostLinks [] (p.named ++ [[dot]]) = .ok (.entry d e s) ∧
      fs.at (temporaryName k :: d) = none ∧ f = p.join ⟨temporaryName k⟩ ∧
      Edit fs (temporaryName k :: d) (some (.file 0o600 [])) fs' ∧ p.hasNul = false ∧
      fs.yields d = true ∧ (temporaryName k).length ≤ longestName ∧
      (p.join ⟨temporaryName k⟩).bytes.length < longestPath := by
  have hnul := noNul_of_named h
  obtain ⟨a, ha, h⟩ := exists_of_bind (eq_ok_of_named h)
  split at h
  · cases h
  next hy =>
  dsimp only at h
  split at h
  · cases h
  next hlong =>
  obtain ⟨rfl, rfl⟩ := Prod.mk.inj (Except.ok.inj h)
  obtain ⟨m, hm⟩ := approach_directory hs (Path.isAbsolute_join_name hp (isName_temporaryName 0)) ha
  obtain ⟨k, hk, hfree⟩ := fs.nextTemporary_spec a.directory
  have hname : freeName (fs.children a.directory) (fs.children a.directory).length 0 =
      temporaryName k := hk
  rw [hk] at hfree
  rw [hname] at hlong ⊢
  simp only [Bool.or_eq_true, decide_eq_true_eq, not_or, Nat.not_lt, Nat.not_le] at hlong
  have hfits : (p.join ⟨temporaryName 0⟩).bytes.length < longestPath := by
    by_contra hlong
    rw [approach, if_neg (Path.bytes_join_name_ne_nil p (isName_temporaryName 0)),
      if_pos (Nat.not_lt.1 hlong)] at ha
    cases ha
  rw [approach_join_name hp (isName_temporaryName 0) hfits] at ha
  split at ha
  · next l e s hwalk =>
    obtain rfl := Except.ok.inj ha
    exact ⟨l, e, s, k, hwalk, hfree, rfl, Edit.insert hs ⟨m, hm⟩ (.inr (by simp [hfree])), hnul,
      by simpa using hy, hlong⟩
  · cases ha
  · cases ha

/-! ### Places of names and of real paths -/

variable {d : Location} {s : Bool}

theorem approach_of_spot? (h : fs.spot? p = some l) :
    ∃ a, fs.approach p = .ok a ∧ a.location? = some l := by
  rw [spot?] at h
  split at h
  · next a ha => exact ⟨a, ha, h⟩
  · cases h

theorem spot?_join (hp : p.isAbsolute = true) (hw : IsName w)
    (hwalk : fs.walk ⟨true, true⟩ mostLinks [] (p.named ++ [[dot]]) = .ok (.entry d e s))
    (h : fs.spot? (p.join ⟨w⟩) = some l) : l = w :: d := by
  obtain ⟨a, ha, hl⟩ := approach_of_spot? h
  have hfits : (p.join ⟨w⟩).bytes.length < longestPath := by
    by_contra hlong
    rw [approach, if_neg (Path.bytes_join_name_ne_nil p hw), if_pos (Nat.not_lt.1 hlong)] at ha
    cases ha
  rw [approach_join_name hp hw hfits, hwalk] at ha
  obtain rfl := Except.ok.inj ha
  exact (Option.some.inj hl).symm

theorem goal?_join (hp : p.isAbsolute = true) (hw : IsName w)
    (hwalk : fs.walk ⟨true, true⟩ mostLinks [] (p.named ++ [[dot]]) = .ok (.entry d e s))
    (hleaf : ∀ t, fs.at (w :: d) ≠ some (.link t)) (h : fs.goal? (p.join ⟨w⟩) = some l) :
    l = w :: d := by
  rw [goal?] at h
  split at h
  · next r hr =>
    rw [find, if_neg (Path.bytes_join_name_ne_nil p hw)] at hr
    split at hr
    · cases hr
    rw [start_of_isAbsolute (Path.isAbsolute_join_name hp hw), pathPieces_join_name p hw,
      walk_last hw (.inr (.inr hleaf)) hwalk, lookUp] at hr
    split at hr
    · cases hr
    obtain rfl := Except.ok.inj hr
    rw [← Option.some.inj h, foundAt]
    split <;> rfl
  · cases h

theorem spot?_ofNames {k : Location} (hn : ∀ v ∈ k, IsName v)
    (hd : ∀ j, j <:+ k → j ≠ k → ∃ m, fs.at j = some (.directory m))
    (h : fs.spot? (Path.ofNames true k) = some l) : l = k := by
  obtain ⟨a, ha, hl⟩ := approach_of_spot? h
  cases k with
  | nil =>
    have happroach : fs.approach (Path.ofNames true []) = .ok ⟨[], .root, true⟩ := rfl
    rw [happroach] at ha
    obtain rfl := Except.ok.inj ha
    cases hl
  | cons w k =>
    have habove : ∀ j, j <:+ k → ∃ m, fs.at j = some (.directory m) := fun j hj =>
      hd j (hj.trans (List.suffix_cons w k)) fun hc => by
        rw [hc] at hj
        exact absurd hj.length_le (by simp)
    obtain ⟨-, -, rfl⟩ := clear_of_approach hn habove ha
    exact (Option.some.inj hl).symm

theorem realLocation_spec (hs : fs.Sound) (hp : p.isAbsolute = true) (h : fs.realLocation p = .ok l) :
    (∃ e, fs.at l = some e) ∧ ∀ v ∈ l, IsName v := by
  obtain ⟨r, hr, h⟩ := exists_of_bind h
  obtain ⟨x, hx, h⟩ := exists_of_bind h
  obtain rfl := Except.ok.inj h
  obtain ⟨hends, hnames⟩ := find_ends hs hp hr
  cases r with
  | vacant d w s => cases hx
  | entry k e s =>
    rw [Found.reached] at hx
    split at hx
    · cases hx
    obtain rfl := Except.ok.inj hx
    exact ⟨⟨e, hends.1⟩, hnames⟩

/-! ### Reading -/

/-- The places that are looked at where a path is followed. -/
def route (fs : FileSystem) (p : Path) : List Location :=
  fs.walkWay mostLinks (start fs.workplace p) (pathPieces p)

/-- A file that stands at the end of a path is read there. -/
theorem read_of_entryAt {m : Nat} {c : Bytes} (hnul : p.hasNul = false)
    (h : fs.entryAt false p = .ok (l, .file m c)) (hr : (Entry.file m c).isReadable = true) :
    fs.read p = .ok c := by
  obtain ⟨r, hfind, hreached⟩ := exists_of_bind h
  have hfollow : fs.find ⟨true, true⟩ p = .ok r := by
    rw [find] at hfind ⊢
    split at hfind
    · cases hfind
    split at hfind
    · cases hfind
    next hne hfits =>
    rw [if_neg hne, if_neg hfits]
    refine ((walks_of_walk hfind).followed ?_).walk
    rintro k t s rfl
    rw [Found.reached] at hreached
    split at hreached
    · cases hreached
    · cases hreached
  have hentry : fs.entryAt true p = .ok (l, .file m c) := by
    rw [entryAt, hfollow]
    exact hreached
  rw [read, named_of_noNul hnul, hentry]
  simp [bind, Except.bind, hr]

theorem read_of_place {m : Nat} {c : Bytes} (hnul : p.hasNul = false)
    (h : (fs.entryAt true p).toOption.map (·.1) = some l) (hl : fs.at l = some (.file m c))
    (hr : (Entry.file m c).isReadable = true) : fs.read p = .ok c := by
  cases hentry : fs.entryAt true p with
  | error err => simp [hentry, Except.toOption] at h
  | ok x =>
    obtain ⟨k, e⟩ := x
    obtain rfl : k = l := by simpa [hentry, Except.toOption] using h
    obtain rfl := Option.some.inj ((goal?_of_entryAt hentry).2.symm.trans hl)
    rw [read, named_of_noNul hnul, hentry]
    simp [bind, Except.bind, hr]

/-- A path leads to the same entry in every tree that has all on the way to it. -/
theorem entryAt_congr {x : Location × Entry} (hs : fs.Sound) (hp : p.isAbsolute = true)
    (h : fs.entryAt true p = .ok x)
    (hk : ∀ k ∈ fs.route p, (fs.at k).isSome → fs'.at k = fs.at k) : fs'.entryAt true p = .ok x := by
  have hroute : fs.route p = fs.walkWay mostLinks [] (pathPieces p) := by
    rw [route, start_of_isAbsolute hp]
  rw [hroute] at hk
  obtain ⟨r, hr, hx⟩ := exists_of_bind h
  have hsame : fs'.find ⟨true, true⟩ p = fs.find ⟨true, true⟩ p := by
    cases r with
    | vacant d w s => cases hx
    | entry l e s =>
      rw [hr]
      rw [find] at hr ⊢
      split at hr
      · cases hr
      split at hr
      · cases hr
      next hne hfits =>
      rw [start_of_isAbsolute hp] at hr ⊢
      rw [if_neg hne, if_neg hfits]
      exact (walks_of_walk hr).congr hs rfl ⟨_, at_nil fs⟩ hk
  rw [← h, entryAt, entryAt, hsame]

theorem read_congr (hs : fs.Sound) (hp : p.isAbsolute = true) (h : fs.read p = .ok content)
    (hk : ∀ k ∈ fs.route p, (fs.at k).isSome → fs'.at k = fs.at k) : fs'.read p = .ok content := by
  obtain ⟨x, hentry, -⟩ := exists_of_bind (eq_ok_of_named h)
  rw [← h, read, read, entryAt_congr hs hp hentry hk, hentry]

theorem Spares.read (h : Spares fs (fun _ => False) fs') (hs : fs.Sound) (hp : p.isAbsolute = true)
    (hc : fs.read p = .ok content) : fs'.read p = .ok content := by
  refine read_congr hs hp hc fun k _ hk => ?_
  obtain ⟨e, he⟩ := Option.isSome_iff_exists.1 hk
  rw [he, h.at_eq k e he id]

end Retrace.FileSystem
