import Mathlib.Data.List.Infix
import Retrace.Proofs.FileSystem.Walk

/-!
Where paths lead. A path that leads to a directory (`Leads`) makes every name joined to it the path of
a place in that directory (`Aims`), whatever links are on the way. A path without links on its way
leads to the place that it spells (`Clear.leads`), and an operation that gets through to the end of
such a path shows that all directories on its way are open (`clear_of_approach`).
-/
namespace Retrace.FileSystem

open Retrace.Path (IsName dot slash named_join_name bytes_join_name_ne_nil getLast?_join_name
  isAbsolute_join_name hasNul_join_name)

variable {fs fs' : FileSystem} {n : Nat} {here d : Location} {p f : Path} {w : Bytes}
  {xs : List Bytes} {follow : Bool}

/-! ### Directories and the names in them -/

/-- A path leads to a directory in which names can be looked up. -/
structure Leads (fs : FileSystem) (f : Path) (d : Location) : Prop where
  absolute : f.isAbsolute = true
  noNul : f.hasNul = false
  tidy : f.Tidy
  walk : ∃ m s, fs.walk ⟨true, true⟩ mostLinks [] (f.named ++ [[dot]]) = .ok (.entry d (.directory m) s)

def way (fs : FileSystem) (f : Path) : List Location := fs.walkWay mostLinks [] (f.named ++ [[dot]])

theorem Leads.congr (h : Leads fs f d) (hw : ∀ k ∈ fs.way f, fs'.at k = fs.at k) : Leads fs' f d :=
  ⟨h.absolute, h.noNul, h.tidy, by rw [walk_congr hw]; exact h.walk⟩

theorem way_congr (hw : ∀ k ∈ fs.way f, fs'.at k = fs.at k) : fs'.way f = fs.way f :=
  walkWay_congr hw

theorem Leads.directory (h : Leads fs f d) : ∃ m, fs.at d = some (.directory m) := by
  obtain ⟨m, s, h⟩ := h.walk
  exact ⟨m, walk_entry h⟩

/-- The path of a name that can be looked up in a directory. -/
structure Aims (fs : FileSystem) (f : Path) (d : Location) (w : Bytes) : Prop extends
    Leads fs f d where
  name : IsName w
  noZero : (0 : UInt8) ∉ w
  short : w.length ≤ longestName
  fits : (f.join ⟨w⟩).bytes.length < longestPath

theorem Aims.of_leads (h : Aims fs f d w) (h' : Leads fs' f d) : Aims fs' f d w :=
  ⟨h', h.name, h.noZero, h.short, h.fits⟩

theorem start_of_isAbsolute (hp : p.isAbsolute = true) : start here p = [] := by simp [start, hp]

theorem approach_join_name (hf : f.isAbsolute = true) (hw : IsName w)
    (hfits : (f.join ⟨w⟩).bytes.length < longestPath) :
    fs.approach (f.join ⟨w⟩) =
      match fs.walk ⟨true, true⟩ mostLinks [] (f.named ++ [[dot]]) with
      | .ok (.entry l _ _) => .ok ⟨l, .name w, false⟩
      | .ok (.vacant ..) => .error .noEntry
      | .error e => .error e := by
  obtain ⟨hw₁, hw₂, hw₃, -⟩ := id hw
  have hpieces : (f.join ⟨w⟩).pieces.filter (· ≠ []) = f.named ++ [w] := named_join_name f hw
  rw [approach, if_neg (bytes_join_name_ne_nil f hw), if_neg (Nat.not_le.2 hfits)]
  simp only [hpieces, List.reverse_append, List.reverse_cons, List.reverse_nil, List.nil_append,
    List.singleton_append, List.reverse_reverse, start_of_isAbsolute (isAbsolute_join_name hf hw),
    getLast?_join_name f hw, decide_false, endingOf, hw₂, hw₃, if_false]
  cases fs.walk ⟨true, true⟩ mostLinks [] (f.named ++ [[dot]]) with
  | error e => rfl
  | ok x => cases x <;> rfl

theorem Leads.approach (h : Leads fs f d) (hw : IsName w)
    (hfits : (f.join ⟨w⟩).bytes.length < longestPath) :
    fs.approach (f.join ⟨w⟩) = .ok ⟨d, .name w, false⟩ := by
  obtain ⟨m, s, hwalk⟩ := h.walk
  rw [approach_join_name h.absolute hw hfits, hwalk]

theorem pathPieces_join_name (f : Path) (hw : IsName w) :
    pathPieces (f.join ⟨w⟩) = f.named ++ [w] := by
  have hpieces : (f.join ⟨w⟩).pieces.filter (· ≠ []) = f.named ++ [w] := named_join_name f hw
  simp only [pathPieces, hpieces, getLast?_join_name f hw, and_false, if_false]

theorem Aims.find (h : Aims fs f d w)
    (hleaf : follow = false ∨ ∀ t, fs.at (w :: d) ≠ some (.link t)) :
    fs.find ⟨follow, true⟩ (f.join ⟨w⟩) = .ok (fs.foundAt d w) := by
  obtain ⟨m, s, hwalk⟩ := h.walk
  rw [FileSystem.find, if_neg (bytes_join_name_ne_nil f h.name), if_neg (Nat.not_le.2 h.fits),
    start_of_isAbsolute (isAbsolute_join_name h.absolute h.name), pathPieces_join_name f h.name]
  rw [walk_last h.name (hleaf.imp_right .inr) hwalk, lookUp, if_neg (Nat.not_lt.2 h.short)]

theorem Aims.hasNul (h : Aims fs f d w) : (f.join ⟨w⟩).hasNul = false := by
  rw [hasNul_join_name f h.name, h.noNul]
  simpa using h.noZero

structure Dead (fs : FileSystem) (p : Path) : Prop where
  find : p.hasNul = true ∨ ∀ follow, fs.find ⟨follow, true⟩ p = .error .nameTooLong
  approach : p.hasNul = true ∨ fs.approach p = .error .nameTooLong ∨
    ∃ a w, fs.approach p = .ok a ∧ a.ending = .name w ∧ fs.standing a w = .error .nameTooLong

theorem Leads.aims_or_dead (h : Leads fs f d) (hw : IsName w) :
    Aims fs f d w ∨ Dead fs (f.join ⟨w⟩) := by
  by_cases hz : (0 : UInt8) ∈ w
  · have hnul : (f.join ⟨w⟩).hasNul = true := by simp [hasNul_join_name f hw, hz]
    exact .inr ⟨.inl hnul, .inl hnul⟩
  by_cases hfits : (f.join ⟨w⟩).bytes.length < longestPath
  · by_cases hshort : w.length ≤ longestName
    · exact .inl ⟨h, hw, hz, hshort, hfits⟩
    · have hlong : longestName < w.length := Nat.not_le.1 hshort
      obtain ⟨m, s, hwalk⟩ := h.walk
      refine .inr ⟨.inr fun follow => ?_, .inr (.inr
        ⟨_, w, h.approach hw hfits, rfl, by simp [standing, hlong]⟩)⟩
      rw [FileSystem.find, if_neg (bytes_join_name_ne_nil f hw), if_neg (Nat.not_le.2 hfits),
        start_of_isAbsolute (isAbsolute_join_name h.absolute hw), pathPieces_join_name f hw,
        walk_last hw (.inr (.inl hlong)) hwalk, lookUp, if_pos hlong]
  · have hlong : longestPath ≤ (f.join ⟨w⟩).bytes.length := Nat.not_lt.1 hfits
    refine .inr ⟨.inr fun follow => ?_, .inr (.inl ?_)⟩
    · rw [FileSystem.find, if_neg (bytes_join_name_ne_nil f hw), if_pos hlong]
    · rw [FileSystem.approach, if_neg (bytes_join_name_ne_nil f hw), if_pos hlong]

theorem pathPieces_of_tidy (hf : f.Tidy) : pathPieces f = f.named := by
  rcases hf with rfl | ⟨ws, w, hne, hw, -, hpieces⟩
  · rfl
  · have hbytes : f.bytes = Path.glue ws ++ slash :: w := by
      rw [← Path.glue_append hne, ← hpieces]; exact (Path.glue_split _).symm
    have hmem : w ∈ f.pieces := by simp [hpieces]
    have hslash : slash ∉ w := Path.not_mem_of_mem_split hmem
    have hlast : f.bytes.getLast? ≠ some slash := by
      rw [hbytes, List.getLast?_append_of_ne_nil _ (by simp), List.getLast?_cons_of_ne_nil hw]
      exact fun hc => hslash (List.mem_of_getLast? hc)
    simp only [pathPieces, hlast, and_false, if_false]
    rfl

theorem Leads.find (h : Leads fs f d) (hfits : f.bytes.length < longestPath) :
    ∃ k x, fs.find ⟨false, true⟩ f = .ok (.entry k x false) := by
  obtain ⟨m, s, hwalk⟩ := h.walk
  rw [FileSystem.find, if_neg (Path.bytes_ne_nil_of_isAbsolute h.absolute),
    if_neg (Nat.not_le.2 hfits), start_of_isAbsolute h.absolute, pathPieces_of_tidy h.tidy]
  exact walk_present hwalk

def Inside (fs : FileSystem) (d : Location) (fs' : FileSystem) : Prop :=
  ∀ k, (∀ v, k ≠ v :: d) → fs'.at k = fs.at k

/-- A path leads to a directory, whatever changes in that directory. -/
def Firm (fs : FileSystem) (f : Path) (d : Location) : Prop :=
  ∀ fs', Inside fs d fs' → Leads fs' f d

theorem Firm.leads (h : Firm fs f d) : Leads fs f d := h fs fun _ _ => rfl

theorem Leads.firm (h : Leads fs f d) (hw : ∀ v, v :: d ∉ fs.way f) : Firm fs f d :=
  fun _ hi => h.congr fun k hk => hi k fun v hv => hw v (hv ▸ hk)

/-! ### Paths without links on their way -/

structure Clear (fs : FileSystem) (d : Location) : Prop where
  searchable : ∀ k, k <:+ d → ∃ m, fs.at k = some (.directory m) ∧ (Entry.directory m).isSearchable = true
  short : ∀ w ∈ d, w.length ≤ longestName

theorem Clear.admits (h : Clear fs d) {k : Location} (hk : k <:+ d) : fs.admits k = true := by
  obtain ⟨m, hm, hs⟩ := h.searchable k hk
  simp [FileSystem.admits, hm, hs]

theorem Clear.directory (h : Clear fs d) : ∃ m, fs.at d = some (.directory m) := by
  obtain ⟨m, hm, -⟩ := h.searchable d (List.suffix_refl d)
  exact ⟨m, hm⟩

theorem Clear.congr (h : Clear fs d) (hk : ∀ k, k <:+ d → fs'.at k = fs.at k) : Clear fs' d where
  searchable k hd := by rw [hk k hd]; exact h.searchable k hd
  short := h.short

theorem stroll_down {detour : Location → Path → List Bytes → Except Errno Found} {m : Nat}
    (hw : IsName w) (hd : fs.at (w :: here) = some (.directory m)) :
    stroll fs ⟨follow, true⟩ detour here (w :: xs) =
      if !fs.admits here then .error .denied
      else if longestName < w.length then .error .nameTooLong
      else stroll fs ⟨follow, true⟩ detour (w :: here) xs := by
  obtain ⟨hw₁, hw₂, hw₃, -⟩ := hw
  simp only [stroll, hw₁, hw₂, hw₃, hd, if_false, Bool.true_or, Bool.true_and]

theorem stroll_clear {detour : Location → Path → List Bytes → Except Errno Found}
    (hn : ∀ w ∈ d, IsName w) (hd : ∀ k, k <:+ d → ∃ m, fs.at k = some (.directory m))
    (ha : ∀ k, k <:+ d → k ≠ d → fs.admits k = true) (hs : ∀ w ∈ d, w.length ≤ longestName) :
    stroll fs ⟨follow, true⟩ detour [] (d.reverse ++ xs) = stroll fs ⟨follow, true⟩ detour d xs := by
  induction d generalizing xs with
  | nil => rfl
  | cons w d ih =>
    have hsuf := List.suffix_cons w d
    obtain ⟨m, hm⟩ := hd _ (List.suffix_refl _)
    rw [List.reverse_cons, List.append_assoc, List.singleton_append,
      ih (fun v hv => hn v (List.mem_cons_of_mem _ hv)) (fun k hk => hd k (hk.trans hsuf))
        (fun k hk hne => ha k (hk.trans hsuf) ?_) (fun v hv => hs v (List.mem_cons_of_mem _ hv)),
      stroll_down (hn w List.mem_cons_self) hm, ha d hsuf (by simp)]
    · simp [Nat.not_lt.2 (hs w List.mem_cons_self)]
    · rintro rfl
      exact absurd hk.length_le (by simp)

/-- What a walk that went well says about the directories on its way. -/
theorem clear_of_stroll {detour : Location → Path → List Bytes → Except Errno Found} {r : Found}
    (hn : ∀ w ∈ d, IsName w) (hd : ∀ k, k <:+ d → ∃ m, fs.at k = some (.directory m))
    (h : stroll fs ⟨follow, true⟩ detour [] (d.reverse ++ xs) = .ok r) :
    (∀ k, k <:+ d → k ≠ d → fs.admits k = true) ∧ (∀ w ∈ d, w.length ≤ longestName) ∧
      stroll fs ⟨follow, true⟩ detour d xs = .ok r := by
  induction d generalizing xs with
  | nil => exact ⟨fun k hk hne => absurd (List.suffix_nil.1 hk) hne, by simp, h⟩
  | cons w d ih =>
    obtain ⟨m, hm⟩ := hd _ (List.suffix_refl _)
    rw [List.reverse_cons, List.append_assoc, List.singleton_append] at h
    obtain ⟨ha, hs, h⟩ := ih (fun v hv => hn v (List.mem_cons_of_mem _ hv))
      (fun k hk => hd k (hk.trans (List.suffix_cons w d))) h
    rw [stroll_down (hn w List.mem_cons_self) hm] at h
    by_cases hadm : fs.admits d = true
    · by_cases hlen : longestName < w.length
      · simp [hadm, hlen] at h
      · simp only [hadm, hlen, Bool.not_true, Bool.false_eq_true, if_false] at h
        refine ⟨fun k hk hne => ?_, ?_, h⟩
        · rcases List.suffix_cons_iff.1 hk with rfl | hk
          · exact absurd rfl hne
          · by_cases hkd : k = d
            · exact hkd ▸ hadm
            · exact ha k hk hkd
        · rintro v hv
          rcases List.mem_cons.1 hv with rfl | hv
          · exact Nat.not_lt.1 hlen
          · exact hs v hv
    · simp [hadm] at h

theorem walk_eq_stroll (fs : FileSystem) (manner : Manner) (n : Nat) :
    ∃ detour, fs.walk manner n = stroll fs manner detour := by
  cases n with
  | zero => exact ⟨_, rfl⟩
  | succ n => exact ⟨_, rfl⟩

theorem Clear.walk (h : Clear fs d) (hn : ∀ w ∈ d, IsName w) :
    ∃ m, fs.walk ⟨true, true⟩ mostLinks [] (d.reverse ++ [[dot]]) =
      .ok (.entry d (.directory m) false) := by
  obtain ⟨m, hm⟩ := h.directory
  obtain ⟨detour, hdetour⟩ := walk_eq_stroll fs ⟨true, true⟩ mostLinks
  refine ⟨m, ?_⟩
  rw [hdetour, stroll_clear hn (fun k hk => ?_) (fun k hk _ => h.admits hk) h.short]
  · simp [stroll, h.admits (List.suffix_refl d), arrive, hm]
  · obtain ⟨m, hm, -⟩ := h.searchable k hk
    exact ⟨m, hm⟩

theorem Clear.leads (h : Clear fs d) (hn : ∀ w ∈ d, IsName w)
    (hz : (Path.ofNames true d).hasNul = false) : Leads fs (Path.ofNames true d) d where
  absolute := rfl
  noNul := hz
  tidy := Path.tidy_ofNames hn
  walk := by
    obtain ⟨m, hwalk⟩ := h.walk hn
    exact ⟨m, false, by rw [Path.named_ofNames hn, hwalk]⟩

theorem Clear.firm (h : Clear fs d) (hn : ∀ w ∈ d, IsName w)
    (hz : (Path.ofNames true d).hasNul = false) : Firm fs (Path.ofNames true d) d := by
  refine fun fs' hi => (h.congr fun k hk => hi k fun v hv => ?_).leads hn hz
  exact absurd (hv ▸ hk).length_le (by simp)

theorem mem_strollWay {detour : Location → Path → List Bytes → List Location}
    (hn : ∀ w ∈ d, IsName w) (hd : ∀ k, k <:+ d → ∃ m, fs.at k = some (.directory m)) {k : Location}
    (hk : k ∈ strollWay fs detour [] (d.reverse ++ xs)) : k <:+ d ∨ k ∈ strollWay fs detour d xs := by
  induction d generalizing xs with
  | nil => exact .inr hk
  | cons w d ih =>
    have hsuf := List.suffix_cons w d
    obtain ⟨m, hm⟩ := hd _ (List.suffix_refl _)
    obtain ⟨hw₁, hw₂, hw₃, -⟩ := hn w List.mem_cons_self
    rw [List.reverse_cons, List.append_assoc, List.singleton_append] at hk
    rcases ih (fun v hv => hn v (List.mem_cons_of_mem _ hv)) (fun k hk => hd k (hk.trans hsuf)) hk
      with hk | hk
    · exact .inl (hk.trans hsuf)
    · simp only [strollWay, hw₁, hw₂, hw₃, or_self, if_false, hm, List.mem_cons] at hk
      rcases hk with rfl | rfl | hk
      · exact .inl hsuf
      · exact .inl (List.suffix_refl _)
      · exact .inr hk

theorem Clear.mem_way (h : Clear fs d) (hn : ∀ w ∈ d, IsName w) {k : Location}
    (hk : k ∈ fs.way (Path.ofNames true d)) : k <:+ d := by
  have hd : ∀ k, k <:+ d → ∃ m, fs.at k = some (.directory m) := fun k hk => by
    obtain ⟨m, hm, -⟩ := h.searchable k hk
    exact ⟨m, hm⟩
  rw [way, Path.named_ofNames hn, walkWay.eq_def] at hk
  rcases mem_strollWay hn hd hk with hk | hk
  · exact hk
  · simp only [strollWay, or_true, if_true, List.mem_cons, List.not_mem_nil, or_false, or_self] at hk
    exact hk ▸ List.suffix_refl d

theorem clear_of_tails (h : ∀ k ∈ d.tails, (fs.at k).any fun e => e.isDirectory && e.isSearchable)
    (hs : ∀ w ∈ d, w.length ≤ longestName) : Clear fs d where
  searchable k hk := by
    have hany := h k ((List.mem_tails k d).2 hk)
    cases he : fs.at k with
    | none => simp [he] at hany
    | some e =>
      cases e with
      | directory m => exact ⟨m, rfl, by simpa [he, Entry.isDirectory] using hany⟩
      | _ => simp [he, Entry.isDirectory] at hany
  short := hs

theorem clear_of_walk {r : Found} (hn : ∀ w ∈ d, IsName w)
    (hd : ∀ k, k <:+ d → ∃ m, fs.at k = some (.directory m))
    (h : fs.walk ⟨follow, true⟩ n [] (d.reverse ++ [w]) = .ok r) (hw : w = [dot] ∨ IsName w) :
    Clear fs d := by
  obtain ⟨detour, hdetour⟩ := walk_eq_stroll fs ⟨follow, true⟩ n
  rw [hdetour] at h
  obtain ⟨ha, hs, h⟩ := clear_of_stroll hn hd h
  have hne : w ≠ [] := by rcases hw with rfl | hw; exacts [by simp, hw.ne_nil]
  have hadm : fs.admits d = true := by
    by_contra hadm
    simp [stroll, hne, Bool.not_eq_true _ ▸ hadm] at h
  refine ⟨fun k hk => ?_, hs⟩
  obtain ⟨m, hm⟩ := hd k hk
  have hadm : fs.admits k = true := by
    by_cases hkd : k = d
    · exact hkd ▸ hadm
    · exact ha k hk hkd
  exact ⟨m, hm, by simpa [admits, hm] using hadm⟩

/-- An operation that gets to the name in a directory finds nothing but open directories before. -/
theorem clear_of_approach {a : Approach} (hn : ∀ v ∈ w :: d, IsName v)
    (hd : ∀ k, k <:+ d → ∃ m, fs.at k = some (.directory m))
    (h : fs.approach (Path.ofNames true (w :: d)) = .ok a) :
    Clear fs d ∧ (Path.ofNames true (w :: d)).bytes.length < longestPath ∧
      a = ⟨d, .name w, false⟩ := by
  have hw := hn w List.mem_cons_self
  have hnd : ∀ v ∈ d, IsName v := fun v hv => hn v (List.mem_cons_of_mem _ hv)
  rw [← Path.ofNames_join d hnd hw] at h ⊢
  by_cases hfits : ((Path.ofNames true d).join ⟨w⟩).bytes.length < longestPath
  · rw [approach_join_name rfl hw hfits, Path.named_ofNames hnd] at h
    cases hwalk : fs.walk ⟨true, true⟩ mostLinks [] (d.reverse ++ [[dot]]) with
    | error e => simp [hwalk] at h
    | ok r =>
      have hclear := clear_of_walk hnd hd hwalk (.inl rfl)
      obtain ⟨m, hm⟩ := hclear.walk hnd
      rw [hm] at h
      exact ⟨hclear, hfits, by simpa using h.symm⟩
  · rw [approach, if_neg (bytes_join_name_ne_nil _ hw), if_pos (Nat.not_lt.1 hfits)] at h
    cases h

theorem clear_of_find {r : Found} (hn : ∀ v ∈ w :: d, IsName v)
    (hd : ∀ k, k <:+ d → ∃ m, fs.at k = some (.directory m))
    (h : fs.find ⟨follow, true⟩ (Path.ofNames true (w :: d)) = .ok r) :
    Clear fs d ∧ w.length ≤ longestName ∧
      (Path.ofNames true (w :: d)).bytes.length < longestPath := by
  have hw := hn w List.mem_cons_self
  have hnd : ∀ v ∈ d, IsName v := fun v hv => hn v (List.mem_cons_of_mem _ hv)
  rw [← Path.ofNames_join d hnd hw] at h ⊢
  rw [FileSystem.find, if_neg (bytes_join_name_ne_nil _ hw)] at h
  by_cases hfits : ((Path.ofNames true d).join ⟨w⟩).bytes.length < longestPath
  · rw [if_neg (Nat.not_le.2 hfits), start_of_isAbsolute (isAbsolute_join_name rfl hw),
      pathPieces_join_name _ hw, Path.named_ofNames hnd] at h
    have hclear := clear_of_walk hnd hd h (.inr hw)
    refine ⟨hclear, ?_, hfits⟩
    obtain ⟨detour, hdetour⟩ := walk_eq_stroll fs ⟨follow, true⟩ mostLinks
    rw [hdetour, stroll_clear hnd hd (fun k hk _ => hclear.admits hk) hclear.short] at h
    obtain ⟨hw₁, hw₂, hw₃, -⟩ := hw
    by_contra hlong
    simp [stroll, hw₁, hw₂, hw₃, hclear.admits (List.suffix_refl d), Nat.not_le.1 hlong] at h
  · rw [if_pos (Nat.not_lt.1 hfits)] at h
    cases h

end Retrace.FileSystem
