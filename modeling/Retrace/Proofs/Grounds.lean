import Retrace.Manager.Basic
import Retrace.Proofs.Files

/-!
The directories of a store as places in the tree. What is done to the documents and backups stays
within them (`Tended`), and what is done apart from them leaves them alone (`Keeps.congr`).
-/
namespace Retrace

open FileSystem Retrace.Path

/-- The places of the directories of a store, and those that are looked at on the way to them. -/
structure Grounds where
  transactions : Location
  backups : Location
  checkpoints : Location
  ways : List Location
  deriving DecidableEq, Repr

namespace Grounds

variable {g : Grounds} {s : Store} {fs fs' fs'' : FileSystem} {d k l : Location} {w : Bytes}
  {o : Option Entry}

def folders (g : Grounds) : List Location := [g.transactions, g.backups, g.checkpoints]

/-- In one of the directories. -/
def Within (g : Grounds) (l : Location) : Prop := ∃ d ∈ g.folders, d <:+ l ∧ d ≠ l

/-- Neither in the directories nor above them or above anything on the way to them. -/
def Apart (g : Grounds) (l : Location) : Prop :=
  (∀ k ∈ g.folders ++ g.ways, ¬l <:+ k) ∧ ∀ d ∈ g.folders, ¬d <:+ l

instance (g : Grounds) (l : Location) : Decidable (g.Within l) := inferInstanceAs (Decidable (∃ _ ∈ _, _))

instance (g : Grounds) (l : Location) : Decidable (g.Apart l) := inferInstanceAs (Decidable (_ ∧ _))

theorem within_cons (hd : d ∈ g.folders) (w : Bytes) : g.Within (w :: d) :=
  ⟨d, hd, List.suffix_cons w d, by simp⟩

theorem Apart.ne_nil (h : g.Apart l) : l ≠ [] := by
  rintro rfl
  exact h.1 g.transactions (by simp [folders]) List.nil_suffix

theorem Apart.not_suffix_way (h : g.Apart l) (hk : k ∈ g.ways) : ¬l <:+ k :=
  h.1 k (List.mem_append_right _ hk)

theorem Apart.below (h : g.Apart l) (hk : l <:+ k) : g.Apart k := by
  refine ⟨fun j hj hkj => h.1 j hj (hk.trans hkj), fun d hd hdk => ?_⟩
  rcases List.suffix_or_suffix_of_suffix hk hdk with hl | hl
  · exact h.1 d (List.mem_append_left _ hd) hl
  · exact h.2 d hd hl

theorem Apart.not_within (h : g.Apart l) (hk : l <:+ k) : ¬g.Within k :=
  fun ⟨d, hd, hdk, _⟩ => (h.below hk).2 d hd hdk

theorem Apart.above_not_within (h : g.Apart l) (hk : k <:+ l) : ¬g.Within k :=
  fun ⟨d, hd, hdk, _⟩ => h.2 d hd (hdk.trans hk)

theorem Apart.sibling_not_within (h : g.Apart (w :: d)) (v : Bytes) : ¬g.Within (v :: d) := by
  rintro ⟨k, hk, hkd, hne⟩
  rcases List.suffix_cons_iff.1 hkd with rfl | hkd
  · exact hne rfl
  · exact h.2 k hk (hkd.trans (List.suffix_cons w d))

def Outside (g : Grounds) (l : Location) : Prop := ∀ d ∈ g.folders, ¬d <:+ l

instance (g : Grounds) (l : Location) : Decidable (g.Outside l) := inferInstanceAs (Decidable (∀ _ ∈ _, _))

def Inside (g : Grounds) (away : Location) : Prop := ∀ d ∈ g.folders, away <:+ d

theorem Inside.outside {away : Location} (h : g.Inside away) (hl : ¬away <:+ l) : g.Outside l :=
  fun d hd hdl => hl ((h d hd).trans hdl)

theorem Outside.above (h : g.Outside l) (hk : k <:+ l) : g.Outside k :=
  fun d hd hdk => h d hd (hdk.trans hk)

theorem Outside.not_within (h : g.Outside l) : ¬g.Within l :=
  fun ⟨d, hd, hdl, _⟩ => h d hd hdl

theorem Outside.child (h : g.Outside l) (w : Bytes) : ¬g.Within (w :: l) := by
  rintro ⟨d, hd, hdl, hne⟩
  exact h d hd ((List.suffix_cons_iff.1 hdl).resolve_left hne)

theorem Outside.beside (h : g.Outside l) (w : Bytes) : ¬g.Within (w :: l.tail) :=
  (h.above (List.tail_suffix l)).child w

end Grounds

def Store.directories (s : Store) : List Path :=
  [s.transactionsDirectory, s.backupsDirectory, s.checkpointsDirectory]

structure Stands (g : Grounds) (s : Store) (fs : FileSystem) : Prop where
  sound : fs.Sound
  transactions : Leads fs s.transactionsDirectory g.transactions
  backups : Leads fs s.backupsDirectory g.backups
  checkpoints : Leads fs s.checkpointsDirectory g.checkpoints
  ways : fs.way s.transactionsDirectory ++ fs.way s.backupsDirectory ++
    fs.way s.checkpointsDirectory = g.ways

namespace Stands

variable {g : Grounds} {s : Store} {fs fs' : FileSystem} {d : Location}

theorem directory (h : Stands g s fs) (hd : d ∈ g.folders) : ∃ m, fs.at d = some (.directory m) := by
  simp only [Grounds.folders, List.mem_cons, List.not_mem_nil, or_false] at hd
  rcases hd with rfl | rfl | rfl
  · exact h.transactions.directory
  · exact h.backups.directory
  · exact h.checkpoints.directory

/-- Changes that leave alone all that is looked at on the way leave the directories in place. -/
theorem congr (h : Stands g s fs) (hs : fs'.Sound) (hw : ∀ k ∈ g.ways, fs'.at k = fs.at k) :
    Stands g s fs' := by
  have htx : ∀ k ∈ fs.way s.transactionsDirectory, fs'.at k = fs.at k := fun k hk =>
    hw k (by rw [← h.ways]; simp [hk])
  have hbk : ∀ k ∈ fs.way s.backupsDirectory, fs'.at k = fs.at k := fun k hk =>
    hw k (by rw [← h.ways]; simp [hk])
  have hck : ∀ k ∈ fs.way s.checkpointsDirectory, fs'.at k = fs.at k := fun k hk =>
    hw k (by rw [← h.ways]; simp [hk])
  exact
    { sound := hs
      transactions := h.transactions.congr htx
      backups := h.backups.congr hbk
      checkpoints := h.checkpoints.congr hck
      ways := by rw [way_congr htx, way_congr hbk, way_congr hck, h.ways] }

end Stands

/-- The directories of a store are there and hold nothing but files. -/
structure Keeps (g : Grounds) (s : Store) (fs : FileSystem) : Prop extends Stands g s fs where
  open_ways : ∀ k ∈ g.ways, ¬g.Within k
  distinct : g.folders.Nodup
  files : ∀ d ∈ g.folders, ∀ w e, fs.at (w :: d) = some e → ∃ m c, e = .file m c

namespace Keeps

variable {g : Grounds} {s : Store} {fs fs' : FileSystem} {d k l : Location} {w : Bytes}
  {o : Option Entry}

theorem firm (h : Keeps g s fs) {f : Path} (hf : Leads fs f d) (hd : d ∈ g.folders)
    (hw : ∀ k ∈ fs.way f, k ∈ g.ways) : Firm fs f d :=
  hf.firm fun v hv => h.open_ways _ (hw _ hv) (Grounds.within_cons hd v)

theorem firm_transactions (h : Keeps g s fs) : Firm fs s.transactionsDirectory g.transactions :=
  h.firm h.transactions (by simp [Grounds.folders]) fun k hk => by
    rw [← h.ways]; simp [hk]

theorem firm_backups (h : Keeps g s fs) : Firm fs s.backupsDirectory g.backups :=
  h.firm h.backups (by simp [Grounds.folders]) fun k hk => by
    rw [← h.ways]; simp [hk]

theorem firm_checkpoints (h : Keeps g s fs) : Firm fs s.checkpointsDirectory g.checkpoints :=
  h.firm h.checkpoints (by simp [Grounds.folders]) fun k hk => by
    rw [← h.ways]; simp [hk]

theorem not_link (h : Keeps g s fs) (hd : d ∈ g.folders) (w : Bytes) (t : Path) :
    fs.at (w :: d) ≠ some (.link t) := by
  intro hx
  obtain ⟨m, c, he⟩ := h.files d hd w _ hx
  cases he

theorem folder_not_within (h : Keeps g s fs) (hd : d ∈ g.folders) : ¬g.Within d := by
  rintro ⟨k, hk, hkd, hne⟩
  obtain ⟨m, hm⟩ := h.directory hd
  obtain ⟨x, rfl⟩ := hkd
  obtain ⟨y, v, rfl⟩ : ∃ y v, x = y ++ [v] := by
    rcases List.eq_nil_or_concat x with rfl | ⟨y, v, rfl⟩
    · exact absurd rfl hne
    · exact ⟨y, v, by simp⟩
  rw [List.append_assoc, List.singleton_append] at hm
  obtain ⟨n, hn⟩ : ∃ n, fs.at (v :: k) = some (.directory n) := by
    by_cases hy : y = []
    · exact ⟨m, by simpa [hy] using hm⟩
    · exact h.sound.above hm (List.suffix_append y _) (by simpa using hy)
  obtain ⟨_, _, he⟩ := h.files k hk v _ hn
  cases he

theorem transactions_ne_backups (h : Keeps g s fs) : g.transactions ≠ g.backups := by
  have := h.distinct
  simp only [Grounds.folders, List.nodup_cons, List.mem_cons] at this
  tauto

theorem checkpoints_ne_backups (h : Keeps g s fs) : g.checkpoints ≠ g.backups := by
  have := h.distinct
  simp only [Grounds.folders, List.nodup_cons, List.mem_cons] at this
  tauto

theorem transactions_ne_checkpoints (h : Keeps g s fs) : g.transactions ≠ g.checkpoints := by
  have := h.distinct
  simp only [Grounds.folders, List.nodup_cons, List.mem_cons] at this
  tauto

/-- Changes that leave alone all that is looked at on the way keep the directories in place. -/
theorem congr (h : Keeps g s fs) (hs : fs'.Sound) (hw : ∀ k ∈ g.ways, fs'.at k = fs.at k)
    (hf : ∀ d ∈ g.folders, ∀ w e, fs'.at (w :: d) = some e → ∃ m c, e = .file m c) :
    Keeps g s fs' where
  toStands := h.toStands.congr hs hw
  open_ways := h.open_ways
  distinct := h.distinct
  files := hf

end Keeps

/-- The grounds of a store in a directory that is reached without links. -/
def Store.grounds (s : Store) (fs : FileSystem) (d : Location) : Grounds where
  transactions := Utf8.encode "transactions" :: d
  backups := Utf8.encode "backups" :: d
  checkpoints := Utf8.encode "checkpoints" :: d
  ways := fs.way s.transactionsDirectory ++ fs.way s.backupsDirectory ++ fs.way s.checkpointsDirectory

theorem isName_folders : IsName (Utf8.encode "transactions") ∧ IsName (Utf8.encode "backups") ∧
    IsName (Utf8.encode "checkpoints") := by decide +kernel

/-- A store whose directories can be reached without links keeps its documents there. -/
theorem Keeps.of_clear {s : Store} {fs : FileSystem} {d : Location} (hs : fs.Sound)
    (hn : ∀ w ∈ d, IsName w) (hroot : s.root = ofNames true d) (hnul : s.root.hasNul = false)
    (hclear : ∀ k ∈ (s.grounds fs d).folders, Clear fs k)
    (hfiles : ∀ k ∈ (s.grounds fs d).folders, ∀ w e, fs.at (w :: k) = some e → ∃ m c, e = .file m c) :
    Keeps (s.grounds fs d) s fs := by
  obtain ⟨hT, hB, hC⟩ := isName_folders
  have hall : ∀ w, IsName w → ∀ v ∈ w :: d, IsName v := fun w hw v hv => by
    rcases List.mem_cons.1 hv with rfl | hv
    · exact hw
    · exact hn v hv
  have hpath : ∀ w, IsName w → s.root.join ⟨w⟩ = ofNames true (w :: d) := fun w hw => by
    rw [hroot, ofNames_join d hn hw]
  have hleads : ∀ w, IsName w → w.contains 0 = false → Clear fs (w :: d) →
      Leads fs (s.root.join ⟨w⟩) (w :: d) := fun w hw hz hc => by
    rw [hpath w hw]
    refine hc.leads (hall w hw) ?_
    rw [← ofNames_join d hn hw, hasNul_join_name _ hw, ← hroot, hnul, hz]
    rfl
  have hmem : ∀ w, IsName w → Clear fs (w :: d) → ∀ k ∈ fs.way (s.root.join ⟨w⟩), k <:+ w :: d :=
    fun w hw hc k hk => by
      rw [hpath w hw] at hk
      exact hc.mem_way (hall w hw) hk
  have hnames : [Utf8.encode "transactions", Utf8.encode "backups",
      Utf8.encode "checkpoints"].Nodup := by decide +kernel
  have hshut : ∀ w, IsName w → Clear fs (w :: d) → ∀ k ∈ fs.way (s.root.join ⟨w⟩),
      ¬(s.grounds fs d).Within k := by
    rintro w hw hc k hk ⟨f, hf, hfk, hne⟩
    obtain ⟨v, rfl⟩ : ∃ v, f = v :: d := by
      simp only [Grounds.folders, Store.grounds, List.mem_cons, List.not_mem_nil, or_false] at hf
      rcases hf with rfl | rfl | rfl <;> exact ⟨_, rfl⟩
    have hlong := (hmem w hw hc k hk).length_le
    exact hne (hfk.eq_of_length (by have := hfk.length_le; simp at *; omega))
  have hclear' : Clear fs (Utf8.encode "transactions" :: d) ∧ Clear fs (Utf8.encode "backups" :: d) ∧
      Clear fs (Utf8.encode "checkpoints" :: d) := by
    simpa [Grounds.folders, Store.grounds] using hclear
  exact
    { sound := hs
      transactions := hleads _ hT (by decide +kernel) hclear'.1
      backups := hleads _ hB (by decide +kernel) hclear'.2.1
      checkpoints := hleads _ hC (by decide +kernel) hclear'.2.2
      ways := rfl
      open_ways := fun k hk => by
        simp only [Store.grounds, List.mem_append] at hk
        rcases hk with (hk | hk) | hk
        · exact hshut _ hT hclear'.1 k hk
        · exact hshut _ hB hclear'.2.1 k hk
        · exact hshut _ hC hclear'.2.2 k hk
      distinct := hnames.map (f := (· :: d)) fun v w h => (List.cons.inj h).1
      files := hfiles }

/-- As it can be decided of a tree: a store in a directory that is reached without links, with nothing
but files in its directories. -/
def Store.Laid (s : Store) (fs : FileSystem) (d : Location) : Prop :=
  fs.Sound ∧ (∀ w ∈ d, IsName w) ∧ s.root = ofNames true d ∧ s.root.hasNul = false ∧
    (∀ k ∈ (s.grounds fs d).folders,
      (∀ l ∈ k.tails, (fs.at l).any fun e => e.isDirectory && e.isSearchable) ∧
        ∀ w ∈ k, w.length ≤ longestName) ∧
    ∀ x ∈ fs.entries, x.1.tail ∈ (s.grounds fs d).folders → x.2.kind = .file

instance (s : Store) (fs : FileSystem) (d : Location) : Decidable (s.Laid fs d) :=
  inferInstanceAs (Decidable (_ ∧ _ ∧ _ ∧ _ ∧ _ ∧ _))

theorem Keeps.of_laid {s : Store} {fs : FileSystem} {d : Location} (h : s.Laid fs d) :
    Keeps (s.grounds fs d) s fs := by
  obtain ⟨hs, hn, hroot, hnul, hclear, hfiles⟩ := h
  refine .of_clear hs hn hroot hnul (fun k hk => clear_of_tails (hclear k hk).1 (hclear k hk).2) ?_
  intro k hk w e he
  have hkind := hfiles _ (mem_of_at (List.cons_ne_nil w k) he) hk
  cases e with
  | file m c => exact ⟨m, c, rfl⟩
  | _ => cases hkind

/-- Only what lies in the directories has changed, and they still hold nothing but files. -/
structure Tended (g : Grounds) (fs fs' : FileSystem) : Prop where
  sound : fs'.Sound
  workplace : fs'.workplace = fs.workplace
  beyond : ∀ k, ¬g.Within k → fs'.at k = fs.at k
  files : ∀ d ∈ g.folders, ∀ w e, fs'.at (w :: d) = some e → ∃ m c, e = .file m c

namespace Tended

variable {g : Grounds} {s : Store} {fs fs' fs'' : FileSystem} {d : Location} {w : Bytes}
  {o : Option Entry}

theorem keeps (h : Tended g fs fs') (hk : Keeps g s fs) : Keeps g s fs' :=
  hk.congr h.sound (fun k hw => h.beyond k (hk.open_ways k hw)) h.files

theorem refl (hk : Keeps g s fs) : Tended g fs fs := ⟨hk.sound, rfl, fun _ _ => rfl, hk.files⟩

theorem trans (h : Tended g fs fs') (h' : Tended g fs' fs'') : Tended g fs fs'' where
  sound := h'.sound
  workplace := h'.workplace.trans h.workplace
  beyond k hk := (h'.beyond k hk).trans (h.beyond k hk)
  files := h'.files

end Tended

theorem Keeps.tended_edit {g : Grounds} {s : Store} {fs fs' : FileSystem} {d : Location} {w : Bytes}
    {o : Option Entry} (h : Keeps g s fs) (hd : d ∈ g.folders) (ho : ∀ e ∈ o, ∃ m c, e = .file m c)
    (he : Edit fs (w :: d) o fs') : Tended g fs fs' where
  sound := he.sound
  workplace := he.workplace
  beyond k hk := he.at_of_ne fun hc => hk (hc ▸ Grounds.within_cons hd w)
  files d' hd' v e hv := by
    rw [he.at_eq] at hv
    split at hv
    · exact ho e hv
    · exact h.files d' hd' v e hv

theorem Keeps.tended_littered {g : Grounds} {s : Store} {fs fs' : FileSystem} {d : Location}
    (h : Keeps g s fs) (hd : d ∈ g.folders) (hl : Files.Littered fs d fs') : Tended g fs fs' := by
  obtain ⟨k, o, -, ho, he⟩ := hl
  exact h.tended_edit hd (fun e h => by obtain ⟨c, rfl⟩ := ho e h; exact ⟨_, c, rfl⟩) he

theorem Keeps.tended_writing {g : Grounds} {s : Store} {fs fs' : FileSystem} {d : Location}
    {f : Path} {w content : Bytes} (h : Keeps g s fs) (hd : d ∈ g.folders)
    (hw : Files.Writing fs f d w content fs') : Tended g fs fs' := by
  rcases hw with hw | ⟨hw, -⟩
  · exact h.tended_littered hd hw
  · exact h.tended_edit hd (by simp) hw

end Retrace
