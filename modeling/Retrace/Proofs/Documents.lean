import Retrace.Proofs.Grounds

/-!
Documents and backups as files of their directories. A document is written whole or not at all, and
what is removed is no more than the files that are named (`Shed`).
-/
namespace Retrace

open FileSystem Retrace.Path Script

/-- An id that makes the name of a file. -/
def Plain (id : String) : Prop := slash ∉ Utf8.encode id

instance (id : String) : Decidable (Plain id) := inferInstanceAs (Decidable (_ ∉ _))

def documentName (id : String) : Bytes := Utf8.encode (id ++ ".json")

def backupName (id : String) : Bytes := Utf8.encode (id ++ ".bak")

section Names

variable {id j : String}

theorem documentName_eq (id : String) :
    documentName id = Utf8.encode id ++ [46, 106, 115, 111, 110] := by
  rw [documentName, Utf8.encode_append]; rfl

theorem backupName_eq (id : String) : backupName id = Utf8.encode id ++ [46, 98, 97, 107] := by
  rw [backupName, Utf8.encode_append]; rfl

theorem isName_append {a : Bytes} {suffix : Bytes} (ha : slash ∉ a) (hs : slash ∉ suffix)
    (hlen : 2 < suffix.length) : IsName (a ++ suffix) := by
  have hlong : 2 < (a ++ suffix).length := by rw [List.length_append]; omega
  refine ⟨fun h => ?_, fun h => ?_, fun h => ?_, by simp [ha, hs]⟩
  · rw [h] at hlong; exact absurd hlong (by decide)
  · rw [h] at hlong; exact absurd hlong (by decide)
  · rw [h] at hlong; exact absurd hlong (by decide)

theorem isName_documentName (h : Plain id) : IsName (documentName id) := by
  rw [documentName_eq]; exact isName_append h (by decide) (by decide)

theorem isName_backupName (h : Plain id) : IsName (backupName id) := by
  rw [backupName_eq]; exact isName_append h (by decide) (by decide)

theorem documentName_inj (h : documentName id = documentName j) : id = j := by
  rw [documentName_eq, documentName_eq, List.append_cancel_right_eq, Utf8.encode_inj] at h
  exact h

theorem backupName_inj (h : backupName id = backupName j) : id = j := by
  rw [backupName_eq, backupName_eq, List.append_cancel_right_eq, Utf8.encode_inj] at h
  exact h

theorem documentName_ne_backupName (id j : String) : documentName id ≠ backupName j := by
  intro h
  have hlast := congrArg List.getLast? h
  rw [documentName_eq, backupName_eq] at hlast
  simp at hlast

theorem documentName_ne_temporary (id : String) (k : Nat) : documentName id ≠ temporaryName k :=
  ne_temporaryName (b := 110) (by rw [documentName_eq]; simp) (by decide)

theorem backupName_ne_temporary (id : String) (k : Nat) : backupName id ≠ temporaryName k :=
  ne_temporaryName (b := 107) (by rw [backupName_eq]; simp) (by decide)

end Names

variable {g : Grounds} {s : Store} {fs fs' fs'' : FileSystem} {d : Location} {w : Bytes} {id : String}
  {names : List Bytes} {content : Bytes} {f : Path}

/-- A directory without some of the named files. -/
structure Shed (d : Location) (names : List Bytes) (fs fs' : FileSystem) : Prop where
  sound : fs'.Sound
  workplace : fs'.workplace = fs.workplace
  at_eq : ∀ k, fs'.at k = fs.at k ∨ fs'.at k = none ∧ ∃ w ∈ names, k = w :: d

theorem Shed.refl (hs : fs.Sound) (d : Location) (names : List Bytes) : Shed d names fs fs :=
  ⟨hs, rfl, fun _ => .inl rfl⟩

theorem Shed.trans (h : Shed d names fs fs') (h' : Shed d names fs' fs'') : Shed d names fs fs'' where
  sound := h'.sound
  workplace := h'.workplace.trans h.workplace
  at_eq k := by
    rcases h'.at_eq k with h₁ | h₁
    · rw [h₁]; exact h.at_eq k
    · exact .inr h₁

theorem Shed.of_edit (h : Edit fs (w :: d) none fs') (hw : w ∈ names) : Shed d names fs fs' where
  sound := h.sound
  workplace := h.workplace
  at_eq k := by
    rw [h.at_eq]
    split
    · next hk => exact .inr ⟨rfl, w, hw, hk⟩
    · exact .inl rfl

theorem Shed.tended (hk : Keeps g s fs) (hd : d ∈ g.folders) (h : Shed d names fs fs') :
    Tended g fs fs' where
  sound := h.sound
  workplace := h.workplace
  beyond k hb := (h.at_eq k).resolve_right fun ⟨_, w, _, hkw⟩ => hb (hkw ▸ Grounds.within_cons hd w)
  files d' hd' v e hv := by
    rcases h.at_eq (v :: d') with heq | ⟨hnone, -⟩
    · rw [heq] at hv
      exact hk.files d' hd' v e hv
    · rw [hnone] at hv
      cases hv

/-! ### Writing -/

def Stored (fs : FileSystem) (f : Path) (d : Location) (w content : Bytes) (r : Except Error Unit)
    (fs' : FileSystem) : Prop :=
  r = .ok () ∧ Edit fs (w :: d) (some (.file 0o600 content)) fs' ∧ Room fs f d ∧ Aims fs f d w ∨
    (∃ e, r = .error e) ∧ Files.Littered fs d fs' ∧ ¬(Room fs f d ∧ Aims fs f d w)

theorem Keeps.writeAtomic_meets (hk : Keeps g s fs) (hd : d ∈ g.folders) (hf : Firm fs f d)
    (hw : IsName w) :
    Meets (Files.writeAtomic (f.join ⟨w⟩) content).run fs (Files.Writing fs f d w content)
      fun r fs' =>
        r = .ok () ∧ Edit fs (w :: d) (some (.file 0o600 content)) fs' ∧ Room fs f d ∧ Aims fs f d w ∨
          (∃ e, r = .error e) ∧ Files.Littered fs d fs' ∧ ¬(Room fs f d ∧ Aims fs f d w) := by
  refine (Files.writeAtomic_meets hk.sound hf.leads hw (hk.not_link hd w)).mono (fun _ h => h) ?_
  intro r fs' _ h
  refine h.imp_right fun ⟨he, hl, hbad⟩ => ⟨he, hl, fun hc => hbad ⟨hc.1, hc.2, fun m hm => ?_⟩⟩
  obtain ⟨m', c, hc⟩ := hk.files d hd w _ hm
  cases hc

theorem save_meets {entity : Entity} {text : String} (hk : Keeps g s fs) (hd : d ∈ g.folders)
    (hf : Firm fs f d) (hw : IsName w) :
    Meets (Store.save entity id (f.join ⟨w⟩) (some text)) fs
      (Files.Writing fs f d w (Utf8.encode text)) (Stored fs f d w (Utf8.encode text)) := by
  refine (hk.writeAtomic_meets hd hf hw).bind fun r fs' hP hr => ?_
  rcases hr with ⟨rfl, hdone⟩ | ⟨⟨e, rfl⟩, hfailed⟩
  · exact Meets.pure hP (.inl ⟨rfl, hdone⟩)
  · exact Meets.pure hP (.inr ⟨⟨_, rfl⟩, hfailed⟩)

theorem saveTransaction_meets {t : Transaction} {text : String} (hk : Keeps g s fs)
    (ht : Plain t.id) (htext : t.toText? = some text) :
    Meets (s.saveTransaction t) fs
      (Files.Writing fs s.transactionsDirectory g.transactions (documentName t.id) (Utf8.encode text))
      (Stored fs s.transactionsDirectory g.transactions (documentName t.id) (Utf8.encode text)) := by
  rw [Store.saveTransaction, htext]
  exact save_meets hk (by simp [Grounds.folders]) hk.firm_transactions (isName_documentName ht)

theorem write_meets (hk : Keeps g s fs) (hid : Plain id) :
    Meets (Backups.write ⟨s.backupsDirectory⟩ id content) fs
      (Files.Writing fs s.backupsDirectory g.backups (backupName id) content)
      (Stored fs s.backupsDirectory g.backups (backupName id) content) := by
  refine (hk.writeAtomic_meets (by simp [Grounds.folders]) hk.firm_backups
    (isName_backupName hid)).bind fun r fs' hP hr => ?_
  rcases hr with ⟨rfl, hdone⟩ | ⟨⟨e, rfl⟩, hfailed⟩
  · exact Meets.pure hP (.inl ⟨rfl, hdone⟩)
  · exact Meets.pure hP (.inr ⟨⟨_, rfl⟩, hfailed⟩)

/-! ### Reading -/

def Backed (fs : FileSystem) (b : Location) (id : String) (content : Bytes) : Prop :=
  ∃ m, fs.at (backupName id :: b) = some (.file m content) ∧ (Entry.file m content).isReadable = true

theorem Backups.read_run (ha : Aims fs s.backupsDirectory d (backupName id))
    (hb : Backed fs d id content) :
    (Backups.read ⟨s.backupsDirectory⟩ id).run fs = (.ok (some content), fs) := by
  obtain ⟨m, hm, hr⟩ := hb
  have hread : fs.read (Backups.pathFor ⟨s.backupsDirectory⟩ id) = .ok content := by
    have := ha.read (by simp [hm])
    simp only [hm, hr, if_true] at this
    exact this
  simp only [Backups.read, run_bind, run_ask, Call.perform, hread, run_pure]

/-! ### Removing -/

theorem remove_meets (hk : Keeps g s fs) (hid : Plain id) :
    Meets (Backups.remove ⟨s.backupsDirectory⟩ id) fs (Shed g.backups [backupName id] fs)
      fun _ fs' => Shed g.backups [backupName id] fs fs' := by
  have hstay := Shed.refl hk.sound g.backups [backupName id]
  refine (Files.removeIfPresent_meets hk.sound hk.backups (isName_backupName hid)).mono ?_ ?_
  · rintro _ (rfl | he)
    · exact hstay
    · exact Shed.of_edit he (by simp)
  · rintro r fs' - (⟨-, he⟩ | ⟨-, rfl, -⟩ | ⟨-, rfl⟩)
    · exact Shed.of_edit he (by simp)
    · exact hstay
    · exact hstay

theorem deleteTransaction_meets (hk : Keeps g s fs) (hid : Plain id) :
    Meets (s.deleteTransaction id) fs
      (fun fs' => fs' = fs ∨ Edit fs (documentName id :: g.transactions) none fs')
      (Files.Removed fs g.transactions (documentName id)) :=
  Files.removeIfPresent_meets hk.sound hk.transactions (isName_documentName hid)

theorem Shed.mono {names' : List Bytes} (h : Shed d names fs fs') (hn : names ⊆ names') :
    Shed d names' fs fs' :=
  ⟨h.sound, h.workplace, fun k => (h.at_eq k).imp_right fun ⟨hk, w, hw, hkw⟩ => ⟨hk, w, hn hw, hkw⟩⟩

theorem removeEach_meets {ops : List Operation} (hk : Keeps g s fs) (hops : ∀ op ∈ ops, Plain op.id) :
    Meets (Backups.removeEach ⟨s.backupsDirectory⟩ ops) fs
      (Shed g.backups (ops.map fun op => backupName op.id) fs)
      fun _ fs' => Shed g.backups (ops.map fun op => backupName op.id) fs fs' := by
  induction ops generalizing fs with
  | nil => exact Meets.pure (Shed.refl hk.sound _ _) (Shed.refl hk.sound _ _)
  | cons op ops ih =>
    have hop : Plain op.id := hops op List.mem_cons_self
    have hone : ∀ {fs'}, Shed g.backups [backupName op.id] fs fs' →
        Shed g.backups ((op :: ops).map fun op => backupName op.id) fs fs' := fun h => h.mono (by simp)
    have hrest : ∀ {fs'}, Shed g.backups [backupName op.id] fs fs' →
        Meets (Backups.removeEach ⟨s.backupsDirectory⟩ ops) fs'
          (Shed g.backups ((op :: ops).map fun op => backupName op.id) fs)
          fun _ fs'' => Shed g.backups ((op :: ops).map fun op => backupName op.id) fs fs'' := by
      intro fs' h
      have hk' := (h.tended hk (by simp [Grounds.folders])).keeps hk
      have hwhole : ∀ {fs''}, Shed g.backups (ops.map fun op => backupName op.id) fs' fs'' →
          Shed g.backups ((op :: ops).map fun op => backupName op.id) fs fs'' :=
        fun h' => (hone h).trans (h'.mono (by simp))
      exact (ih hk' fun op h => hops op (List.mem_cons_of_mem _ h)).mono (fun _ => hwhole)
        fun _ _ _ => hwhole
    rw [Backups.removeEach]
    split
    · refine ((remove_meets hk hop).mono (fun _ => hone) fun _ _ _ h => h).bind fun r fs' _ h =>
        (hrest h).bind fun n fs'' _ h' => ?_
      rcases r with e | ⟨_ | _⟩ <;> exact Meets.pure h' h'
    · rw [pure_bind]
      exact (hrest (Shed.refl hk.sound _ _)).bind fun n fs' _ h => Meets.pure h h

end Retrace
