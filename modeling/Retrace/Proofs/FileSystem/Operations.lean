import Retrace.FileSystem.Operations
import Retrace.Proofs.FileSystem.Aim

/-!
The operations on a name in a directory, each as one equation: what is done depends on the directory
and on what stands under the name.
-/
namespace Retrace.FileSystem

open Retrace.Path (IsName)

variable {fs : FileSystem} {f g p : Path} {d c : Location} {w v : Bytes} {e : Entry} {m n : Nat}
  {content : Bytes} {follow : Bool}

theorem named_of_noNul {α : Type} {p : Path} (hp : p.hasNul = false) (r : Except Errno α) :
    named p r = r.mapError .errno := by simp [named, hp]

@[simp] theorem mapError_ok {α ε ε' : Type} (g : ε → ε') (a : α) :
    (Except.ok a : Except ε α).mapError g = .ok a := rfl

@[simp] theorem mapError_error {α ε ε' : Type} (g : ε → ε') (e : ε) :
    (Except.error e : Except ε α).mapError g = .error (g e) := rfl

theorem Aims.approach (h : Aims fs f d w) : fs.approach (f.join ⟨w⟩) = .ok ⟨d, .name w, false⟩ :=
  h.toLeads.approach h.name h.fits

theorem Aims.standing (h : Aims fs f d w) (slash : Bool) (ending : Ending) :
    fs.standing ⟨d, ending, slash⟩ w = .ok (fs.at (w :: d)) := by
  simp [FileSystem.standing, Nat.not_lt.2 h.short]

theorem Aims.entryAt (h : Aims fs f d w)
    (hleaf : follow = false ∨ ∀ t, fs.at (w :: d) ≠ some (.link t)) :
    fs.entryAt follow (f.join ⟨w⟩) =
      match fs.at (w :: d) with
      | none => .error .noEntry
      | some e => .ok (w :: d, e) := by
  simp only [FileSystem.entryAt, h.find hleaf, foundAt]
  cases fs.at (w :: d) <;> simp [Found.reached, bind, Except.bind]

/-! ### Looking -/

theorem Aims.linkStatus (h : Aims fs f d w) :
    fs.linkStatus (f.join ⟨w⟩) =
      match fs.at (w :: d) with
      | none => .error (.errno .noEntry)
      | some e => .ok e.kind := by
  rw [FileSystem.linkStatus, named_of_noNul h.hasNul, h.entryAt (.inl rfl)]
  cases fs.at (w :: d) <;> rfl

theorem Aims.status (h : Aims fs f d w) (hleaf : ∀ t, fs.at (w :: d) ≠ some (.link t)) :
    fs.status (f.join ⟨w⟩) =
      match fs.at (w :: d) with
      | none => .error (.errno .noEntry)
      | some e => .ok e.kind := by
  rw [FileSystem.status, named_of_noNul h.hasNul, h.entryAt (.inr hleaf)]
  cases fs.at (w :: d) <;> rfl

theorem Aims.read (h : Aims fs f d w) (hleaf : ∀ t, fs.at (w :: d) ≠ some (.link t)) :
    fs.read (f.join ⟨w⟩) =
      match fs.at (w :: d) with
      | none => .error (.errno .noEntry)
      | some e =>
        if e.isReadable then
          match e with
          | .file _ c => .ok c
          | _ => .error (.errno .isDirectory)
        else .error (.errno .denied) := by
  rw [FileSystem.read, named_of_noNul h.hasNul, h.entryAt (.inr hleaf)]
  cases fs.at (w :: d) with
  | none => rfl
  | some e => cases hr : e.isReadable <;> cases e <;> simp [hr, bind, Except.bind]

theorem Aims.list (h : Aims fs f d w) (hw : fs.at (w :: d) = some (.directory m))
    (hr : (Entry.directory m).isReadable = true) :
    fs.list (f.join ⟨w⟩) = .ok (fs.children (w :: d)) := by
  rw [FileSystem.list, named_of_noNul h.hasNul, h.entryAt (.inr (by simp [hw])), hw]
  simp [hr, bind, Except.bind]

theorem Leads.linkStatus (h : Leads fs f d) (hfits : f.bytes.length < longestPath) :
    ∃ kind, fs.linkStatus f = .ok kind := by
  obtain ⟨k, x, hx⟩ := h.find hfits
  exact ⟨x.kind, by rw [FileSystem.linkStatus, named_of_noNul h.noNul, FileSystem.entryAt, hx]; rfl⟩

/-! ### Changing one name -/

theorem Aims.makeDirectory (h : Aims fs f d w) :
    fs.makeDirectory (f.join ⟨w⟩) =
      match fs.at (w :: d) with
      | some _ => .error (.errno .alreadyExists)
      | none =>
        if fs.yields d then .ok (fs.insert (w :: d) (fs.newDirectory d))
        else .error (.errno .denied) := by
  rw [FileSystem.makeDirectory, named_of_noNul h.hasNul, h.approach]
  simp only [bind, Except.bind, h.standing]
  cases fs.at (w :: d) with
  | none => cases fs.yields d <;> simp
  | some e => rfl

theorem Aims.makeLink {t : Path} (h : Aims fs f d w) (ht : t.hasNul = false) (hne : t.bytes ≠ [])
    (hlong : t.bytes.length < longestPath) :
    fs.makeLink (f.join ⟨w⟩) t =
      match fs.at (w :: d) with
      | some _ => .error (.errno .alreadyExists)
      | none =>
        if fs.yields d then .ok (fs.insert (w :: d) (.link t)) else .error (.errno .denied) := by
  rw [FileSystem.makeLink, named_of_noNul h.hasNul, h.approach, if_neg (by simp [ht]), if_neg hne,
    if_neg (Nat.not_le.2 hlong)]
  simp only [bind, Except.bind, h.standing]
  cases fs.at (w :: d) with
  | none => cases fs.yields d <;> simp
  | some e => rfl

theorem removeFile_of_approach (hp : p.hasNul = false) (ha : fs.approach p = .ok ⟨d, .name w, false⟩)
    (hw : w.length ≤ longestName) :
    fs.removeFile p =
      match fs.at (w :: d) with
      | none => .error (.errno .noEntry)
      | some e =>
        if !fs.yields d then .error (.errno .denied)
        else if e.isDirectory then .error (.errno .isDirectory)
        else .ok (fs.erase (w :: d)) := by
  rw [FileSystem.removeFile, named_of_noNul hp, ha]
  simp only [bind, Except.bind, standing, if_neg (Nat.not_lt.2 hw)]
  cases fs.at (w :: d) with
  | none => rfl
  | some e => cases fs.yields d <;> cases hd : e.isDirectory <;> simp [hd]

theorem Aims.removeFile (h : Aims fs f d w) :
    fs.removeFile (f.join ⟨w⟩) =
      match fs.at (w :: d) with
      | none => .error (.errno .noEntry)
      | some e =>
        if !fs.yields d then .error (.errno .denied)
        else if e.isDirectory then .error (.errno .isDirectory)
        else .ok (fs.erase (w :: d)) :=
  removeFile_of_approach h.hasNul h.approach h.short

theorem Aims.removeDirectory (h : Aims fs f d w) :
    fs.removeDirectory (f.join ⟨w⟩) =
      match fs.at (w :: d) with
      | none => .error (.errno .noEntry)
      | some e =>
        if !fs.yields d then .error (.errno .denied)
        else if !e.isDirectory then .error (.errno .notDirectory)
        else if fs.children (w :: d) = [] then .ok (fs.erase (w :: d))
        else .error (.errno .notEmpty) := by
  rw [FileSystem.removeDirectory, named_of_noNul h.hasNul, h.approach]
  simp only [bind, Except.bind, h.standing]
  cases fs.at (w :: d) with
  | none => rfl
  | some e =>
    cases fs.yields d <;> cases hd : e.isDirectory <;> simp [hd]
    split <;> rfl

theorem Aims.setMode (h : Aims fs f d w) (hleaf : ∀ t, fs.at (w :: d) ≠ some (.link t)) :
    fs.setMode (f.join ⟨w⟩) n =
      match fs.at (w :: d) with
      | none => .error (.errno .noEntry)
      | some e => .ok (fs.insert (w :: d) (e.withMode (n % 0o10000))) := by
  rw [FileSystem.setMode, named_of_noNul h.hasNul, h.entryAt (.inr hleaf)]
  cases fs.at (w :: d) <;> rfl

theorem Aims.openEmpty (h : Aims fs f d w) (hleaf : ∀ t, fs.at (w :: d) ≠ some (.link t)) :
    fs.openEmpty (f.join ⟨w⟩) n =
      match fs.at (w :: d) with
      | none =>
        if fs.yields d then .ok (w :: d, fs.insert (w :: d) (.file n []))
        else .error (.errno .denied)
      | some (.file m c) =>
        if (Entry.file m c).isWritable then
          .ok (w :: d, fs.insert (w :: d) (.file (modeWritten m) []))
        else .error (.errno .denied)
      | some _ => .error (.errno .isDirectory) := by
  rw [FileSystem.openEmpty, named_of_noNul h.hasNul, h.approach, h.find (.inr hleaf)]
  simp only [bind, Except.bind, Approach.location?, Option.isNone_some, Bool.or_self,
    Bool.false_eq_true, if_false, foundAt]
  cases fs.at (w :: d) with
  | none => cases hy : fs.yields d <;> simp [hy]
  | some e =>
    cases e with
    | file m c => cases hw : (Entry.file m c).isWritable <;> simp [hw]
    | directory m => rfl
    | link t => rfl

theorem Aims.fill (h : Aims fs f d w) (hleaf : fs.at (w :: d) = some (.file m content)) (b : Bytes) :
    fs.fill (f.join ⟨w⟩) b = .ok (fs.insert (w :: d) (.file m b)) := by
  rw [FileSystem.fill, named_of_noNul h.hasNul, h.entryAt (.inr (by simp [hleaf])), hleaf]
  rfl

def renameBar (fs : FileSystem) (e : Entry) (c : Location) (v : Bytes) (d : Location) (w : Bytes) :
    Option Errno :=
  if (v :: c).isSuffixOf (w :: d) then some .invalid
  else if (w :: d).isSuffixOf (v :: c) then some .notEmpty
  else fs.moveBar e c w d (fs.at (w :: d))

theorem Aims.rename (h : Aims fs f c v) (h' : Aims fs g d w) :
    fs.rename (f.join ⟨v⟩) (g.join ⟨w⟩) =
      match fs.at (v :: c) with
      | none => .error (.errno .noEntry)
      | some e =>
        if v :: c = w :: d then .ok fs
        else match fs.renameBar e c v d w with
          | some err => .error (.errno err)
          | none => .ok (fs.relocate (v :: c) (w :: d)) := by
  rw [FileSystem.rename, h.hasNul, h'.hasNul, h.approach, h'.approach]
  simp only [Bool.or_self, Bool.false_eq_true, if_false, bind, Except.bind, h.standing, h'.standing,
    Bool.and_false]
  cases fs.at (v :: c) with
  | none => rfl
  | some e =>
    simp only [renameBar]
    split
    · rfl
    · split
      · rfl
      · split
        · rfl
        · cases fs.moveBar e c w d (fs.at (w :: d)) <;> rfl

/-! ### Paths with which nothing can be done -/

variable {p q : Path}

theorem Aims.not_dead (h : Aims fs f d w) : ¬Dead fs (f.join ⟨w⟩) := by
  intro hdead
  rcases hdead.approach with hz | he | ⟨a, v, ha, hend, ho⟩
  · simp [h.hasNul] at hz
  · simp [h.approach] at he
  · rw [h.approach] at ha
    obtain rfl := Except.ok.inj ha
    obtain rfl := Ending.name.inj hend
    simp [h.standing] at ho

def Refused {α : Type} (r : Except OsError α) : Prop := ∃ e, r = .error e ∧ e.isNotFound = false

theorem refused_of_named {α : Type} {r : Except Errno α} (h : p.hasNul = true ∨ r = .error .nameTooLong) :
    Refused (named p r) := by
  rw [named]
  split
  · exact ⟨.nulByte, rfl, rfl⟩
  · next hz =>
    rw [h.resolve_left hz]
    exact ⟨.errno .nameTooLong, rfl, by decide⟩

theorem Dead.entryAt (h : Dead fs p) (follow : Bool) :
    p.hasNul = true ∨ fs.entryAt follow p = .error .nameTooLong :=
  h.find.imp_right fun h => by rw [FileSystem.entryAt, h follow]; rfl

theorem Dead.linkStatus (h : Dead fs p) : Refused (fs.linkStatus p) :=
  refused_of_named ((h.entryAt false).imp_right fun h => by rw [h]; rfl)

theorem Dead.read (h : Dead fs p) : Refused (fs.read p) :=
  refused_of_named ((h.entryAt true).imp_right fun h => by rw [h]; rfl)

theorem Dead.fill (h : Dead fs p) (b : Bytes) : Refused (fs.fill p b) :=
  refused_of_named ((h.entryAt true).imp_right fun h => by rw [h]; rfl)

theorem Dead.removeFile (h : Dead fs p) : Refused (fs.removeFile p) := by
  refine refused_of_named (h.approach.imp_right fun h => ?_)
  rcases h with he | ⟨a, w, ha, hend, ho⟩
  · rw [he]; rfl
  · simp [ha, hend, ho, bind, Except.bind]

theorem Dead.rename_target (h : Dead fs q) : ∃ err, fs.rename p q = .error err := by
  rw [FileSystem.rename]
  split
  · exact ⟨_, rfl⟩
  · next hz =>
    simp only [Bool.or_eq_true, not_or] at hz
    cases ha : fs.approach p with
    | error err => exact ⟨.errno err, by simp [bind, Except.bind]⟩
    | ok a =>
      rcases h.approach.resolve_left hz.2 with he | ⟨b, w, hb, hend, ho⟩
      · exact ⟨.errno .nameTooLong, by simp [he, bind, Except.bind]⟩
      · cases hv : a.ending with
        | name v =>
          cases hs : fs.standing a v with
          | error err => exact ⟨.errno err, by simp [hb, hv, hend, hs, bind, Except.bind]⟩
          | ok o =>
            cases o with
            | none => exact ⟨.errno .noEntry, by simp [hb, hv, hend, hs, bind, Except.bind]⟩
            | some e =>
              exact ⟨.errno .nameTooLong, by simp [hb, hv, hend, hs, ho, bind, Except.bind]⟩
        | root => exact ⟨.errno .busy, by simp [hb, hv, bind, Except.bind]⟩
        | here => exact ⟨.errno .busy, by simp [hb, hv, bind, Except.bind]⟩
        | up => exact ⟨.errno .busy, by simp [hb, hv, bind, Except.bind]⟩

/-! ### What an operation that went well says about its path -/

theorem noNul_of_named {α : Type} {p : Path} {r : Except Errno α} {a : α} (h : named p r = .ok a) :
    p.hasNul = false := by
  cases hp : p.hasNul with
  | false => rfl
  | true => simp [named, hp] at h

theorem hasNul_ofNames_cons (hd : ∀ v ∈ d, IsName v) (hw : IsName w) :
    (Path.ofNames true (w :: d)).hasNul = ((Path.ofNames true d).hasNul || w.contains 0) := by
  rw [← Path.ofNames_join d hd hw, Path.hasNul_join_name _ hw]

theorem Clear.aims (h : Clear fs d) (hn : ∀ v ∈ w :: d, IsName v) (hshort : w.length ≤ longestName)
    (hz : (Path.ofNames true (w :: d)).hasNul = false)
    (hfits : (Path.ofNames true (w :: d)).bytes.length < longestPath) :
    Aims fs (Path.ofNames true d) d w := by
  have hw := hn w List.mem_cons_self
  have hnd : ∀ v ∈ d, IsName v := fun v hv => hn v (List.mem_cons_of_mem _ hv)
  rw [hasNul_ofNames_cons hnd hw, Bool.or_eq_false_iff] at hz
  exact ⟨h.leads hnd hz.1, hw, by simpa using hz.2, hshort, by rwa [Path.ofNames_join d hnd hw]⟩

theorem Sound.way_up (hs : fs.Sound) (hd : ∃ m, fs.at d = some (.directory m)) :
    ∀ k, k <:+ d → ∃ m, fs.at k = some (.directory m) := by
  obtain ⟨m, hd⟩ := hd
  intro k hk
  by_cases hkd : k = d
  · exact ⟨m, hkd ▸ hd⟩
  · exact hs.above hd hk hkd

variable {fs' : FileSystem} {t : Path}

theorem Sound.aims_or (hs : fs.Sound) (hn : ∀ v ∈ w :: d, IsName v)
    (hd : ∃ m, fs.at d = some (.directory m)) (hz : (Path.ofNames true (w :: d)).hasNul = false) :
    Aims fs (Path.ofNames true d) d w ∨ (∃ err, fs.approach (Path.ofNames true (w :: d)) = .error err) ∨
      fs.approach (Path.ofNames true (w :: d)) = .ok ⟨d, .name w, false⟩ ∧
        fs.standing ⟨d, .name w, false⟩ w = .error .nameTooLong := by
  cases ha : fs.approach (Path.ofNames true (w :: d)) with
  | error err => exact .inr (.inl ⟨err, rfl⟩)
  | ok a =>
    obtain ⟨hclear, hfits, rfl⟩ := clear_of_approach hn (hs.way_up hd) ha
    by_cases hshort : w.length ≤ longestName
    · exact .inl (hclear.aims hn hshort hz hfits)
    · exact .inr (.inr ⟨rfl, by simp [FileSystem.standing, Nat.not_le.1 hshort]⟩)

theorem Sound.aims_of_removeFile (hs : fs.Sound) (hn : ∀ v ∈ w :: d, IsName v)
    (hd : ∃ m, fs.at d = some (.directory m))
    (h : fs.removeFile (Path.ofNames true (w :: d)) = .ok fs') :
    Aims fs (Path.ofNames true d) d w := by
  have hz := noNul_of_named h
  rw [FileSystem.removeFile, named_of_noNul hz] at h
  rcases hs.aims_or hn hd hz with h' | ⟨err, he⟩ | ⟨ha, ho⟩
  · exact h'
  · simp [he, bind, Except.bind] at h
  · simp [ha, ho, bind, Except.bind] at h

theorem Sound.aims_of_makeDirectory (hs : fs.Sound) (hn : ∀ v ∈ w :: d, IsName v)
    (hd : ∃ m, fs.at d = some (.directory m))
    (h : fs.makeDirectory (Path.ofNames true (w :: d)) = .ok fs') :
    Aims fs (Path.ofNames true d) d w := by
  have hz := noNul_of_named h
  rw [FileSystem.makeDirectory, named_of_noNul hz] at h
  rcases hs.aims_or hn hd hz with h' | ⟨err, he⟩ | ⟨ha, ho⟩
  · exact h'
  · simp [he, bind, Except.bind] at h
  · simp [ha, ho, bind, Except.bind] at h

theorem Sound.aims_of_makeLink (hs : fs.Sound) (hn : ∀ v ∈ w :: d, IsName v)
    (hd : ∃ m, fs.at d = some (.directory m))
    (h : fs.makeLink (Path.ofNames true (w :: d)) t = .ok fs') :
    Aims fs (Path.ofNames true d) d w ∧ t.hasNul = false ∧ t.bytes ≠ [] ∧
      t.bytes.length < longestPath := by
  rw [FileSystem.makeLink] at h
  split at h
  · cases h
  · next ht =>
    have hz := noNul_of_named h
    rw [named_of_noNul hz] at h
    by_cases hne : t.bytes = []
    · simp [hne, bind, Except.bind] at h
    by_cases hlong : longestPath ≤ t.bytes.length
    · simp [hne, hlong, bind, Except.bind] at h
    refine ⟨?_, by simpa using ht, hne, Nat.not_le.1 hlong⟩
    rcases hs.aims_or hn hd hz with h' | ⟨err, he⟩ | ⟨ha, ho⟩
    · exact h'
    · simp [hne, hlong, he, bind, Except.bind] at h
    · simp [hne, hlong, ha, ho, bind, Except.bind] at h

theorem Sound.aims_of_rename (hs : fs.Sound) (hn : ∀ u ∈ v :: c, IsName u)
    (hc : ∃ m, fs.at c = some (.directory m)) (hn' : ∀ u ∈ w :: d, IsName u)
    (hd : ∃ m, fs.at d = some (.directory m))
    (h : fs.rename (Path.ofNames true (v :: c)) (Path.ofNames true (w :: d)) = .ok fs') :
    Aims fs (Path.ofNames true c) c v ∧ Aims fs (Path.ofNames true d) d w := by
  rw [FileSystem.rename] at h
  split at h
  · cases h
  · next hz =>
    simp only [Bool.or_eq_true, not_or, Bool.not_eq_true] at hz
    rcases hs.aims_or hn hc hz.1 with hv | ⟨err, he⟩ | ⟨ha, ho⟩
    · rcases hs.aims_or hn' hd hz.2 with hw | ⟨err, he⟩ | ⟨ha, ho⟩
      · exact ⟨hv, hw⟩
      · have ha := hv.approach
        rw [Path.ofNames_join c (fun u hu => hn u (List.mem_cons_of_mem _ hu)) hv.name] at ha
        simp [ha, he, bind, Except.bind] at h
      · have ha' := hv.approach
        rw [Path.ofNames_join c (fun u hu => hn u (List.mem_cons_of_mem _ hu)) hv.name] at ha'
        simp [ha, ha', ho, hv.standing, bind, Except.bind] at h
        split at h <;> simp at h
    · simp [he, bind, Except.bind] at h
    · cases hb : fs.approach (Path.ofNames true (w :: d)) with
      | error err => simp [ha, hb, bind, Except.bind] at h
      | ok b =>
        obtain ⟨-, -, rfl⟩ := clear_of_approach hn' (hs.way_up hd) hb
        simp [ha, hb, ho, bind, Except.bind] at h

theorem Sound.aims_of_find {r : Found} (hs : fs.Sound) (hn : ∀ v ∈ w :: d, IsName v)
    (hd : ∃ m, fs.at d = some (.directory m)) (hz : (Path.ofNames true (w :: d)).hasNul = false)
    (h : fs.find ⟨follow, true⟩ (Path.ofNames true (w :: d)) = .ok r) :
    Aims fs (Path.ofNames true d) d w := by
  obtain ⟨hclear, hshort, hfits⟩ := clear_of_find hn (hs.way_up hd) h
  exact hclear.aims hn hshort hz hfits

theorem Sound.aims_of_setMode (hs : fs.Sound) (hn : ∀ v ∈ w :: d, IsName v)
    (hd : ∃ m, fs.at d = some (.directory m))
    (h : fs.setMode (Path.ofNames true (w :: d)) n = .ok fs') :
    Aims fs (Path.ofNames true d) d w := by
  have hz := noNul_of_named h
  rw [FileSystem.setMode, named_of_noNul hz, entryAt] at h
  cases hf : fs.find ⟨true, true⟩ (Path.ofNames true (w :: d)) with
  | error err => simp [hf, bind, Except.bind] at h
  | ok r => exact hs.aims_of_find hn hd hz hf

theorem Sound.aims_of_openEmpty {r : Location × FileSystem} (hs : fs.Sound)
    (hn : ∀ v ∈ w :: d, IsName v) (hd : ∃ m, fs.at d = some (.directory m))
    (h : fs.openEmpty (Path.ofNames true (w :: d)) n = .ok r) :
    Aims fs (Path.ofNames true d) d w := by
  have hz := noNul_of_named h
  rw [FileSystem.openEmpty, named_of_noNul hz] at h
  cases ha : fs.approach (Path.ofNames true (w :: d)) with
  | error err => simp [ha, bind, Except.bind] at h
  | ok a =>
    obtain ⟨-, -, rfl⟩ := clear_of_approach hn (hs.way_up hd) ha
    cases hf : fs.find ⟨true, true⟩ (Path.ofNames true (w :: d)) with
    | error err => simp [ha, hf, Approach.location?, bind, Except.bind] at h
    | ok r => exact hs.aims_of_find hn hd hz hf

end Retrace.FileSystem
