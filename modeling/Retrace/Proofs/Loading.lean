import Retrace.Manager.Basic
import Retrace.Proofs.FileSystem.Growth
import Retrace.Proofs.Grounds

/-!
Opening a store. A directory that is found under its path is not made again
(`Store.ensureDirectories_of_status`); its path leads to it also without a dot at the end (`walk_entered`),
so what is listed is what is there (`Leads.list`).
-/
namespace Retrace

namespace FileSystem

open Retrace.Path (dot IsName)

variable {fs : FileSystem} {n : Nat} {here d : Location} {xs : List Bytes} {m : Nat} {s : Bool}
  {f : Path} {e : Entry} {w : Bytes}

theorem stroll_entered {detour detour' : Location → Path → List Bytes → Except Errno Found}
    (hd : ∀ here t rest, detour here t (rest ++ [[dot]]) = .ok (.entry d (.directory m) s) →
      ∃ s', detour' here t rest = .ok (.entry d (.directory m) s'))
    (h : stroll fs ⟨true, true⟩ detour here (xs ++ [[dot]]) = .ok (.entry d (.directory m) s)) :
    ∃ s', stroll fs ⟨true, true⟩ detour' here xs = .ok (.entry d (.directory m) s') := by
  induction xs generalizing here with
  | nil =>
    simp only [List.nil_append, stroll] at h ⊢
    by_cases ha : fs.admits here = true
    · simp only [ha, List.cons_ne_self, if_false, if_true, Bool.not_true,
        Bool.and_false, Bool.false_eq_true] at h
      exact ⟨s, h⟩
    · simp [ha] at h
  | cons x xs ih =>
    simp only [List.cons_append, stroll] at h ⊢
    by_cases hx₁ : x = []
    · simp only [hx₁, if_true] at h ⊢
      exact ih h
    by_cases ha : fs.admits here = true
    · have hlast : (xs ++ [[dot]]).all (· = []) = false := by simp
      simp only [hx₁, ha, if_false, Bool.not_true, Bool.and_false, Bool.false_eq_true] at h ⊢
      by_cases hx₂ : x = [dot]
      · simp only [hx₂, if_true] at h ⊢
        exact ih h
      by_cases hx₃ : x = [dot, dot]
      · simp only [hx₃, List.cons.injEq, reduceCtorEq, and_false, if_false,
          if_true] at h ⊢
        exact ih h
      simp only [hx₂, hx₃, if_false, hlast] at h ⊢
      by_cases hlen : longestName < x.length
      · simp [hlen] at h
      simp only [hlen, if_false] at h ⊢
      cases hx : fs.at (x :: here) with
      | none => simp [hx] at h
      | some z =>
        cases z with
        | file m c => simp [hx] at h
        | directory m => simp only [hx] at h ⊢; exact ih h
        | link t =>
          simp only [hx, List.append_eq_nil_iff, List.cons_ne_self, and_false, not_true_eq_false,
            if_false] at h ⊢
          exact hd here t xs h
    · simp [ha, hx₁] at h

/-- The pieces before a dot lead to the same directory. -/
theorem walk_entered
    (h : fs.walk ⟨true, true⟩ n here (xs ++ [[dot]]) = .ok (.entry d (.directory m) s)) :
    ∃ s', fs.walk ⟨true, true⟩ n here xs = .ok (.entry d (.directory m) s') := by
  induction n generalizing here xs with
  | zero => exact stroll_entered (by simp) h
  | succ n ih =>
    refine stroll_entered (fun here t rest h => ?_) h
    rw [← List.append_assoc] at h
    exact ih h

/-- What is listed is what is in the directory. -/
theorem Leads.list (h : Leads fs f d) :
    fs.list f = if f.bytes.length < longestPath then
        if (fs.at d).any Entry.isReadable then .ok (fs.children d) else .error (.errno .denied)
      else .error (.errno .nameTooLong) := by
  obtain ⟨m, s, hwalk⟩ := h.walk
  have hm := walk_entry hwalk
  have hne := Path.bytes_ne_nil_of_isAbsolute h.absolute
  rw [FileSystem.list, named_of_noNul h.noNul, FileSystem.entryAt, FileSystem.find, if_neg hne,
    start_of_isAbsolute h.absolute, pathPieces_of_tidy h.tidy]
  by_cases hfits : f.bytes.length < longestPath
  · obtain ⟨s', hs'⟩ := walk_entered hwalk
    rw [if_neg (Nat.not_le.2 hfits), if_pos hfits, hs', hm]
    cases hr : (Entry.directory m).isReadable <;>
      simp [bind, Except.bind, Found.reached, Entry.isDirectory, Option.any, hr, Except.mapError]
  · rw [if_pos (Nat.not_lt.1 hfits), if_neg hfits]
    rfl

/-- Where something is found under a name no directory can be made. -/
theorem makeDirectory_of_status {kind : FileKind} (hs : fs.Sound) (hf : f.isAbsolute = true) (hw : IsName w)
    (h : fs.status (f.join ⟨w⟩) = .ok kind) :
    fs.makeDirectory (f.join ⟨w⟩) = .error (.errno .alreadyExists) := by
  have hnul : (f.join ⟨w⟩).hasNul = false := noNul_of_named h
  obtain ⟨x, hx⟩ : ∃ x, fs.entryAt true (f.join ⟨w⟩) = .ok x := by
    have hkind := eq_ok_of_named h
    cases hx : fs.entryAt true (f.join ⟨w⟩) with
    | error e => rw [hx] at hkind; cases hkind
    | ok x => exact ⟨x, rfl⟩
  obtain ⟨x', hx'⟩ := entryAt_unfollowed hx
  obtain ⟨r, hfind, hreached⟩ := exists_of_bind hx'
  rw [find, if_neg (Path.bytes_join_name_ne_nil f hw)] at hfind
  split at hfind
  · cases hfind
  next hfits =>
  rw [start_of_isAbsolute (Path.isAbsolute_join_name hf hw), pathPieces_join_name f hw] at hfind
  -- the name has been looked up in the directory that the pieces before it lead to
  obtain ⟨d, m, hbefore⟩ := (walks_of_walk hfind).before_name hs rfl rfl hw ⟨_, at_nil fs⟩
  rw [walk_last hw (.inl rfl) hbefore.walk, lookUp] at hfind
  split at hfind
  · cases hfind
  next hshort =>
  obtain rfl := Except.ok.inj hfind
  rw [foundAt] at hreached
  cases he : fs.at (w :: d) with
  | none => rw [he] at hreached; cases hreached
  | some e =>
    rw [FileSystem.makeDirectory, named_of_noNul hnul, approach_join_name hf hw (Nat.not_le.1 hfits),
      hbefore.walk]
    simp [bind, Except.bind, standing, hshort, he]

theorem Leads.status (h : Leads fs f d) (hfits : f.bytes.length < longestPath) :
    fs.status f = .ok .directory := by
  obtain ⟨m, s, hwalk⟩ := h.walk
  obtain ⟨s', hs'⟩ := walk_entered hwalk
  rw [FileSystem.status, named_of_noNul h.noNul, FileSystem.entryAt, FileSystem.find,
    if_neg (Path.bytes_ne_nil_of_isAbsolute h.absolute), if_neg (Nat.not_le.2 hfits),
    start_of_isAbsolute h.absolute, pathPieces_of_tidy h.tidy, hs']
  simp [bind, Except.bind, Found.reached, Entry.isDirectory, Entry.kind]
  rfl

end FileSystem

open FileSystem Retrace.Path Script

/-! ### Directories -/

theorem Files.makePath_run {fs : FileSystem} {f : Path} {w : Bytes} (hs : fs.Sound)
    (hf : f.isAbsolute = true) (hw : IsName w) (h : fs.status (f.join ⟨w⟩) = .ok .directory) :
    (Files.makePath (f.join ⟨w⟩)).run.run fs = (.ok (), fs) := by
  have hmake := makeDirectory_of_status hs hf hw h
  have hnf : (OsError.errno Errno.alreadyExists).isNotFound = false := by decide
  simp only [Files.makePath, Files.makeDirectories, Files.attempt, bytes_join_name_ne_nil f hw, if_false,
    ExceptT.run_mk, run_bind, run_ask, Call.perform, hmake, change_error, hnf, Bool.false_eq_true,
    Files.isDirectory, h, run_pure, if_true]

namespace Store

variable {g : Grounds} {s : Store} {fs fs' : FileSystem}

def Fits (s : Store) : Prop := ∀ f ∈ s.directories, f.bytes.length < longestPath

/-- Directories that are all there are not made again. -/
theorem ensureDirectories_of_status (hs : fs.Sound) (hroot : s.root.isAbsolute = true)
    (h : ∀ f ∈ s.directories, fs.status f = .ok .directory) :
    s.ensureDirectories.run fs = (.ok (), fs) := by
  obtain ⟨hT, hB, hC⟩ := isName_folders
  simp only [directories, List.mem_cons, List.not_mem_nil, or_false, forall_eq_or_imp, forall_eq] at h
  obtain ⟨h₁, h₂, h₃⟩ := h
  have hT' : (Files.makePath s.transactionsDirectory).run.run fs = (.ok (), fs) :=
    Files.makePath_run hs hroot hT h₁
  have hB' : (Files.makePath s.backupsDirectory).run.run fs = (.ok (), fs) :=
    Files.makePath_run hs hroot hB h₂
  have hC' : (Files.makePath s.checkpointsDirectory).run.run fs = (.ok (), fs) :=
    Files.makePath_run hs hroot hC h₃
  simp only [ensureDirectories, ExceptT.run_bind, run_bind, hT', hB', hC']

theorem ensureDirectories_run (hk : Stands g s fs) (hfits : s.Fits) :
    s.ensureDirectories.run fs = (.ok (), fs) := by
  have hroot : s.root.isAbsolute = true := isAbsolute_of_join_name isName_folders.1 hk.transactions.absolute
  refine ensureDirectories_of_status hk.sound hroot fun f hf => ?_
  have hlength := hfits f hf
  simp only [directories, List.mem_cons, List.not_mem_nil, or_false] at hf
  rcases hf with rfl | rfl | rfl
  · exact hk.transactions.status hlength
  · exact hk.backups.status hlength
  · exact hk.checkpoints.status hlength

theorem directories_ne_nil (s : Store) : ∀ f ∈ s.directories, f.bytes ≠ [] := by
  obtain ⟨hT, hB, hC⟩ := isName_folders
  intro f hf
  simp only [directories, List.mem_cons, List.not_mem_nil, or_false] at hf
  rcases hf with rfl | rfl | rfl
  · exact bytes_join_name_ne_nil _ hT
  · exact bytes_join_name_ne_nil _ hB
  · exact bytes_join_name_ne_nil _ hC

/-- Directories that could be made have paths that the system takes. -/
theorem fits_of_ensureDirectories (h : s.ensureDirectories.run fs = (.ok (), fs')) : s.Fits := by
  have hlong : ∀ f ∈ s.directories, ∀ k, ((Files.makePath f).run.run k).1 = .ok () →
      f.bytes.length < longestPath := by
    intro f hf k hok
    by_contra hlong
    have hmeets : Meets (Files.makePath f).run k _ _ :=
      Files.makePath_too_long (s.directories_ne_nil f hf) (Nat.not_lt.1 hlong)
    obtain ⟨-, e, he⟩ := hmeets.result
    rw [he] at hok
    cases hok
  simp only [ensureDirectories, ExceptT.run_bind, run_bind] at h
  cases hT : (Files.makePath s.transactionsDirectory).run.run fs with
  | mk r fs₁ =>
    cases r with
    | error e => simp [hT] at h
    | ok _ =>
      simp only [hT, run_bind] at h
      cases hB : (Files.makePath s.backupsDirectory).run.run fs₁ with
      | mk r fs₂ =>
        cases r with
        | error e => simp [hB] at h
        | ok _ =>
          simp only [hB] at h
          intro f hf
          simp only [directories, List.mem_cons, List.not_mem_nil, or_false] at hf
          rcases hf with rfl | rfl | rfl
          · exact hlong _ (by simp [directories]) fs (by rw [hT])
          · exact hlong _ (by simp [directories]) fs₁ (by rw [hB])
          · exact hlong _ (by simp [directories]) fs₂ (by rw [h])

end Store

/-! ### Documents -/

theorem Files.readText_run (p : Path) (fs : FileSystem) :
    ((readText p).run.run fs).2 = fs ∧
      ((readText p).run.run fs).1.toOption = (fs.read p).toOption >>= Utf8.decode? := by
  simp only [readText, attempt, ExceptT.run_bind, ExceptT.run_mk, run_bind, run_ask, Call.perform]
  cases fs.read p with
  | error e => exact ⟨rfl, rfl⟩
  | ok b =>
    dsimp only
    cases h : Utf8.decode? b with
    | none => exact ⟨rfl, by simp [Except.toOption, h]⟩
    | some text => exact ⟨rfl, by simp [Except.toOption, h]⟩

namespace Store

variable {α : Type} {s : Store} {fs : FileSystem} {f : Path} {d : Location} {read : String → Option α}

def documentAt (read : String → Option α) (f : Path) (fs : FileSystem) (name : Bytes) : Option α :=
  if isDocumentName name then (fs.read (f.join ⟨name⟩)).toOption >>= Utf8.decode? >>= read else none

theorem readEach_run (read : String → Option α) (f : Path) (names : List Bytes) (fs : FileSystem) :
    (readEach read f names).run fs = (names.filterMap (documentAt read f fs), fs) := by
  induction names with
  | nil => rfl
  | cons name names ih =>
    rw [readEach, List.filterMap_cons, documentAt]
    by_cases hname : isDocumentName name = true
    · obtain ⟨hfs, htext⟩ := Files.readText_run (f.join ⟨name⟩) fs
      simp only [hname, if_true, ← htext, run_bind, hfs, ih]
      cases ((Files.readText (f.join ⟨name⟩)).run.run fs).1 with
      | error e => rfl
      | ok text => cases h : read text <;> simp [Except.toOption, h]
    · simp only [hname, Bool.false_eq_true, if_false, ih]

theorem documentAt_eq_some {name : Bytes} {v : α} : documentAt read f fs name = some v ↔
    Path.extension? name = some (Utf8.encode "json") ∧ ∃ content text,
      fs.read (f.join ⟨name⟩) = .ok content ∧ Utf8.decode? content = some text ∧ read text = some v := by
  rw [documentAt]
  by_cases hname : isDocumentName name = true
  · have hext : Path.extension? name = some (Utf8.encode "json") := by simpa [isDocumentName] using hname
    rw [if_pos hname]
    cases fs.read (f.join ⟨name⟩) with
    | error e => simp [Except.toOption]
    | ok content => simp [Except.toOption, hext, Option.bind_eq_some_iff]
  · have hext : Path.extension? name ≠ some (Utf8.encode "json") := by simpa [isDocumentName] using hname
    rw [if_neg hname]
    simp [hext]

theorem loadAll_run (read : String → Option α) (f : Path) (fs : FileSystem) :
    (loadAll read f).run fs =
      (match fs.list f with
        | .ok names => .ok (names.filterMap (documentAt read f fs))
        | .error e => if e.isNotFound then .ok [] else .error e, fs) := by
  simp only [loadAll, run_bind, run_ask, Call.perform]
  cases fs.list f with
  | ok names => simp only [run_bind, readEach_run, run_pure]
  | error e => cases h : e.isNotFound <;> simp [h]

end Store

namespace Manager

variable {m m₀ : Manager} {fs fs₀ : FileSystem}

/-- What is loaded is what the documents say, once the directories have been made. -/
theorem load_ok (h : m₀.load.run fs₀ = (.ok m, fs)) :
    ∃ ts cs, (m₀.store.ensureDirectories.run fs₀) = (.ok (), fs) ∧
      (m₀.store.loadTransactions.run fs).1 = .ok ts ∧ (m₀.store.loadCheckpoints.run fs).1 = .ok cs ∧
      m = { m₀ with
        history := Index.ofValues Transaction.id ts
        checkpoints := Index.ofValues Checkpoint.id cs } := by
  rw [load, run_bind] at h
  cases he : m₀.store.ensureDirectories.run fs₀ with
  | mk r fs₁ =>
    rw [he] at h
    cases r with
    | error e => cases h
    | ok _ =>
      have hT : (m₀.store.loadTransactions.run fs₁).2 = fs₁ := by rw [Store.loadTransactions, Store.loadAll_run]
      have hC : (m₀.store.loadCheckpoints.run fs₁).2 = fs₁ := by rw [Store.loadCheckpoints, Store.loadAll_run]
      dsimp only at h
      rw [run_bind] at h
      cases ht : m₀.store.loadTransactions.run fs₁ with
      | mk r fs₂ =>
        rw [ht] at h hT
        obtain rfl : fs₂ = fs₁ := hT
        cases r with
        | error e => cases h
        | ok ts =>
          dsimp only at h
          rw [run_bind] at h
          cases hc : m₀.store.loadCheckpoints.run fs₂ with
          | mk r fs₁ =>
            rw [hc] at h hC
            obtain rfl : fs₁ = fs₂ := hC
            cases r with
            | error e => cases h
            | ok cs =>
              cases h
              exact ⟨ts, cs, rfl, by rw [ht], by rw [hc], rfl⟩

theorem open_ok {project : Path} {settings : Settings} {now : Instant}
    {s : Script (Except Error Manager)} (hopen : open? project settings now = some s)
    (hload : s.run fs₀ = (.ok m, fs)) :
    ∃ ts cs, m.store.ensureDirectories.run fs₀ = (.ok (), fs) ∧
      (m.store.loadTransactions.run fs).1 = .ok ts ∧ (m.store.loadCheckpoints.run fs).1 = .ok cs ∧
      m.current = none ∧ m.history = Index.ofValues Transaction.id ts ∧
      m.checkpoints = Index.ofValues Checkpoint.id cs := by
  obtain ⟨events, -, rfl⟩ := Option.map_eq_some_iff.1 hopen
  rw [run_bind] at hload
  obtain ⟨ts, cs, hmade, hts, hcs, rfl⟩ := load_ok hload
  exact ⟨ts, cs, hmade, hts, hcs, rfl, rfl, rfl⟩

/-- Where the directories are empty there is nothing to hold. -/
theorem open_empty {g : Grounds} {project : Path} {settings : Settings} {now : Instant}
    {s : Script (Except Error Manager)} (hopen : open? project settings now = some s)
    (hload : s.run fs₀ = (.ok m, fs)) (hk : Keeps g m.store fs)
    (hempty : ∀ d ∈ g.folders, ∀ w, fs.at (w :: d) = none) :
    m.current = none ∧ m.history = [] ∧ m.checkpoints = [] := by
  obtain ⟨ts, cs, -, hts, hcs, hcurrent, hhistory, hcheckpoints⟩ := open_ok hopen hload
  have hnone : ∀ {α : Type} {read : String → Option α} {f d xs}, Leads fs f d → d ∈ g.folders →
      ((Store.loadAll read f).run fs).1 = .ok xs → xs = [] := by
    intro α read f d xs hf hd hxs
    rw [Store.loadAll_run, hf.list, children_eq_nil.2 (hempty d hd)] at hxs
    split at hxs
    · next heq =>
      split at heq
      · split at heq
        · cases heq; exact (Except.ok.inj hxs).symm
        · cases heq
      · cases heq
    · split at hxs
      · exact (Except.ok.inj hxs).symm
      · cases hxs
  rw [hnone hk.transactions (by simp [Grounds.folders]) hts] at hhistory
  rw [hnone hk.checkpoints (by simp [Grounds.folders]) hcs] at hcheckpoints
  exact ⟨hcurrent, hhistory, hcheckpoints⟩

theorem open_readable {g : Grounds} {project : Path} {settings : Settings} {now : Instant}
    {s : Script (Except Error Manager)} (hopen : open? project settings now = some s)
    (hload : s.run fs₀ = (.ok m, fs)) (hk : Keeps g m.store fs) :
    m.store.Fits ∧ ∀ d ∈ g.folders, d ≠ g.backups → (fs.at d).any Entry.isReadable = true := by
  obtain ⟨ts, cs, hmade, hts, hcs, -⟩ := open_ok hopen hload
  have hfits : m.store.Fits := Store.fits_of_ensureDirectories hmade
  have hlisted : ∀ {α : Type} {read : String → Option α} {f d xs}, Leads fs f d →
      f ∈ m.store.directories → ((Store.loadAll read f).run fs).1 = .ok xs →
      (fs.at d).any Entry.isReadable = true := by
    intro α read f d xs hf hmem hxs
    by_contra hno
    rw [Store.loadAll_run, hf.list, if_pos (hfits f hmem), if_neg hno] at hxs
    cases hxs
  refine ⟨hfits, fun d hd hne => ?_⟩
  simp only [Grounds.folders, List.mem_cons, List.not_mem_nil, or_false] at hd
  rcases hd with rfl | rfl | rfl
  · exact hlisted hk.transactions (by simp [Store.directories]) hts
  · exact absurd rfl hne
  · exact hlisted hk.checkpoints (by simp [Store.directories]) hcs

end Manager
end Retrace
