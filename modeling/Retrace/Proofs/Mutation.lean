import Retrace.Proofs.FileSystem.View
import Retrace.Proofs.Grounds

/-!
The changes that a caller makes to the project, each to one entry, and what they do to the tree.
-/
namespace Retrace

open FileSystem Retrace.Path

/-- A change of the entry at a path. Files get any content and any mode. -/
inductive Mutation
  | create (mode : Nat) (content : Bytes)
  | copy (mode : Nat) (content : Bytes)
  | update (mode : Nat) (content : Bytes)
  | delete
  | move (source : Path)
  | symlink (target : Path)
  | directoryCreate
  | chmod (mode : Nat)
  deriving DecidableEq, Repr

namespace Mutation

def kind : Mutation → Operation.Kind
  | create .. => .create
  | copy .. => .copy
  | update .. => .update
  | delete => .delete
  | move _ => .move
  | symlink _ => .symlink
  | directoryCreate => .directoryCreate
  | chmod _ => .chmod

def writeFile (fs : FileSystem) (p : Path) (mode : Nat) (content : Bytes) :
    Except OsError FileSystem := do
  let (l, fs) ← fs.openEmpty p mode
  return fs.insert l (.file mode content)

/-- Makes the change at a path that is seen from a directory. -/
def perform (fs : FileSystem) (root p : Path) : Mutation → Except OsError FileSystem
  | create mode content | copy mode content | update mode content =>
    writeFile fs (root.normalize p) mode content
  | delete => fs.removeFile (root.normalize p)
  | move source => fs.rename (root.normalize source) (root.normalize p)
  | symlink target => fs.makeLink (root.normalize p) target
  | directoryCreate => fs.makeDirectory (root.normalize p)
  | chmod mode => fs.setMode (root.normalize p) mode

def Meant (fs : FileSystem) (l : Location) : Mutation → Prop
  | create .. | copy .. | symlink _ | directoryCreate | move _ => fs.at l = none
  | update .. => fs.at l = none ∨ ∃ m c, fs.at l = some (.file m c)
  | delete => ∃ m c, fs.at l = some (.file m c)
  | chmod _ => ∃ e, fs.at l = some e ∧ e.kind ≠ .link

structure Reachable (g : Grounds) (fs : FileSystem) (l : Location) : Prop where
  apart : g.Apart l
  parent : ∃ m, fs.at l.tail = some (.directory m)

/-- A change that the entry at its path, and that at the source of a move, is meant for. No directory
on the way is a link. -/
structure Fits (g : Grounds) (fs : FileSystem) (root p : Path) (μ : Mutation) : Prop where
  place : Reachable g fs (spelled root p)
  meant : μ.Meant fs (spelled root p)
  source : ∀ q, μ = move q → Reachable g fs (spelled root q) ∧ (fs.at (spelled root q)).isSome

instance (fs : FileSystem) (l : Location) : Decidable (∃ m, fs.at l = some (.directory m)) :=
  decidable_of_iff _ any_isDirectory_iff

instance (fs : FileSystem) (l : Location) : Decidable (∃ m c, fs.at l = some (.file m c)) :=
  match fs.at l with
  | some (.file m c) => .isTrue ⟨m, c, rfl⟩
  | some (.directory _) | some (.link _) | none => .isFalse (by simp)

instance (fs : FileSystem) (l : Location) : Decidable (∃ e, fs.at l = some e ∧ e.kind ≠ .link) :=
  match fs.at l with
  | some e => decidable_of_iff (e.kind ≠ .link) (by simp)
  | none => .isFalse (by simp)

instance (fs : FileSystem) (l : Location) : (μ : Mutation) → Decidable (μ.Meant fs l)
  | create .. | copy .. | symlink _ | directoryCreate | move _ =>
    inferInstanceAs (Decidable (fs.at l = none))
  | update .. => inferInstanceAs (Decidable (fs.at l = none ∨ ∃ m c, fs.at l = some (.file m c)))
  | delete => inferInstanceAs (Decidable (∃ m c, fs.at l = some (.file m c)))
  | chmod _ => inferInstanceAs (Decidable (∃ e, fs.at l = some e ∧ e.kind ≠ .link))

instance (g : Grounds) (fs : FileSystem) (l : Location) : Decidable (Reachable g fs l) :=
  decidable_of_iff (_ ∧ _) ⟨fun h => ⟨h.1, h.2⟩, fun h => ⟨h.1, h.2⟩⟩

instance (P : Path → Prop) [DecidablePred P] : (μ : Mutation) → Decidable (∀ q, μ = move q → P q)
  | move q => decidable_of_iff (P q) (by simp)
  | create .. | copy .. | update .. | delete | symlink _ | directoryCreate | chmod _ =>
    .isTrue (by simp)

instance (g : Grounds) (fs : FileSystem) (root p : Path) (μ : Mutation) :
    Decidable (μ.Fits g fs root p) :=
  decidable_of_iff (_ ∧ _ ∧ _) ⟨fun h => ⟨h.1, h.2.1, h.2.2⟩, fun h => ⟨h.1, h.2, h.3⟩⟩

variable {g : Grounds} {fs fs' : FileSystem} {root p q : Path} {d c l : Location} {w v : Bytes}
  {mode : Nat} {content : Bytes} {e : Entry} {t : Path}

theorem Reachable.exists_cons (h : Reachable g fs l) :
    ∃ w d, l = w :: d ∧ g.Apart (w :: d) ∧ ∃ m, fs.at d = some (.directory m) := by
  obtain ⟨w, d, rfl⟩ := List.exists_cons_of_ne_nil h.apart.ne_nil
  exact ⟨w, d, rfl, h.apart, h.parent⟩

variable (hs : fs.Sound) (hn : ∀ u ∈ w :: d, IsName u) (hd : ∃ m, fs.at d = some (.directory m))

include hs hn hd

theorem writeFile_ok (hx : fs.at (w :: d) = none ∨ ∃ m c, fs.at (w :: d) = some (.file m c))
    (h : writeFile fs (ofNames true (w :: d)) mode content = .ok fs') :
    Aims fs (ofNames true d) d w ∧ Edit fs (w :: d) (some (.file mode content)) fs' ∧
      (fs.at (w :: d) = none → fs.yields d = true) := by
  have hnd : ∀ u ∈ d, IsName u := fun u hu => hn u (List.mem_cons_of_mem _ hu)
  have hw := hn w List.mem_cons_self
  rw [writeFile] at h
  cases ho : fs.openEmpty (ofNames true (w :: d)) mode with
  | error err => simp [ho, bind, Except.bind] at h
  | ok r =>
    have haims := hs.aims_of_openEmpty hn hd ho
    have hopen := haims.openEmpty (n := mode) (by rcases hx with hx | ⟨m, c, hx⟩ <;> simp [hx])
    rw [ofNames_join d hnd hw, ho] at hopen
    obtain ⟨l, fs₁⟩ := r
    simp only [ho, bind, Except.bind, pure, Except.pure, Except.ok.injEq] at h
    rcases hx with hx | ⟨m, c, hx⟩
    · rw [hx] at hopen
      by_cases hy : fs.yields d = true
      · simp only [hy, if_true, Except.ok.injEq, Prod.mk.injEq] at hopen
        obtain ⟨rfl, rfl⟩ := hopen
        have hedit : Edit fs (w :: d) (some (.file mode [])) (fs.insert (w :: d) (.file mode [])) :=
          Edit.insert hs hd (.inr (by simp [hx]))
        refine ⟨haims, ?_, fun _ => hy⟩
        rw [← h]
        exact hedit.trans (Edit.insert hedit.sound (hedit.sound.parent hedit.at_self)
          (.inr (by simp [hedit.at_self])))
      · simp [hy] at hopen
    · rw [hx] at hopen
      by_cases hy : (Entry.file m c).isWritable = true
      · simp only [hy, if_true, Except.ok.injEq, Prod.mk.injEq] at hopen
        obtain ⟨rfl, rfl⟩ := hopen
        have hedit : Edit fs (w :: d) (some (.file (modeWritten m) []))
            (fs.insert (w :: d) (.file (modeWritten m) [])) :=
          Edit.insert hs hd (.inr (by simp [hx]))
        refine ⟨haims, ?_, fun hc => by simp [hx] at hc⟩
        rw [← h]
        exact hedit.trans (Edit.insert hedit.sound (hedit.sound.parent hedit.at_self)
          (.inr (by simp [hedit.at_self])))
      · simp [hy] at hopen

theorem removeFile_ok {m : Nat} (hx : fs.at (w :: d) = some (.file m content))
    (h : fs.removeFile (ofNames true (w :: d)) = .ok fs') :
    Aims fs (ofNames true d) d w ∧ Edit fs (w :: d) none fs' ∧ fs.yields d = true := by
  have haims := hs.aims_of_removeFile hn hd h
  have hremove := haims.removeFile
  rw [ofNames_join d (fun u hu => hn u (List.mem_cons_of_mem _ hu)) (hn w List.mem_cons_self), h,
    hx] at hremove
  by_cases hy : fs.yields d = true
  · simp only [hy, Entry.isDirectory, Bool.not_true, Bool.false_eq_true, if_false,
      Except.ok.injEq] at hremove
    exact ⟨haims, hremove ▸ Edit.erase hs (hs.none_in (by simp [hx])), hy⟩
  · simp [hy] at hremove

theorem makeLink_ok (hx : fs.at (w :: d) = none)
    (h : fs.makeLink (ofNames true (w :: d)) t = .ok fs') :
    Aims fs (ofNames true d) d w ∧ Edit fs (w :: d) (some (.link t)) fs' ∧ fs.yields d = true := by
  obtain ⟨haims, ht, hne, hlong⟩ := hs.aims_of_makeLink hn hd h
  have hmake := haims.makeLink ht hne hlong
  rw [ofNames_join d (fun u hu => hn u (List.mem_cons_of_mem _ hu)) (hn w List.mem_cons_self), h,
    hx] at hmake
  by_cases hy : fs.yields d = true
  · simp only [hy, if_true, Except.ok.injEq] at hmake
    exact ⟨haims, hmake ▸ Edit.insert hs hd (.inr (by simp [hx])), hy⟩
  · simp [hy] at hmake

theorem makeDirectory_ok (hx : fs.at (w :: d) = none)
    (h : fs.makeDirectory (ofNames true (w :: d)) = .ok fs') :
    Aims fs (ofNames true d) d w ∧ Edit fs (w :: d) (some (fs.newDirectory d)) fs' ∧
      fs.yields d = true := by
  have haims := hs.aims_of_makeDirectory hn hd h
  have hmake := haims.makeDirectory
  rw [ofNames_join d (fun u hu => hn u (List.mem_cons_of_mem _ hu)) (hn w List.mem_cons_self), h,
    hx] at hmake
  by_cases hy : fs.yields d = true
  · simp only [hy, if_true, Except.ok.injEq] at hmake
    exact ⟨haims, hmake ▸ Edit.insert hs hd (.inr (by simp [hx])), hy⟩
  · simp [hy] at hmake

theorem setMode_ok (hx : fs.at (w :: d) = some e) (he : e.kind ≠ .link)
    (h : fs.setMode (ofNames true (w :: d)) mode = .ok fs') :
    Aims fs (ofNames true d) d w ∧ Edit fs (w :: d) (some (e.withMode (mode % 0o10000))) fs' := by
  have haims := hs.aims_of_setMode hn hd h
  have hset := haims.setMode (n := mode) (by
    intro t ht
    obtain rfl : e = .link t := by simpa [hx] using ht
    exact he rfl)
  rw [ofNames_join d (fun u hu => hn u (List.mem_cons_of_mem _ hu)) (hn w List.mem_cons_self), h,
    hx] at hset
  have hdir : (e.withMode (mode % 0o10000)).isDirectory = true ∨
      ∀ m, fs.at (w :: d) ≠ some (.directory m) := by
    rw [hx]
    cases e <;> simp [Entry.withMode, Entry.isDirectory]
  exact ⟨haims, Except.ok.inj hset ▸ Edit.insert hs hd hdir⟩

omit hs hn hd

/-- What was done by a move. -/
structure Moved (fs : FileSystem) (c : Location) (v : Bytes) (d : Location) (w : Bytes) (e : Entry)
    (fs' : FileSystem) : Prop where
  source : Aims fs (ofNames true c) c v
  target : Aims fs (ofNames true d) d w
  entry : fs.at (v :: c) = some e
  movable : Movable fs (v :: c) (w :: d)
  source_yields : fs.yields c = true
  target_yields : fs.yields d = true
  writable : e.isDirectory = true → c ≠ d → e.isWritable = true
  relocated : fs' = fs.relocate (v :: c) (w :: d)

theorem rename_ok (hs : fs.Sound) (hn : ∀ u ∈ v :: c, IsName u)
    (hc : ∃ m, fs.at c = some (.directory m)) (hn' : ∀ u ∈ w :: d, IsName u)
    (hd : ∃ m, fs.at d = some (.directory m)) (hx : fs.at (w :: d) = none)
    (he : fs.at (v :: c) = some e)
    (h : fs.rename (ofNames true (v :: c)) (ofNames true (w :: d)) = .ok fs') :
    Moved fs c v d w e fs' := by
  obtain ⟨hv, hw⟩ := hs.aims_of_rename hn hc hn' hd h
  have hren := hv.rename hw
  rw [ofNames_join c (fun u hu => hn u (List.mem_cons_of_mem _ hu)) hv.name,
    ofNames_join d (fun u hu => hn' u (List.mem_cons_of_mem _ hu)) hw.name, h, he] at hren
  have hne : v :: c ≠ w :: d := fun heq => by rw [heq, hx] at he; cases he
  simp only [hne, if_false] at hren
  cases hbar : fs.renameBar e c v d w with
  | some err => simp [hbar] at hren
  | none =>
    simp only [hbar, Except.ok.injEq] at hren
    simp only [renameBar] at hbar
    split at hbar
    · cases hbar
    split at hbar
    · cases hbar
    next hinto hout =>
    simp only [moveBar, hx] at hbar
    split at hbar
    · cases hbar
    next hy =>
    simp only [Bool.or_eq_true, Bool.not_eq_true', not_or, Bool.not_eq_false] at hy
    refine
      { source := hv, target := hw, entry := he, source_yields := hy.1, target_yields := hy.2
        relocated := hren
        movable :=
          { source_ne_nil := List.cons_ne_nil _ _, target_ne_nil := List.cons_ne_nil _ _
            not_into := by simpa using hinto, not_out := by simpa using hout
            vacant := hs.none_in (by simp [hx]) }
        writable := fun hdir hcd => ?_ }
    by_contra hwr
    simp [hdir, hcd, hwr] at hbar

end Mutation
end Retrace
