import Retrace.Proofs.FileSystem.Edit

/-!
Trees as they look apart from the permission bits of files. Trees that look alike on the way to a
directory let the same operations through.
-/
namespace Retrace

def Entry.bare : Entry → Entry
  | .file _ c => .file 0 c
  | .directory m => .directory (m % 0o10000)
  | .link t => .link t

namespace FileSystem

open Retrace.Path (IsName)

variable {fs fs' : FileSystem} {d k l : Location} {w : Bytes} {m m' n : Nat} {content : Bytes}
  {t : Path} {e : Entry}

def view (fs : FileSystem) (l : Location) : Option Entry := (fs.at l).map Entry.bare

theorem view_of_at (h : fs'.at l = fs.at l) : fs'.view l = fs.view l := by rw [view, h, view]

theorem view_eq_none : fs.view l = none ↔ fs.at l = none := by simp [view]

theorem view_eq_directory (h : fs.view l = some (.directory n)) :
    ∃ m, fs.at l = some (.directory m) ∧ m % 0o10000 = n := by
  cases hx : fs.at l with
  | none => simp [view, hx] at h
  | some e => cases e <;> simp_all [view, Entry.bare]

theorem view_eq_file (h : fs.view l = some (.file n content)) :
    ∃ m, fs.at l = some (.file m content) := by
  cases hx : fs.at l with
  | none => simp [view, hx] at h
  | some e => cases e <;> simp_all [view, Entry.bare]

theorem view_eq_link (h : fs.view l = some (.link t)) : fs.at l = some (.link t) := by
  cases hx : fs.at l with
  | none => simp [view, hx] at h
  | some e => cases e <;> simp_all [view, Entry.bare]

theorem testBit_eq (h : m % 0o10000 = n % 0o10000) {i : Nat} (hi : i < 12) :
    m.testBit i = n.testBit i := by
  have := congrArg (Nat.testBit · i) h
  simpa [Nat.testBit_mod_two_pow m 12 i, Nat.testBit_mod_two_pow n 12 i, hi] using this

theorem isDirectory_of_bare {e' : Entry} (h : e'.bare = e.bare) : e'.isDirectory = e.isDirectory := by
  cases e <;> cases e' <;> simp_all [Entry.bare, Entry.isDirectory]

theorem isWritable_of_bare {e' : Entry} (h : e'.bare = e.bare) (hd : e'.isDirectory = true) :
    e'.isWritable = e.isWritable := by
  cases e' with
  | directory m' =>
    cases e with
    | directory m =>
      simp only [Entry.bare, Entry.directory.injEq] at h
      exact testBit_eq h (by omega)
    | _ => simp [Entry.bare] at h
  | _ => simp [Entry.isDirectory] at hd

theorem directory_of_view (h : fs'.view l = fs.view l) (hd : fs.at l = some (.directory m)) :
    ∃ m', fs'.at l = some (.directory m') ∧ m' % 0o10000 = m % 0o10000 :=
  view_eq_directory (by rw [h, view, hd]; rfl)

theorem file_of_view (h : fs'.view l = fs.view l) (hf : fs.at l = some (.file m content)) :
    ∃ m', fs'.at l = some (.file m' content) :=
  view_eq_file (n := 0) (by rw [h, view, hf]; rfl)

theorem none_of_view (h : fs'.view l = fs.view l) (hn : fs.at l = none) : fs'.at l = none :=
  view_eq_none.1 (by rw [h, view, hn]; rfl)

theorem isSome_of_view (h : fs'.view l = fs.view l) : (fs'.at l).isSome = (fs.at l).isSome := by
  have := congrArg Option.isSome h
  simpa [view] using this

theorem yields_of_view (h : fs'.view d = fs.view d) (hd : fs.at d = some (.directory m)) :
    fs'.yields d = fs.yields d := by
  obtain ⟨m', hm', heq⟩ := directory_of_view h hd
  simp only [yields, hd, hm', Option.all_some, Entry.isWritable, Entry.mode]
  exact testBit_eq heq (by omega)

theorem Clear.of_view (h : Clear fs d) (hv : ∀ k, k <:+ d → fs'.view k = fs.view k) : Clear fs' d where
  searchable k hk := by
    obtain ⟨m, hm, hs⟩ := h.searchable k hk
    obtain ⟨m', hm', heq⟩ := directory_of_view (hv k hk) hm
    refine ⟨m', hm', ?_⟩
    rw [← hs]
    exact testBit_eq heq (by omega)
  short := h.short

theorem nextTemporary_of_view (h : ∀ v, fs'.view (v :: d) = fs.view (v :: d)) :
    fs'.nextTemporary d = fs.nextTemporary d :=
  nextTemporary_congr fun _ => isSome_of_view (h _)

theorem Room.of_view {f : Path} (hr : Room fs f d) (hd : fs.at d = some (.directory m))
    (hv : fs'.view d = fs.view d) (hin : ∀ v, fs'.view (v :: d) = fs.view (v :: d)) :
    Room fs' f d where
  yields := by rw [yields_of_view hv hd]; exact hr.yields
  short := by rw [nextTemporary_of_view hin]; exact hr.short
  fits := by rw [nextTemporary_of_view hin]; exact hr.fits

theorem Aims.clear (h : Aims fs (Path.ofNames true d) d w) (hs : fs.Sound) (hn : ∀ v ∈ d, IsName v) :
    Clear fs d := by
  have hall : ∀ v ∈ w :: d, IsName v := by
    intro v hv
    rcases List.mem_cons.1 hv with rfl | hv
    · exact h.name
    · exact hn v hv
  have ha := h.approach
  rw [Path.ofNames_join d hn h.name] at ha
  exact (clear_of_approach hall (hs.way_up h.directory) ha).1

theorem Aims.of_view (h : Aims fs (Path.ofNames true d) d w) (hs : fs.Sound) (hn : ∀ v ∈ d, IsName v)
    (hv : ∀ k, k <:+ d → fs'.view k = fs.view k) : Aims fs' (Path.ofNames true d) d w :=
  h.of_leads (((h.clear hs hn).of_view hv).leads hn h.noNul)

end FileSystem
end Retrace
