import Retrace.Proofs.CommandLine.Steps
import Retrace.Proofs.FileSystem.Unlinked

/-!
What is seen of a project, whatever the permission bits, and a machine that keeps such scenes on a
stack: a command that changes a file lays the scene before it on the stack, and undoing takes the
uppermost one back.
-/
namespace Retrace

open FileSystem Retrace.Path

variable {g : Grounds} {fs fs' : FileSystem} {k l : Location} {e : Entry}

/-- What is seen at a place, whatever the permission bits. -/
def FileSystem.shown (fs : FileSystem) (l : Location) : Option Entry := (fs.at l).map (·.withMode 0)

theorem FileSystem.shown_of_at (h : fs'.at l = fs.at l) : fs'.shown l = fs.shown l := by
  rw [shown, h, shown]

theorem FileSystem.shown_eq_none : fs.shown l = none ↔ fs.at l = none := by simp [shown]

theorem FileSystem.shown_eq_of_view (h : fs'.view l = fs.view l) : fs'.shown l = fs.shown l := by
  have hbare : ∀ e : Entry, e.bare.withMode 0 = e.withMode 0 := fun e => by cases e <;> rfl
  have hview : ∀ fs : FileSystem, fs.shown l = (fs.view l).map (·.withMode 0) := fun fs => by
    rw [view, shown, Option.map_map]
    congr 1
    funext e
    exact (hbare e).symm
  rw [hview, hview, h]

abbrev Scene := Location → Option Entry

/-- A tree looks so, apart from what the directories of a store hold. -/
def Shows (g : Grounds) (fs : FileSystem) (b : Scene) : Prop := ∀ l, ¬g.Within l → fs.shown l = b l

theorem Shows.alike {b : Scene} (h : Shows g fs b) (ha : Alike g fs fs') : Shows g fs' b :=
  fun l hl => (shown_eq_of_view (ha l hl)).trans (h l hl)

/-- A tree looks so outside a directory. -/
def Appears (away : Location) (fs : FileSystem) (b : Scene) : Prop :=
  ∀ l, ¬away <:+ l → fs.shown l = b l

theorem Appears.alike {away : Location} {b : Scene} (h : Appears away fs b) (hg : g.Inside away)
    (ha : Alike g fs fs') : Appears away fs' b :=
  fun l hl => (shown_eq_of_view (ha l (hg.outside hl).not_within)).trans (h l hl)

def Scene.paved (b : Scene) (l : Location) : Scene := fun k =>
  if k <:+ l ∧ b k = none then some (.directory 0) else b k

def WayMade (l : Location) (fs fs' : FileSystem) : Prop :=
  ∀ k, fs'.at k = fs.at k ∨ k <:+ l ∧ fs.at k = none ∧ ∃ m, fs'.at k = some (.directory m)

namespace WayMade

theorem refl (l : Location) (fs : FileSystem) : WayMade l fs fs := fun _ => .inl rfl

theorem trans {fs₁ : FileSystem} (h : WayMade l fs fs₁) (h' : WayMade l fs₁ fs') : WayMade l fs fs' := by
  intro k
  rcases h' k with heq' | ⟨hk, hnone, hm⟩
  · rw [heq']
    exact h k
  · rcases h k with heq | ⟨-, -, m, hm'⟩
    · exact .inr ⟨hk, heq ▸ hnone, hm⟩
    · rw [hnone] at hm'; cases hm'

theorem of_edit {m : Nat} (h : Edit fs k (some (.directory m)) fs') (hk : k <:+ l)
    (hnone : fs.at k = none) : WayMade l fs fs' := by
  intro j
  by_cases hj : j = k
  · subst hj
    exact .inr ⟨hk, hnone, m, h.at_self⟩
  · exact .inl (h.at_of_ne hj)

theorem unlinked (h : WayMade k fs fs') (hl : Unlinked fs l) : Unlinked fs' l := by
  intro j hj t
  rcases h j with heq | ⟨-, -, m, hm⟩
  · rw [heq]
    exact hl j hj t
  · rw [hm]
    nofun

theorem shown (h : WayMade l fs fs') (hs : fs'.Sound) (hl : ∃ m, fs'.at l = some (.directory m))
    (k : Location) : fs'.shown k = Scene.paved fs.shown l k := by
  rw [Scene.paved]
  split
  · next hk =>
    obtain ⟨m, hm⟩ := hs.way_up hl k hk.1
    rw [FileSystem.shown, hm]
    rfl
  · next hk =>
    rcases h k with heq | ⟨hkl, hnone, -⟩
    · exact shown_of_at heq
    · exact absurd ⟨hkl, shown_eq_none.2 hnone⟩ hk

end WayMade

namespace Scene

variable (b : Scene)

def written (l : Location) (content : Bytes) : Scene := fun k =>
  if k = l then some (.file 0 content) else b.paved l.tail k

def removed (l : Location) : Scene := fun k => if k = l then none else b k

def moved (l l' : Location) : Scene := fun k =>
  if k = l' then b l else if k = l then none else b.paved l'.tail k

end Scene

section Shown

variable {fs₀ fs₁ : FileSystem} {v w : Bytes} {c j : Location} {m : Nat} {content : Bytes}

theorem shows_written (hway : WayMade j fs fs₀) (hs : fs₀.Sound)
    (hj : ∃ m, fs₀.at j = some (.directory m)) (hsame : Alike g fs₀ fs₁)
    (he : Edit fs₁ (w :: j) (some (.file m content)) fs') :
    Shows g fs' (Scene.written fs.shown (w :: j) content) := by
  intro k hk
  rw [Scene.written]
  split
  · next heq =>
    rw [heq, shown, he.at_self]
    rfl
  · next hne =>
    rw [shown_of_at (he.at_of_ne hne), shown_eq_of_view (hsame k hk)]
    exact hway.shown hs hj k

theorem shows_removed (hsame : Alike g fs fs₁) (he : Edit fs₁ l none fs') :
    Shows g fs' (Scene.removed fs.shown l) := by
  intro k hk
  rw [Scene.removed]
  split
  · next heq =>
    rw [heq, shown, he.at_self]
    rfl
  · next hne => rw [shown_of_at (he.at_of_ne hne), shown_eq_of_view (hsame k hk)]

/-- Moving a file to a free place changes these two places alone. -/
theorem at_moved_file (hs : fs.Sound) (hnone : fs.at (w :: j) = none)
    (hm : Mutation.Moved fs c v j w (.file m content) fs') (k : Location) : fs'.at k =
      if k = w :: j then some (.file m content) else if k = v :: c then none else fs.at k := by
  have hfile := hm.entry
  rw [hm.relocated, at_relocate hs hm.movable]
  by_cases hwj : w :: j <:+ k
  · rw [if_pos hwj]
    obtain ⟨x, rfl⟩ := hwj
    split
    · next heq =>
      obtain rfl : x = [] := List.append_left_eq_self.1 heq
      simpa using hfile
    · next hne =>
      have hx : x ≠ [] := fun hc => hne (by rw [hc]; rfl)
      have hbelow : fs.at (x ++ v :: c) = none := hs.none_below (by simp [hfile])
        (List.suffix_append x _) fun hc => hx (List.append_left_eq_self.1 hc.symm)
      have hfree : fs.at (x ++ w :: j) = none := hs.none_below (by simp [hnone])
        (List.suffix_append x _) (Ne.symm hne)
      have hmoved : List.take ((x ++ w :: j).length - (w :: j).length) (x ++ w :: j) = x := by simp
      rw [hmoved, hbelow, hfree, ite_self]
  · have hkw : k ≠ w :: j := fun heq => hwj (heq ▸ List.suffix_refl _)
    rw [if_neg hwj, if_neg hkw]
    by_cases hvc : v :: c <:+ k
    · rw [if_pos hvc]
      split
      · rfl
      · next hne => exact (hs.none_below (by simp [hfile]) hvc (Ne.symm hne)).symm
    · have hkv : k ≠ v :: c := fun heq => hvc (heq ▸ List.suffix_refl _)
      rw [if_neg hvc, if_neg hkv]

theorem shows_moved (hway : WayMade j fs fs₁) (hs₁ : fs₁.Sound)
    (hfile : fs.at (v :: c) = some (.file m content)) (hnone : fs₁.at (w :: j) = none)
    (hm : Mutation.Moved fs₁ c v j w (.file m content) fs') :
    Shows g fs' (Scene.moved fs.shown (v :: c) (w :: j)) := by
  intro k _
  rw [Scene.moved, shown, at_moved_file hs₁ hnone hm]
  split
  · rw [shown, hfile]
  split
  · rfl
  · exact hway.shown hs₁ hm.target.directory k

end Shown

namespace CommandLine

/-- What is seen after a command. -/
def FileCommand.effect (root : Path) (b : Scene) : FileCommand → Scene
  | write p text => b.written (spelled root p) (Utf8.encode text)
  | remove p => b.removed (spelled root p)
  | move p q => b.moved (spelled root p) (spelled root q)

def FileCommand.places (root : Path) : FileCommand → List Location
  | write p _ | remove p => [spelled root p]
  | move p q => [spelled root p, spelled root q]

theorem FileCommand.appears_effect {away : Location} {b : Scene} {root : Path} {c : FileCommand}
    (h : Appears away fs b) (hg : g.Inside away) (hplaces : ∀ l ∈ c.places root, ¬away <:+ l)
    (h' : Shows g fs' (c.effect root fs.shown)) : Appears away fs' (c.effect root b) := by
  have hpaved : ∀ l k, ¬away <:+ k → Scene.paved fs.shown l k = b.paved l k := fun l k hk => by
    rw [Scene.paved, Scene.paved, h k hk]
  intro k hk
  rw [h' k (hg.outside hk).not_within]
  cases c with
  | write p text => simp only [effect, Scene.written, hpaved _ _ hk]
  | remove p => simp only [effect, Scene.removed, h k hk]
  | move p q =>
    have hsource : ¬away <:+ spelled root p := hplaces _ (by simp [places])
    simp only [effect, Scene.moved, hpaved _ _ hk, h _ hsource]

structure Machine where
  scene : Scene
  stack : List Scene

namespace Machine

variable (s : Machine)

def change (root : Path) (c : FileCommand) : Machine := ⟨c.effect root s.scene, s.scene :: s.stack⟩

/-- The uppermost scene is taken back, if there is one. -/
def undo : Machine :=
  match s.stack with
  | [] => s
  | b :: bs => ⟨b, bs⟩

end Machine

end CommandLine
end Retrace
