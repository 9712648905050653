import Retrace.Proofs.Mutation
import Retrace.Proofs.Recording
import Retrace.Proofs.Revert

/-!
Operations that undo a change. Reverting such an operation on any tree that looks like the one after
the change gives a tree that looks like the one before (`Undoes`), and does no more than the operation
says (`Reversal`); the changes of files, links, directories, modes and places each have one.
-/
namespace Retrace

open FileSystem Retrace.Path Script

variable {g : Grounds} {s : Store} {fs fs₁ fs' R R' : FileSystem} {c d k l : Location} {v w : Bytes}
  {o o' : Option Entry} {op : Operation} {need : Option Bytes} {content : Bytes} {m n : Nat}
  {e : Entry} {t : Path}

/-- Trees that look alike but for what the directories of the store hold. -/
def Alike (g : Grounds) (fs fs' : FileSystem) : Prop := ∀ k, ¬g.Within k → fs'.view k = fs.view k

theorem Alike.refl (g : Grounds) (fs : FileSystem) : Alike g fs fs := fun _ _ => rfl

theorem Alike.trans (h : Alike g fs fs₁) (h' : Alike g fs₁ fs') : Alike g fs fs' :=
  fun k hk => (h' k hk).trans (h k hk)

theorem Tended.alike (h : Tended g fs fs') : Alike g fs fs' := fun k hk => view_of_at (h.beyond k hk)

structure Undisturbed (g : Grounds) (fs fs' : FileSystem) : Prop where
  sound : fs'.Sound
  workplace : fs'.workplace = fs.workplace
  at_eq : ∀ k, g.Within k ∨ k ∈ g.folders ++ g.ways → fs'.at k = fs.at k

theorem Undisturbed.keeps (h : Undisturbed g fs fs') (hk : Keeps g s fs) : Keeps g s fs' :=
  hk.congr h.sound (fun k hw => h.at_eq k (.inr (List.mem_append_right _ hw))) fun d hd w e he => by
    rw [h.at_eq _ (.inl (Grounds.within_cons hd w))] at he
    exact hk.files d hd w e he

theorem Undisturbed.refl (hs : fs.Sound) : Undisturbed g fs fs := ⟨hs, rfl, fun _ _ => rfl⟩

theorem Undisturbed.trans (h : Undisturbed g fs fs₁) (h' : Undisturbed g fs₁ fs') :
    Undisturbed g fs fs' :=
  ⟨h'.sound, h'.workplace.trans h.workplace, fun k hk => (h'.at_eq k hk).trans (h.at_eq k hk)⟩

theorem Undisturbed.of_edit (hl : g.Apart l) (he : Edit fs l o fs') : Undisturbed g fs fs' where
  sound := he.sound
  workplace := he.workplace
  at_eq k hk := he.at_of_ne fun heq => by
    subst heq
    rcases hk with hk | hk
    · exact hl.not_within (List.suffix_refl k) hk
    · exact hl.1 k hk (List.suffix_refl k)

theorem Undisturbed.of_relocate (hs : fs.Sound) (hmov : Movable fs (v :: c) (w :: d))
    (hd : ∃ m, fs.at d = some (.directory m)) (hl : g.Apart (v :: c)) (hl' : g.Apart (w :: d)) :
    Undisturbed g fs (fs.relocate (v :: c) (w :: d)) where
  sound := hs.relocate hmov hd
  workplace := rfl
  at_eq k hk := by
    have hnot : ∀ l, g.Apart l → ¬l <:+ k := fun l hl hsuf => by
      rcases hk with hk | hk
      · exact hl.not_within hsuf hk
      · exact hl.1 k hk hsuf
    rw [at_relocate hs hmov, if_neg (hnot _ hl'), if_neg (hnot _ hl)]

/-- The place that an absolute path of names spells. -/
def Path.place (p : Path) : Location := p.named.reverse

theorem Path.place_ofNames (h : ∀ u ∈ l, IsName u) : (ofNames true l).place = l := by
  rw [place, named_ofNames h, List.reverse_reverse]

/-- What reverting an operation does to a tree: its place is cleared, content or permission bits are put
back there, or what stands there goes back to where it came from. -/
inductive Reversal (op : Operation) (R : FileSystem) : FileSystem → Prop
  | cleared {R' : FileSystem} (hkind : op.kind ≠ .move) (h : Edit R op.path.place none R') :
    Reversal op R R'
  | refilled {b : Bytes} {R' : FileSystem} (hkind : op.kind = .update ∨ op.kind = .delete)
    (h : Edit R op.path.place (some (.file 0o600 b)) R') : Reversal op R R'
  | remoded {e : Entry} {n : Nat} {R' : FileSystem} (hkind : op.kind = .chmod)
    (hmode : op.previousMode = some n)
    (h : Edit R op.path.place (some (e.withMode (n % 0o10000))) R') : Reversal op R R'
  | movedBack {q : Path} (hkind : op.kind = .move) (hq : op.previousPath = some q)
    (hmov : Movable R op.path.place q.place) : Reversal op R (R.relocate op.path.place q.place)

/-- The operation, with the content of its backup, leads back from one tree to another. -/
structure Undoes (g : Grounds) (s : Store) (op : Operation) (need : Option Bytes)
    (fs fs' : FileSystem) : Prop where
  needs : op.requiresBackup = need.isSome
  digest : ∀ b ∈ need, op.checksum = some (Sha256.hexDigest b)
  revert : ∀ (R : FileSystem) (verify force : Bool), Keeps g s R → Alike g fs' R →
    (∀ b ∈ need, Backed R g.backups op.id b ∧
      Aims R s.backupsDirectory g.backups (backupName op.id)) →
    ∃ a R', (Rollback.revert ⟨s.backupsDirectory⟩ verify force op).run R = (a, R') ∧
      a.verdict = .ok .done ∧ Reversal op R R' ∧ Alike g fs R' ∧ Undisturbed g R R'

theorem Undoes.of_tended (h : Undoes g s op need fs₁ fs') (ht : Tended g fs fs₁) :
    Undoes g s op need fs fs' where
  needs := h.needs
  digest := h.digest
  revert R verify force hk ha hb := by
    obtain ⟨a, R', hrun, hdone, hrev, halike, hund⟩ := h.revert R verify force hk ha hb
    exact ⟨a, R', hrun, hdone, hrev, ht.alike.trans halike, hund⟩

theorem requiresBackup_eq_false (h : op.kind.needsBackup = false) : op.requiresBackup = false := by
  simp [Operation.requiresBackup, h]

/-! ### Changes at one place -/

section Place

theorem alike_of_edits (he : Edit fs (w :: d) o fs') (hR : Alike g fs' R)
    (hb : Edit R (w :: d) o' R') (ho : o'.map Entry.bare = fs.view (w :: d)) : Alike g fs R' := by
  intro k hk
  by_cases hkl : k = w :: d
  · rw [hkl, view, hb.at_self, ho]
  · rw [view_of_at (hb.at_of_ne hkl), hR k hk, view_of_at (he.at_of_ne hkl)]

theorem place_eq (hn : ∀ u ∈ d, IsName u) (hw : IsName w) (hp : op.path = ofNames true (w :: d)) :
    op.path.place = w :: d := by
  rw [hp, place_ofNames]
  intro u hu
  rcases List.mem_cons.1 hu with rfl | hu
  · exact hw
  · exact hn u hu

variable (hl : g.Apart (w :: d))

include hl

theorem view_above (he : Edit fs (w :: d) o fs') (hR : Alike g fs' R) (hk : k <:+ d) :
    R.view k = fs.view k := by
  rw [hR k (hl.above_not_within (hk.trans (List.suffix_cons w d)))]
  exact view_of_at (he.at_of_ne fun heq => absurd (heq ▸ hk).length_le (by simp))

theorem view_self (he : Edit fs (w :: d) o fs') (hR : Alike g fs' R) :
    R.view (w :: d) = o.map Entry.bare := by
  rw [hR _ (hl.not_within (List.suffix_refl _)), view, he.at_self]

theorem aims_of_alike (hs : fs.Sound) (hn : ∀ u ∈ d, IsName u) (ha : Aims fs (ofNames true d) d w)
    (he : Edit fs (w :: d) o fs') (hR : Alike g fs' R) : Aims R (ofNames true d) d w :=
  ha.of_view hs hn fun _ hk => view_above hl he hR hk

theorem yields_of_alike (ha : Aims fs (ofNames true d) d w) (he : Edit fs (w :: d) o fs')
    (hR : Alike g fs' R) : R.yields d = fs.yields d := by
  obtain ⟨m, hm⟩ := ha.directory
  exact yields_of_view (view_above hl he hR (List.suffix_refl d)) hm

theorem firm_of_alike (hs : fs.Sound) (hn : ∀ u ∈ d, IsName u) (ha : Aims fs (ofNames true d) d w)
    (he : Edit fs (w :: d) o fs') (hR : Alike g fs' R) : Firm R (ofNames true d) d :=
  ((ha.clear hs hn).of_view fun _ hk => view_above hl he hR hk).firm hn ha.noNul

theorem leaf_of_alike (he : Edit fs (w :: d) o fs') (ho : o = none ∨ ∃ n c, o = some (.file n c))
    (hR : Alike g fs' R) : R.at (w :: d) = none ∨ ∃ m c, R.at (w :: d) = some (.file m c) := by
  have hview := view_self hl he hR
  rcases ho with rfl | ⟨n, c, rfl⟩
  · exact .inl (view_eq_none.1 hview)
  · obtain ⟨m', hm'⟩ := view_eq_file (n := 0) hview
    exact .inr ⟨m', c, hm'⟩

theorem room_iff_of_alike (ha : Aims fs (ofNames true d) d w) (he : Edit fs (w :: d) o fs')
    (hR : Alike g fs' R) : Room R (ofNames true d) d ↔ Room fs' (ofNames true d) d := by
  have hview : R.view d = fs'.view d := hR d (hl.above_not_within (List.suffix_cons w d))
  have hin : ∀ v, R.view (v :: d) = fs'.view (v :: d) := fun v => hR _ (hl.sibling_not_within v)
  obtain ⟨m, hm⟩ := ha.directory
  have hm' : fs'.at d = some (.directory m) := by rw [he.at_of_ne (by simp), hm]
  obtain ⟨n, hn, -⟩ := directory_of_view hview hm'
  exact ⟨fun h => h.of_view hn hview.symm fun v => (hin v).symm, fun h => h.of_view hm' hview hin⟩

/-- A new file goes when its operation is reverted. -/
theorem undoes_new_file (hs : fs.Sound) (hn : ∀ u ∈ d, IsName u)
    (ha : Aims fs (ofNames true d) d w) (hx : fs.at (w :: d) = none) (hy : fs.yields d = true)
    (he : Edit fs (w :: d) (some (.file m content)) fs') (hp : op.path = ofNames true (w :: d))
    (hreq : op.requiresBackup = false)
    (hkind : op.kind = .create ∨ op.kind = .copy ∨ op.kind = .update ∧ op.previousContent = none) :
    Undoes g s op none fs fs' where
  needs := hreq
  digest := by simp
  revert R verify force hk hR _ := by
    have haR := aims_of_alike hl hs hn ha he hR
    obtain ⟨m', hm'⟩ := view_eq_file (n := 0) (view_self hl he hR)
    have hrevert : Rollback.revert ⟨s.backupsDirectory⟩ verify force op =
        Rollback.removeCreated ((ofNames true d).join ⟨w⟩) := by
      rw [ofNames_join d hn ha.name, ← hp]
      rcases hkind with hkind | hkind | ⟨hkind, hc⟩
      · simp [Rollback.revert, hkind]
      · simp [Rollback.revert, hkind]
      · simp [Rollback.revert, hkind, hreq, Rollback.restoreKnown, hc]
    have hedit : Edit R (w :: d) none (R.erase (w :: d)) :=
      Edit.erase hk.sound (hk.sound.none_in (by simp [hm']))
    have hrev : Reversal op R (R.erase (w :: d)) :=
      .cleared (by rcases hkind with h | h | ⟨h, -⟩ <;> simp [h]) (by rw [place_eq hn ha.name hp]; exact hedit)
    refine ⟨.done, _, ?_, rfl, hrev, alike_of_edits he hR hedit ?_, Undisturbed.of_edit hl hedit⟩
    · rw [hrevert]
      exact Rollback.removeCreated_run haR hm' rfl ((yields_of_alike hl ha he hR).trans hy)
    · simp [view, hx]

/-- The content of a file that was overwritten or removed comes back. -/
theorem undoes_content {b : Bytes} (hs : fs.Sound) (hn : ∀ u ∈ d, IsName u)
    (ha : Aims fs (ofNames true d) d w) (hx : fs.at (w :: d) = some (.file m b))
    (he : Edit fs (w :: d) o fs') (ho : o = none ∨ ∃ n c, o = some (.file n c))
    (hroom : Room fs' (ofNames true d) d) (hp : op.path = ofNames true (w :: d))
    (hkind : op.kind = .update ∨ op.kind = .delete)
    (hc : op.previousContent = some (Utf8.lossy b)) (hsum : op.checksum = some (Sha256.hexDigest b)) :
    Undoes g s op (if b = [] then none else some b) fs fs' where
  needs := by
    have hneeds : op.kind.needsBackup = true := by
      rcases hkind with hk | hk <;> simp [hk, Operation.Kind.needsBackup]
    by_cases hb : b = [] <;> simp [Operation.requiresBackup, hneeds, hc, Utf8.lossy_eq_empty_iff, hb]
  digest b' hb' := by
    split at hb'
    · cases hb'
    · cases hb'; exact hsum
  revert R verify force hk hR hback := by
    have hdone : ∃ a R', (Rollback.revert ⟨s.backupsDirectory⟩ verify force op).run R = (a, R') ∧
        a.verdict = .ok .done ∧ Edit R (w :: d) (some (.file 0o600 b)) R' :=
      Rollback.restore_run hk.sound (firm_of_alike hl hs hn ha he hR) (aims_of_alike hl hs hn ha he hR)
        ((room_iff_of_alike hl ha he hR).2 hroom) (leaf_of_alike hl he ho hR)
        (by rw [ofNames_join d hn ha.name, hp]) hkind hc hsum fun hb => hback b (by simp [hb])
    obtain ⟨a, R', hrun, hverdict, hedit⟩ := hdone
    have hrev : Reversal op R R' := .refilled hkind (by rw [place_eq hn ha.name hp]; exact hedit)
    refine ⟨a, R', hrun, hverdict, hrev, alike_of_edits he hR hedit ?_, Undisturbed.of_edit hl hedit⟩
    simp [view, hx, Entry.bare]

theorem undoes_link (hs : fs.Sound) (hn : ∀ u ∈ d, IsName u) (ha : Aims fs (ofNames true d) d w)
    (hx : fs.at (w :: d) = none) (hy : fs.yields d = true)
    (he : Edit fs (w :: d) (some (.link t)) fs') (hp : op.path = ofNames true (w :: d))
    (hkind : op.kind = .symlink) : Undoes g s op none fs fs' where
  needs := requiresBackup_eq_false (by rw [hkind]; rfl)
  digest := by simp
  revert R verify force hk hR _ := by
    have haR := aims_of_alike hl hs hn ha he hR
    have hxR : R.at (w :: d) = some (.link t) := view_eq_link (view_self hl he hR)
    have hrevert : Rollback.revert ⟨s.backupsDirectory⟩ verify force op =
        Rollback.removeLink ((ofNames true d).join ⟨w⟩) := by
      rw [ofNames_join d hn ha.name, ← hp, Rollback.revert, hkind]
    have hedit : Edit R (w :: d) none (R.erase (w :: d)) :=
      Edit.erase hk.sound (hk.sound.none_in (by simp [hxR]))
    have hrev : Reversal op R (R.erase (w :: d)) :=
      .cleared (by simp [hkind]) (by rw [place_eq hn ha.name hp]; exact hedit)
    refine ⟨.done, _, ?_, rfl, hrev, alike_of_edits he hR hedit ?_, Undisturbed.of_edit hl hedit⟩
    · rw [hrevert]
      exact Rollback.removeLink_run haR hxR ((yields_of_alike hl ha he hR).trans hy)
    · simp [view, hx]

/-- A new directory goes when its operation is reverted, for by then it is empty again. -/
theorem undoes_directory (hs : fs.Sound) (hn : ∀ u ∈ d, IsName u)
    (ha : Aims fs (ofNames true d) d w) (hx : fs.at (w :: d) = none) (hy : fs.yields d = true)
    (he : Edit fs (w :: d) (some (fs.newDirectory d)) fs') (hp : op.path = ofNames true (w :: d))
    (hkind : op.kind = .directoryCreate) : Undoes g s op none fs fs' where
  needs := requiresBackup_eq_false (by rw [hkind]; rfl)
  digest := by simp
  revert R verify force hk hR _ := by
    have haR := aims_of_alike hl hs hn ha he hR
    obtain ⟨m, hm, hread⟩ : ∃ m, R.at (w :: d) = some (.directory m) ∧ m.testBit 8 = true := by
      have hview := view_self hl he hR
      rw [newDirectory] at hview
      split at hview
      · obtain ⟨m, hm, hmode⟩ := view_eq_directory hview
        exact ⟨m, hm, by rw [testBit_eq (n := 0o2755) hmode (by omega)]; rfl⟩
      · obtain ⟨m, hm, hmode⟩ := view_eq_directory hview
        exact ⟨m, hm, by rw [testBit_eq (n := 0o755) hmode (by omega)]; rfl⟩
    have hempty : ∀ u, R.at (u :: w :: d) = none := fun u => by
      refine none_of_view (hR _ (hl.not_within (List.suffix_cons u (w :: d)))) ?_
      rw [he.at_of_ne (by simp)]
      exact hs.none_in (by simp [hx]) u
    have hrevert : Rollback.revert ⟨s.backupsDirectory⟩ verify force op =
        Rollback.removeDirectory ((ofNames true d).join ⟨w⟩) := by
      rw [ofNames_join d hn ha.name, ← hp, Rollback.revert, hkind]
    have hedit : Edit R (w :: d) none (R.erase (w :: d)) := Edit.erase hk.sound hempty
    have hrev : Reversal op R (R.erase (w :: d)) :=
      .cleared (by simp [hkind]) (by rw [place_eq hn ha.name hp]; exact hedit)
    refine ⟨.done, _, ?_, rfl, hrev, alike_of_edits he hR hedit ?_, Undisturbed.of_edit hl hedit⟩
    · rw [hrevert]
      exact Rollback.removeDirectory_run haR hm hread hempty ((yields_of_alike hl ha he hR).trans hy)
    · simp [view, hx]

/-- The mode of a file or directory comes back. -/
theorem undoes_mode (hs : fs.Sound) (hn : ∀ u ∈ d, IsName u) (ha : Aims fs (ofNames true d) d w)
    (hx : fs.at (w :: d) = some e) (hlink : e.kind ≠ .link)
    (he : Edit fs (w :: d) (some (e.withMode m)) fs') (hp : op.path = ofNames true (w :: d))
    (hkind : op.kind = .chmod) (hmode : op.previousMode = some n)
    (hn' : n % 0o10000 = e.mode % 0o10000) : Undoes g s op none fs fs' where
  needs := requiresBackup_eq_false (by rw [hkind]; rfl)
  digest := by simp
  revert R verify force hk hR _ := by
    have haR := aims_of_alike hl hs hn ha he hR
    have hview := view_self hl he hR
    obtain ⟨e', he', hlink', hback⟩ : ∃ e', R.at (w :: d) = some e' ∧ e'.kind ≠ .link ∧
        (e'.withMode (n % 0o10000)).bare = e.bare := by
      cases e with
      | file m₀ b =>
        obtain ⟨m', hm'⟩ := view_eq_file (n := 0) hview
        exact ⟨_, hm', by simp [Entry.kind], rfl⟩
      | directory m₀ =>
        obtain ⟨m', hm', -⟩ := view_eq_directory hview
        refine ⟨_, hm', by simp [Entry.kind], ?_⟩
        simp only [Entry.withMode, Entry.bare, hn', Entry.mode, Nat.mod_mod]
      | link u => exact absurd rfl hlink
    have hrevert : Rollback.revert ⟨s.backupsDirectory⟩ verify force op = Rollback.restoreMode op := by
      rw [Rollback.revert, hkind]
    have hedit : Edit R (w :: d) (some (e'.withMode (n % 0o10000)))
        (R.insert (w :: d) (e'.withMode (n % 0o10000))) := by
      refine Edit.insert hk.sound haR.directory ?_
      rw [he']
      cases e' <;> simp [Entry.withMode, Entry.isDirectory]
    have hrev : Reversal op R (R.insert (w :: d) (e'.withMode (n % 0o10000))) :=
      .remoded hkind hmode (by rw [place_eq hn ha.name hp]; exact hedit)
    refine ⟨.done, _, ?_, rfl, hrev, alike_of_edits he hR hedit ?_, Undisturbed.of_edit hl hedit⟩
    · rw [hrevert]
      exact Rollback.restoreMode_run haR (by rw [ofNames_join d hn ha.name, hp]) he' hlink' hmode
    · rw [view, hx]
      exact congrArg some hback

end Place

/-! ### Moves -/

/-- A moved entry goes back to where it was, with all that is below it. -/
theorem undoes_move (hs : fs.Sound) (hn : ∀ u ∈ c, IsName u) (hn' : ∀ u ∈ d, IsName u)
    (hl : g.Apart (v :: c)) (hl' : g.Apart (w :: d)) (hx : fs.at (w :: d) = none)
    (hm : Mutation.Moved fs c v d w e fs') (hp : op.path = ofNames true (w :: d))
    (hq : op.previousPath = some (ofNames true (v :: c))) (hkind : op.kind = .move) :
    Undoes g s op none fs fs' where
  needs := requiresBackup_eq_false (by rw [hkind]; rfl)
  digest := by simp
  revert R verify force hk hR _ := by
    have hat : ∀ k, fs'.at k = _ := fun k => hm.relocated ▸ at_relocate hs hm.movable k
    have habove : ∀ k, k <:+ c ∨ k <:+ d → fs'.at k = fs.at k := by
      intro k hk
      rw [hat, if_neg, if_neg]
      · rcases hk with hk | hk
        · exact fun hc => absurd (hc.trans hk).length_le (by simp)
        · exact fun hc => hm.movable.not_into ((hc.trans hk).trans (List.suffix_cons w d))
      · rcases hk with hk | hk
        · exact fun hc => hm.movable.not_out ((hc.trans hk).trans (List.suffix_cons v c))
        · exact fun hc => absurd (hc.trans hk).length_le (by simp)
    have hviewc : ∀ k, k <:+ c → R.view k = fs.view k := fun k hk => by
      rw [hR k (hl.above_not_within (hk.trans (List.suffix_cons v c)))]
      exact view_of_at (habove k (.inl hk))
    have hviewd : ∀ k, k <:+ d → R.view k = fs.view k := fun k hk => by
      rw [hR k (hl'.above_not_within (hk.trans (List.suffix_cons w d)))]
      exact view_of_at (habove k (.inr hk))
    have hac := hm.source.of_view hs hn hviewc
    have had := hm.target.of_view hs hn' hviewd
    have hfree : R.at (v :: c) = none := by
      refine none_of_view (hR _ (hl.not_within (List.suffix_refl _))) ?_
      rw [hat, if_neg hm.movable.not_out, if_pos (List.suffix_refl _)]
    have hview : R.view (w :: d) = some e.bare := by
      rw [hR _ (hl'.not_within (List.suffix_refl _)), view, hat, if_pos (List.suffix_refl _)]
      simp [hm.entry]
    obtain ⟨e', he', hbare⟩ : ∃ e', R.at (w :: d) = some e' ∧ e'.bare = e.bare := by
      cases hx' : R.at (w :: d) with
      | none => simp [view, hx'] at hview
      | some e' => exact ⟨e', rfl, by simpa [view, hx'] using hview⟩
    have hmov : Movable R (w :: d) (v :: c) :=
      { source_ne_nil := List.cons_ne_nil _ _, target_ne_nil := List.cons_ne_nil _ _
        not_into := hm.movable.not_out, not_out := hm.movable.not_into
        vacant := hk.sound.none_in (by simp [hfree]) }
    have hbar : R.renameBar e' d w c v = none := by
      obtain ⟨mc, hmc⟩ := hm.source.directory
      obtain ⟨md, hmd⟩ := hm.target.directory
      have hyc : R.yields c = true :=
        (yields_of_view (hviewc c (List.suffix_refl c)) hmc).trans hm.source_yields
      have hyd : R.yields d = true :=
        (yields_of_view (hviewd d (List.suffix_refl d)) hmd).trans hm.target_yields
      have hwritable : e'.isDirectory = true → d ≠ c → e'.isWritable = true := by
        intro hdir hne
        have hwas := hm.writable (by rw [← isDirectory_of_bare hbare]; exact hdir) (Ne.symm hne)
        rw [isWritable_of_bare hbare hdir]
        exact hwas
      have hinto : (w :: d).isSuffixOf (v :: c) = false :=
        Bool.eq_false_iff.2 fun h => hm.movable.not_out (List.isSuffixOf_iff_suffix.1 h)
      have hout : (v :: c).isSuffixOf (w :: d) = false :=
        Bool.eq_false_iff.2 fun h => hm.movable.not_into (List.isSuffixOf_iff_suffix.1 h)
      simp only [renameBar, hinto, hout, moveBar, hyc, hyd, hfree]
      simpa using hwritable
    have hrev : Reversal op R (R.relocate (w :: d) (v :: c)) := by
      have hplace := place_eq hn' hm.target.name hp
      have hplace' : (ofNames true (v :: c)).place = v :: c := place_ofNames fun u hu =>
        (List.mem_cons.1 hu).elim (fun h => h ▸ hm.source.name) (hn u)
      have hback := Reversal.movedBack hkind hq (R := R) (by rw [hplace, hplace']; exact hmov)
      rwa [hplace, hplace'] at hback
    refine ⟨.done, _, ?_, rfl, hrev, fun k hkw => ?_, Undisturbed.of_relocate hk.sound hmov hac.directory hl' hl⟩
    · rw [Rollback.revert, hkind]
      exact Rollback.moveBack_run had (by rw [ofNames_join d hn' hm.target.name, hp]) hac
        (by rw [ofNames_join c hn hm.source.name, hq]) he' hfree hbar
    · rw [view, at_relocate hk.sound hmov]
      by_cases hkc : v :: c <:+ k
      · obtain ⟨x, rfl⟩ := hkc
        have hback : R.view (x ++ w :: d) = fs.view (x ++ v :: c) := by
          rw [hR _ (hl'.not_within (List.suffix_append x _)), view, hat,
            if_pos (List.suffix_append x _)]
          simp [view]
        simpa [view] using hback
      · rw [if_neg hkc]
        by_cases hkd : w :: d <:+ k
        · rw [if_pos hkd, view]
          by_cases heq : w :: d = k
          · rw [← heq, hx]
          · rw [hs.none_below (by simp [hx]) hkd heq]
        · rw [if_neg hkd]
          have hsame : R.view k = fs.view k := by
            rw [hR k hkw]
            exact view_of_at (by rw [hat, if_neg hkd, if_neg hkc])
          exact hsame

end Retrace
