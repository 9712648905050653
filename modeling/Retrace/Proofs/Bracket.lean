import Retrace.Proofs.Undo

/-!
Changes that are recorded and then made. Each leaves behind an operation that undoes it and, where
one is needed, the backup of what was there (`Bracket.traced`).
-/
namespace Retrace

open FileSystem Retrace.Path Script

structure Change where
  id : String
  time : Instant
  path : Path
  mutation : Mutation
  deriving DecidableEq, Repr

namespace Change

/-- What is said about a change: where a moved entry comes from, and which permission bits go. -/
def details (c : Change) (fs : FileSystem) (root : Path) : Operation.Details :=
  match c.mutation with
  | .move source => { previousPath := some source }
  | .chmod _ => { previousMode := (fs.at (spelled root c.path)).map (·.mode % 0o10000) }
  | _ => {}

/-- What replaced or removed content can be put back beside its place. -/
def Roomy (fs fs' : FileSystem) (root : Path) (c : Change) : Prop :=
  let l := spelled root c.path
  match c.mutation with
  | .update .. => fs.at l = none ∨ Room fs' (ofNames true l.tail) l.tail
  | .delete => Room fs' (ofNames true l.tail) l.tail
  | _ => True

instance (fs fs' : FileSystem) (root : Path) : (c : Change) → Decidable (c.Roomy fs fs' root)
  | ⟨_, _, p, .update ..⟩ => inferInstanceAs (Decidable (fs.at (spelled root p) = none ∨ Room _ _ _))
  | ⟨_, _, _, .delete⟩ => inferInstanceAs (Decidable (Room _ _ _))
  | ⟨_, _, _, .create ..⟩ | ⟨_, _, _, .copy ..⟩ | ⟨_, _, _, .move _⟩ | ⟨_, _, _, .symlink _⟩
  | ⟨_, _, _, .directoryCreate⟩ | ⟨_, _, _, .chmod _⟩ => .isTrue trivial

def make? (c : Change) (m : Manager) (fs : FileSystem) :
    Option (Manager × FileSystem × FileSystem) :=
  match (m.add c.id c.time c.mutation.kind c.path (c.details fs m.root)).run fs with
  | ((.ok _, m'), fs₁) => (c.mutation.perform fs₁ m.root c.path).toOption.map (m', fs₁, ·)
  | _ => none

end Change

structure Bracket (g : Grounds) (m : Manager) (fs : FileSystem) (c : Change) (m' : Manager)
    (fs₁ fs' : FileSystem) : Prop where
  fits : c.mutation.Fits g fs m.root c.path
  recorded : (m.add c.id c.time c.mutation.kind c.path (c.details fs m.root)).run fs =
    ((.ok c.id, m'), fs₁)
  made : c.mutation.perform fs₁ m.root c.path = .ok fs'

theorem Bracket.of_make? {g : Grounds} {m : Manager} {fs : FileSystem} {c : Change}
    {x : Manager × FileSystem × FileSystem} (hf : c.mutation.Fits g fs m.root c.path)
    (h : c.make? m fs = some x) : Bracket g m fs c x.1 x.2.1 x.2.2 := by
  rw [Change.make?] at h
  split at h
  · next r m₁ fs₂ hadd =>
    cases hmade : c.mutation.perform fs₂ m.root c.path with
    | error e => simp [hmade, Except.toOption] at h
    | ok fs₃ =>
      simp only [hmade, Except.toOption, Option.map_some, Option.some.injEq] at h
      subst h
      obtain ⟨rfl, -⟩ := Manager.add_ok hadd
      exact ⟨hf, hadd, hmade⟩
  · cases h

variable {g : Grounds} {s : Store} {fs fs₁ fs' R R' : FileSystem} {d : Location} {w : Bytes}
  {op : Operation} {need : Option Bytes} {x : Operation × Option Bytes} {root p : Path} {μ : Mutation}

def Secured (g : Grounds) (s : Store) (fs : FileSystem) (x : Operation × Option Bytes) : Prop :=
  ∀ b ∈ x.2, Backed fs g.backups x.1.id b ∧
    Aims fs s.backupsDirectory g.backups (backupName x.1.id)

theorem Secured.congr (h : Secured g s fs x) (hk : Keeps g s fs')
    (hat : fs'.at (backupName x.1.id :: g.backups) = fs.at (backupName x.1.id :: g.backups)) :
    Secured g s fs' x := by
  intro b hb
  obtain ⟨⟨m, hm, hr⟩, ha⟩ := h b hb
  exact ⟨⟨m, hat.trans hm, hr⟩, ha.of_leads hk.backups⟩

theorem Secured.undisturbed (h : Secured g s fs x) (hk : Keeps g s fs) (hu : Undisturbed g fs fs') :
    Secured g s fs' x :=
  h.congr (hu.keeps hk) (hu.at_eq _ (.inl (Grounds.within_cons (by simp [Grounds.folders]) _)))

/-- An operation undoes what led from one tree to another, and no more than its backup was written
in between. -/
structure Traced (g : Grounds) (s : Store) (x : Operation × Option Bytes) (fs fs' : FileSystem) :
    Prop where
  undoes : Undoes g s x.1 x.2 fs fs'
  secured : Secured g s fs' x
  keeps : Keeps g s fs'
  folders : ∀ d ∈ g.folders, fs'.at d = fs.at d
  transactions : ∀ w, fs'.at (w :: g.transactions) = fs.at (w :: g.transactions)
  backups : ∀ w, w ≠ backupName x.1.id → fs'.at (w :: g.backups) = fs.at (w :: g.backups)

theorem isReadable_of_written (b : Bytes) : (Entry.file 0o600 b).isReadable = true := by
  rw [Entry.isReadable, Entry.mode]; decide

/-! ### Recording -/

namespace Manager

variable {m m' : Manager} {id : String} {now : Instant} {kind : Operation.Kind}
  {details : Operation.Details} {t : Transaction} {previous : Option Bytes}

theorem Added.tended (h : Added m fs id now kind p details t previous m' fs')
    (hk : Keeps g m.store fs) (hid : Plain id) : Tended g fs fs' := by
  rcases h.backed hk hid with ⟨-, hsame⟩ | ⟨b, -, -, he, -⟩
  · subst hsame; exact Tended.refl hk
  · exact hk.tended_edit (by simp [Grounds.folders]) (by simp) he

/-- A change that was made after it was recorded is undone by the operation that was added. -/
theorem Added.traced (h : Added m fs id now kind p details t previous m' fs₁)
    (hk : Keeps g m.store fs) (hid : Plain id)
    (hu : Undoes g m.store (m.operationOf id now kind p details previous) need fs₁ fs')
    (hneed : ∀ b ∈ need, previous = some b) (hund : Undisturbed g fs₁ fs') :
    Traced g m.store (m.operationOf id now kind p details previous, need) fs fs' := by
  have ht := h.tended hk hid
  have hk₁ := ht.keeps hk
  have hstay : ∀ d ∈ g.folders, ∀ w, fs'.at (w :: d) = fs₁.at (w :: d) := fun d hd w =>
    hund.at_eq _ (.inl (Grounds.within_cons hd w))
  have htb := hk.transactions_ne_backups
  refine
    { undoes := hu.of_tended ht, keeps := hund.keeps hk₁
      folders := fun d hd => (hund.at_eq d (.inr (List.mem_append_left _ hd))).trans
        (ht.beyond d (hk.folder_not_within hd))
      secured := Secured.undisturbed (fun b hb => ?_) hk₁ hund
      transactions := fun w => ?_
      backups := fun w hw => ?_ }
  · have hb' := hneed b hb
    rcases h.backed hk hid with ⟨hno, -⟩ | ⟨b', hb₁, -, he, ha⟩
    · rw [hu.needs, show need = some b from hb] at hno
      cases hno
    · obtain rfl : b' = b := Option.some.inj (hb₁.symm.trans hb')
      exact ⟨⟨_, he.at_self, isReadable_of_written b'⟩, ha.of_leads hk₁.backups⟩
  · rw [hstay _ (by simp [Grounds.folders])]
    rcases h.backed hk hid with ⟨-, hsame⟩ | ⟨b, -, -, he, -⟩
    · rw [hsame]
    · exact he.at_of_ne fun heq => htb (List.cons.inj heq).2
  · rw [hstay _ (by simp [Grounds.folders])]
    rcases h.backed hk hid with ⟨-, hsame⟩ | ⟨b, -, -, he, -⟩
    · rw [hsame]
    · exact he.at_of_ne fun heq => hw (List.cons.inj heq).1

end Manager

/-! ### Making a change -/

namespace Mutation

theorem Reachable.tended {l : Location} (h : Reachable g fs l) (ht : Tended g fs fs') :
    Reachable g fs' l := by
  obtain ⟨m, hm⟩ := h.parent
  refine ⟨h.apart, m, ?_⟩
  rw [ht.beyond _ (h.apart.above_not_within (List.tail_suffix l))]
  exact hm

theorem Fits.tended (h : μ.Fits g fs root p) (ht : Tended g fs fs') : μ.Fits g fs' root p := by
  have hat : ∀ l, Reachable g fs l → fs'.at l = fs.at l := fun l hl =>
    ht.beyond l (hl.apart.not_within (List.suffix_refl l))
  refine ⟨h.place.tended ht, ?_, fun q hq => ?_⟩
  · have hmeant := h.meant
    cases μ <;> simpa only [Meant, hat _ h.place] using hmeant
  · obtain ⟨hsource, hsome⟩ := h.source q hq
    exact ⟨hsource.tended ht, by rw [hat _ hsource]; exact hsome⟩

end Mutation

theorem Tended.aims (ht : Tended g fs fs') (hl : g.Apart (w :: d)) (hn : ∀ u ∈ d, IsName u)
    (ha : Aims fs' (ofNames true d) d w) : Aims fs (ofNames true d) d w :=
  ha.of_view ht.sound hn fun k hk =>
    (ht.alike k (hl.above_not_within (hk.trans (List.suffix_cons w d)))).symm

section Made

variable {m m' : Manager} {id : String} {now : Instant} {kind : Operation.Kind}
  {details : Operation.Details} {t : Transaction} {previous : Option Bytes} {n : Nat}
  {content b : Bytes}

variable (hk : Keeps g m.store fs) (hid : Plain id)
  (h : Manager.Added m fs id now kind p details t previous m' fs₁)
  (hp : m.root.normalize p = ofNames true (w :: d)) (hn : ∀ u ∈ w :: d, IsName u)
  (hl : g.Apart (w :: d)) (hc : details.previousContent = none)

include hk hid h hp hn hl hc

theorem previous_eq_none (ha : Aims fs₁ (ofNames true d) d w) (hx : fs₁.at (w :: d) = none) :
    previous = none := by
  have ht := h.tended hk hid
  have hnd : ∀ u ∈ d, IsName u := fun u hu => hn u (List.mem_cons_of_mem _ hu)
  have hfound := h.found
  rw [hc, hp, ← ofNames_join d hnd (hn w List.mem_cons_self), Manager.previousBytes] at hfound
  exact Files.snapshot_none (ht.aims hl hnd ha)
    ((ht.beyond _ (hl.not_within (List.suffix_refl _))).symm.trans hx) hfound

theorem previous_eq_some (ha : Aims fs₁ (ofNames true d) d w)
    (hx : fs₁.at (w :: d) = some (.file n b)) : previous = some b := by
  have ht := h.tended hk hid
  have hnd : ∀ u ∈ d, IsName u := fun u hu => hn u (List.mem_cons_of_mem _ hu)
  have hfound := h.found
  rw [hc, hp, ← ofNames_join d hnd (hn w List.mem_cons_self), Manager.previousBytes] at hfound
  exact Files.snapshot_file (ht.aims hl hnd ha)
    ((ht.beyond _ (hl.not_within (List.suffix_refl _))).symm.trans hx) hfound

theorem traced_new_file (ha : Aims fs₁ (ofNames true d) d w) (hx : fs₁.at (w :: d) = none)
    (hy : fs₁.yields d = true) (he : Edit fs₁ (w :: d) (some (.file n content)) fs')
    (hkind : kind = .create ∨ kind = .copy ∨ kind = .update) :
    Traced g m.store (m.operationOf id now kind p details previous, none) fs fs' := by
  have hnone := previous_eq_none hk hid h hp hn hl hc ha hx
  have hk₁ := (h.tended hk hid).keeps hk
  refine h.traced hk hid ?_ (by simp) (Undisturbed.of_edit hl he)
  refine undoes_new_file hl hk₁.sound (fun u hu => hn u (List.mem_cons_of_mem _ hu)) ha hx hy he hp
    (by simp [Manager.requiresBackup_operationOf, hnone]) ?_
  rcases hkind with hkind | hkind | hkind
  · exact .inl hkind
  · exact .inr (.inl hkind)
  · exact .inr (.inr ⟨hkind, by simp [Manager.operationOf, hnone]⟩)

theorem traced_content {o : Option Entry} (ha : Aims fs₁ (ofNames true d) d w)
    (hx : fs₁.at (w :: d) = some (.file n b)) (he : Edit fs₁ (w :: d) o fs')
    (ho : o = none ∨ ∃ n c, o = some (.file n c)) (hroom : Room fs' (ofNames true d) d)
    (hkind : kind = .update ∨ kind = .delete) :
    Traced g m.store (m.operationOf id now kind p details previous, if b = [] then none else some b)
      fs fs' := by
  have hsome := previous_eq_some hk hid h hp hn hl hc ha hx
  have hk₁ := (h.tended hk hid).keeps hk
  refine h.traced hk hid ?_ (fun b' hb' => ?_) (Undisturbed.of_edit hl he)
  · exact undoes_content hl hk₁.sound (fun u hu => hn u (List.mem_cons_of_mem _ hu)) ha hx he ho hroom
      hp hkind (by simp [Manager.operationOf, hsome]) (by simp [Manager.operationOf, hsome])
  · split at hb'
    · cases hb'
    · rw [hsome]; exact hb'

end Made

/-- A change that was made after it was recorded, perhaps with its new content, is undone by the
operation that was added. -/
theorem Manager.Added.change_traced {m m' : Manager} {c : Change} {content : Option String}
    {t : Transaction} {previous : Option Bytes}
    (hadd : m.Added fs c.id c.time c.mutation.kind c.path
      { c.details fs m.root with currentContent := content } t previous m' fs₁)
    (hfits : c.mutation.Fits g fs m.root c.path) (hmade : c.mutation.perform fs₁ m.root c.path = .ok fs')
    (hk : Keeps g m.store fs) (hroot : m.root.isAbsolute = true) (hid : Plain c.id)
    (hroom : c.Roomy fs fs' m.root) :
    ∃ need, Traced g m.store (m.operationOf c.id c.time c.mutation.kind c.path
      { c.details fs m.root with currentContent := content } previous, need) fs fs' := by
  obtain ⟨id, now, p, μ⟩ := c
  have ht := hadd.tended hk hid
  have hk₁ := ht.keeps hk
  replace hfits := hfits.tended ht
  obtain ⟨w, d, hwd, hl, hd⟩ := hfits.place.exists_cons
  have hn : ∀ u ∈ w :: d, IsName u := hwd ▸ isName_of_mem_spelled
  have hnd : ∀ u ∈ d, IsName u := fun u hu => hn u (List.mem_cons_of_mem _ hu)
  have hp : m.root.normalize p = ofNames true (w :: d) := by rw [normalize_eq hroot, hwd]
  have hplace : fs₁.at (w :: d) = fs.at (w :: d) := ht.beyond _ (hl.not_within (List.suffix_refl _))
  have hmeant := hfits.meant
  simp only at hmeant hmade hwd hid
  rw [hwd] at hmeant
  cases μ with
  | create mode content | copy mode content =>
    rw [Mutation.perform, hp] at hmade
    obtain ⟨ha, he, hy⟩ := Mutation.writeFile_ok hk₁.sound hn hd (.inl hmeant) hmade
    exact ⟨none, traced_new_file hk hid hadd hp hn hl rfl ha hmeant (hy hmeant) he (by simp [Mutation.kind])⟩
  | update mode content =>
    rw [Mutation.perform, hp] at hmade
    obtain ⟨ha, he, hy⟩ := Mutation.writeFile_ok hk₁.sound hn hd hmeant hmade
    rcases hmeant with hmeant | ⟨n, b, hmeant⟩
    · exact ⟨none, traced_new_file hk hid hadd hp hn hl rfl ha hmeant (hy hmeant) he
        (by simp [Mutation.kind])⟩
    · have hroom' : Room fs' (ofNames true d) d := by
        simp only [Change.Roomy, hwd, List.tail_cons] at hroom
        exact hroom.resolve_left (by simp [← hplace, hmeant])
      exact ⟨_, traced_content hk hid hadd hp hn hl rfl ha hmeant he (.inr ⟨_, _, rfl⟩) hroom'
        (.inl rfl)⟩
  | delete =>
    rw [Mutation.perform, hp] at hmade
    obtain ⟨n, b, hmeant⟩ := hmeant
    obtain ⟨ha, he, -⟩ := Mutation.removeFile_ok hk₁.sound hn hd hmeant hmade
    have hroom' : Room fs' (ofNames true d) d := by
      simpa only [Change.Roomy, hwd, List.tail_cons] using hroom
    exact ⟨_, traced_content hk hid hadd hp hn hl rfl ha hmeant he (.inl rfl) hroom' (.inr rfl)⟩
  | move q =>
    rw [Mutation.perform, hp] at hmade
    obtain ⟨hsource, hsome⟩ := hfits.source q rfl
    obtain ⟨v, c, hvc, hl', hc⟩ := hsource.exists_cons
    have hn' : ∀ u ∈ v :: c, IsName u := hvc ▸ isName_of_mem_spelled
    have hq : m.root.normalize q = ofNames true (v :: c) := by rw [normalize_eq hroot, hvc]
    rw [hvc] at hsome
    obtain ⟨e, he⟩ := Option.isSome_iff_exists.1 hsome
    rw [hq] at hmade
    have hmoved := Mutation.rename_ok hk₁.sound hn' hc hn hd hmeant he hmade
    refine ⟨none, hadd.traced hk hid ?_ (by simp) ?_⟩
    · exact undoes_move hk₁.sound (fun u hu => hn' u (List.mem_cons_of_mem _ hu)) hnd hl' hl hmeant
        hmoved hp (by simp [Manager.operationOf, Change.details, hq]) rfl
    · rw [hmoved.relocated]
      exact Undisturbed.of_relocate hk₁.sound hmoved.movable hd hl' hl
  | symlink target =>
    rw [Mutation.perform, hp] at hmade
    obtain ⟨ha, he, hy⟩ := Mutation.makeLink_ok hk₁.sound hn hd hmeant hmade
    exact ⟨none, hadd.traced hk hid (undoes_link hl hk₁.sound hnd ha hmeant hy he hp rfl) (by simp)
      (Undisturbed.of_edit hl he)⟩
  | directoryCreate =>
    rw [Mutation.perform, hp] at hmade
    obtain ⟨ha, he, hy⟩ := Mutation.makeDirectory_ok hk₁.sound hn hd hmeant hmade
    exact ⟨none, hadd.traced hk hid (undoes_directory hl hk₁.sound hnd ha hmeant hy he hp rfl)
      (by simp) (Undisturbed.of_edit hl he)⟩
  | chmod mode =>
    rw [Mutation.perform, hp] at hmade
    obtain ⟨e, he, hlink⟩ := hmeant
    obtain ⟨ha, hedit⟩ := Mutation.setMode_ok hk₁.sound hn hd he hlink hmade
    have hmode : ((fs.at (spelled m.root p)).map (·.mode % 0o10000)) = some (e.mode % 0o10000) := by
      rw [hwd, ← hplace, he]
      rfl
    exact ⟨none, hadd.traced hk hid
      (undoes_mode hl hk₁.sound hnd ha he hlink hedit hp rfl hmode (Nat.mod_mod _ _)) (by simp)
      (Undisturbed.of_edit hl hedit)⟩

/-- A change that was recorded and made has an operation that undoes it. -/
theorem Bracket.traced {m m' : Manager} {c : Change} (h : Bracket g m fs c m' fs₁ fs')
    (hk : Keeps g m.store fs) (hroot : m.root.isAbsolute = true) (hid : Plain c.id)
    (hroom : c.Roomy fs fs' m.root) :
    ∃ t op need, m.current = some t ∧ m' = m.append t op ∧ op.id = c.id ∧
      Traced g m.store (op, need) fs fs' := by
  obtain ⟨-, t, previous, hadd⟩ := Manager.add_ok h.recorded
  have hdetails : { c.details fs m.root with currentContent := none } = c.details fs m.root := by
    rw [Change.details]
    split <;> rfl
  have hadd' : m.Added fs c.id c.time c.mutation.kind c.path
      { c.details fs m.root with currentContent := none } t previous m' fs₁ := by
    rw [hdetails]
    exact hadd
  obtain ⟨need, htraced⟩ := hadd'.change_traced h.fits h.made hk hroot hid hroom
  rw [hdetails] at htraced
  exact ⟨t, _, need, hadd.current, hadd.appended, rfl, htraced⟩

end Retrace
