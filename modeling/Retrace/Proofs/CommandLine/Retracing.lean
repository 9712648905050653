import Retrace.Proofs.CommandLine.Scene
import Retrace.Proofs.Encoding
import Retrace.Proofs.Outlying
import Retrace.Proofs.Series

/-!
Commands that change a file and succeed. Where no link is on the way, each step of such a command is a
change that the operation recorded for it undoes, the directories that had to be made included, so the
whole command leaves a trail back to the tree that it found (`FileCommand.change_followed`).
-/
namespace Retrace

open FileSystem Retrace.Path

variable {g : Grounds} {s : Store} {fs fs' : FileSystem} {l : Location} {f : Path} {d : Location}

namespace Keeps

theorem apart (hk : Keeps g s fs) (hout : g.Outside l)
    (hl : ∀ e, fs.at l = some e → e.kind = .file) : g.Apart l := by
  refine ⟨fun k hmem hlk => ?_, hout⟩
  obtain ⟨e, he, hkind⟩ := hk.toStands.occupied k hmem
  by_cases heq : l = k
  · subst heq
    exact hkind (hl e he)
  · obtain ⟨m, hm⟩ := hk.sound.above he hlk heq
    cases hl _ hm

end Keeps

/-! ### Operations on paths without links -/

section Unlinked

variable {w v : Bytes} {c : Location} {b : Bytes} {n : Nat}
  (hs : fs.Sound) (hn : ∀ u ∈ w :: d, IsName u) (hl : Unlinked fs d)

include hs hn hl

theorem aims_of_openEmpty {r : Location × FileSystem}
    (h : fs.openEmpty (ofNames true (w :: d)) n = .ok r) : Aims fs (ofNames true d) d w := by
  obtain ⟨a, ha, -⟩ := exists_of_bind (eq_ok_of_named h)
  exact hs.aims_of_openEmpty hn (directory_of_approach hs hn hl ha) h

/-- A file that could be copied to a free place and removed could have been renamed. -/
theorem rename_of_copy {k k' : FileSystem} {m : Nat} (hn' : ∀ u ∈ v :: c, IsName u)
    (hfile : fs.at (v :: c) = some (.file m b))
    (hfree : Aims fs (ofNames true d) d w → fs.at (w :: d) = none)
    (hcopy : fs.copy (ofNames true (v :: c)) (ofNames true (w :: d)) = .ok k)
    (hremove : k.removeFile (ofNames true (v :: c)) = .ok k') :
    ∃ fs', fs.rename (ofNames true (v :: c)) (ofNames true (w :: d)) = .ok fs' := by
  have hnd : ∀ u ∈ d, IsName u := fun u hu => hn u (List.mem_cons_of_mem _ hu)
  have hnc : ∀ u ∈ c, IsName u := fun u hu => hn' u (List.mem_cons_of_mem _ hu)
  obtain ⟨mode, opened, hopen⟩ := openEmpty_of_copy hcopy
  have htarget := aims_of_openEmpty hs hn hl hopen
  have hnone := hfree htarget
  rw [← ofNames_join d hnd htarget.name] at hcopy ⊢
  obtain ⟨hyields, m', b', hedit⟩ := htarget.copy_ok hs hnone hcopy
  -- the copy has left alone the file and all that leads to it
  have hstay : ∀ j, (fs.at j).isSome → k.at j = fs.at j := fun j hj =>
    hedit.at_of_ne fun heq => by simp [heq, hnone] at hj
  have hk : k.at (v :: c) = some (.file m b) := (hstay _ (by simp [hfile])).trans hfile
  obtain ⟨haims, -, hyields'⟩ :=
    Mutation.removeFile_ok hedit.sound hn' (hedit.sound.parent hk) hk hremove
  have habove : ∀ j, j <:+ c → (fs.at j).isSome := fun j hj => by
    obtain ⟨m, hm⟩ := hs.way_up (hs.parent hfile) j hj
    simp [hm]
  have hsource : Aims fs (ofNames true c) c v :=
    haims.of_view hedit.sound hnc fun j hj => view_of_at (hstay j (habove j hj)).symm
  have hyields₁ : fs.yields c = true := by
    rw [yields, hstay c (habove c (List.suffix_refl c))] at hyields'
    exact hyields'
  have hne : v :: c ≠ w :: d := fun heq => by rw [heq, hnone] at hfile; cases hfile
  have hbar : fs.renameBar (.file m b) c v d w = none := by
    have hinto : ¬(v :: c) <:+ (w :: d) := fun hsuffix => by
      rcases List.suffix_cons_iff.1 hsuffix with heq | hsuffix
      · exact hne heq
      · obtain ⟨m, hm⟩ := hs.way_up htarget.directory _ hsuffix
        rw [hfile] at hm
        cases hm
    have hout : ¬(w :: d) <:+ (v :: c) := fun hsuffix => by
      obtain ⟨m, hm⟩ := hs.above hfile hsuffix (Ne.symm hne)
      rw [hnone] at hm
      cases hm
    rw [renameBar, if_neg (by simpa using hinto), if_neg (by simpa using hout), moveBar, hyields₁,
      hyields, hnone]
    rfl
  rw [← ofNames_join c hnc hsource.name, hsource.rename htarget, hfile]
  exact ⟨_, by simp only [if_neg hne, hbar]; rfl⟩

end Unlinked

/-- Writing a file where no link is on the way makes it or overwrites it, with some permission bits. -/
theorem write_unlinked {names : Location} {content : Bytes} (hs : fs.Sound)
    (hn : ∀ v ∈ names, IsName v) (hl : Unlinked fs names)
    (h : fs.write (ofNames true names) content = .ok fs') :
    ∃ w j, names = w :: j ∧ Aims fs (ofNames true j) j w ∧
      (fs.at names = none ∨ ∃ m c, fs.at names = some (.file m c)) ∧
      ∃ mode, Mutation.writeFile fs (ofNames true names) mode content = .ok fs' := by
  obtain ⟨⟨k, fs₁⟩, hopen, h⟩ := exists_of_bind h
  cases names with
  | nil =>
    obtain ⟨a, ha, hrest⟩ := exists_of_bind (eq_ok_of_named hopen)
    have hroot : fs.approach (ofNames true []) = .ok ⟨[], .root, true⟩ := rfl
    obtain rfl := Except.ok.inj (hroot.symm.trans ha)
    cases hrest
  | cons w j =>
    have hlink := hl (w :: j) (List.suffix_refl _)
    have haims := aims_of_openEmpty hs hn (hl.above (List.suffix_cons w j)) hopen
    refine ⟨w, j, rfl, haims, ?_⟩
    rw [← ofNames_join j (fun u hu => hn u (List.mem_cons_of_mem _ hu)) haims.name] at hopen ⊢
    rw [haims.openEmpty hlink] at hopen
    cases hx : fs.at (w :: j) with
    | none =>
      simp only [hx] at hopen
      split at hopen
      · next hy =>
        obtain ⟨rfl, rfl⟩ := Prod.mk.inj (Except.ok.inj hopen)
        dsimp only at h
        rw [at_insert _ _ _ _ (List.cons_ne_nil w j), if_pos rfl] at h
        refine ⟨.inl rfl, 0o644, ?_⟩
        rw [Mutation.writeFile, haims.openEmpty hlink]
        simp only [hx, hy, if_true]
        exact h
      · cases hopen
    | some e =>
      cases e with
      | directory m => simp [hx] at hopen
      | link t => exact absurd hx (hlink t)
      | file m c =>
        simp only [hx] at hopen
        split at hopen
        · next hy =>
          obtain ⟨rfl, rfl⟩ := Prod.mk.inj (Except.ok.inj hopen)
          dsimp only at h
          rw [at_insert _ _ _ _ (List.cons_ne_nil w j), if_pos rfl] at h
          refine ⟨.inr ⟨m, c, rfl⟩, modeWritten m, ?_⟩
          rw [Mutation.writeFile, haims.openEmpty hlink]
          simp only [hx, hy, if_true]
          exact h
        · cases hopen

/-! ### Recorded steps -/

theorem Manager.operationOf_regular {m : Manager} {id : String} {now : Instant}
    {kind : Operation.Kind} {p : Path} {details : Operation.Details} {previous : Option Bytes}
    (hnow : now.Regular) (hmode : ∀ n ∈ details.previousMode, n < 2 ^ 32)
    (hmetadata : details.metadata = []) :
    (m.operationOf id now kind p details previous).Regular ∧
      (m.operationOf id now kind p details previous).isReadable = true := by
  have hfits : ∀ depth, (m.operationOf id now kind p details previous).metadata.fits depth = true := by
    intro depth
    rw [operationOf, hmetadata]
    dsimp only
    split <;> rfl
  exact ⟨⟨hmode, hnow, 0, hfits 0⟩, hfits _⟩

structure Site (g : Grounds) (fs : FileSystem) (l : Location) : Prop where
  names : ∀ v ∈ l, IsName v
  outside : g.Outside l
  unlinked : Unlinked fs l

namespace Site

theorem above {k : Location} (h : Site g fs l) (hk : k <:+ l) : Site g fs k :=
  ⟨fun v hv => h.names v (hk.subset hv), h.outside.above hk, h.unlinked.above hk⟩

theorem made {k : Location} (h : Site g fs l) (hm : WayMade k fs fs') : Site g fs' l :=
  ⟨h.names, h.outside, hm.unlinked h.unlinked⟩

theorem at_eq (h : Site g fs l) (ht : Tended g fs fs') : ∀ k, k <:+ l → fs'.at k = fs.at k :=
  fun k hk => ht.beyond k (h.outside.above hk).not_within

theorem tended (h : Site g fs l) (ht : Tended g fs fs') : Site g fs' l :=
  ⟨h.names, h.outside, h.unlinked.congr (h.at_eq ht)⟩

end Site

namespace CommandLine

open Script Files
open Retrace.CommandLine.Action (Ends)

variable {d d' d₁ : Desk} {fs₁ : FileSystem} {t : Transaction} {xs ys : List (Operation × Option Bytes)}
  {p : Path} {names : Location} {content : Option String} {μ : Mutation}

structure Footing (g : Grounds) (d : Desk) (t : Transaction) (fs : FileSystem) : Prop where
  keeps : Keeps g d.manager.store fs
  root : d.manager.root.isAbsolute = true
  plain : ∀ n, Plain (d.ids n)
  current : d.manager.current = some t

/-- Steps that were recorded, each under the next id of the supply, and then made. What was recorded
can be read again, and undoes what was made. -/
structure Trodden (g : Grounds) (d : Desk) (t : Transaction) (fs : FileSystem)
    (xs : List (Operation × Option Bytes)) (d' : Desk) (fs' : FileSystem) : Prop where
  noted : Recorded.Noted d.manager t (xs.map (·.1)) d'.manager
  desk : d' = { d with taken := d.taken + xs.length, manager := d'.manager }
  ids : xs.map (·.1.id) = (List.range' d.taken xs.length).map d.ids
  readable : d.now.Regular → ∀ x ∈ xs, x.1.Regular ∧ x.1.isReadable = true
  trail : Trail g d.manager.store fs xs fs'

namespace Trodden

theorem refl (ht : d.manager.current = some t) : Trodden g d t fs [] d fs where
  noted := ⟨by simpa using ht, rfl⟩
  desk := rfl
  ids := rfl
  readable _ := by simp
  trail := .nil

theorem footing (h : Trodden g d t fs xs d' fs') (hd : Footing g d t fs) :
    Footing g d' { t with operations := t.operations ++ xs.map (·.1) } fs' where
  keeps := by
    rw [h.noted.manager]
    exact h.trail.keeps hd.keeps
  root := by
    rw [h.noted.manager]
    exact hd.root
  plain := by
    rw [h.desk]
    exact hd.plain
  current := h.noted.current

theorem trans (h : Trodden g d t fs xs d₁ fs₁)
    (h' : Trodden g d₁ { t with operations := t.operations ++ xs.map (·.1) } fs₁ ys d' fs') :
    Trodden g d t fs (xs ++ ys) d' fs' where
  noted := by
    refine ⟨?_, by rw [h'.noted.manager, h.noted.manager]⟩
    rw [h'.noted.current, List.map_append, List.append_assoc]
  desk := by
    have hdesk := h'.desk
    rw [h.desk] at hdesk
    rw [hdesk, List.length_append, Nat.add_assoc]
  ids := by
    have hids := h'.ids
    rw [h.desk] at hids
    rw [List.map_append, h.ids, hids, List.length_append, ← List.map_append, List.range'_append_1]
  readable hnow x hx := by
    rcases List.mem_append.1 hx with hx | hx
    · exact h.readable hnow x hx
    · have hnow' : d₁.now.Regular := by rw [h.desk]; exact hnow
      exact h'.readable hnow' x hx
  trail := by
    have htrail := h'.trail
    rw [h.noted.manager] at htrail
    exact h.trail.trans htrail

end Trodden

/-- A change that was recorded, perhaps with its new content, and then made. -/
theorem trodden_of_added {m : Manager} {previous : Option Bytes} (hd : Footing g d t fs)
    (hfits : μ.Fits g fs d.manager.root p)
    (hadd : d.manager.Added fs (d.ids d.taken) d.now μ.kind p
      { Change.details ⟨d.ids d.taken, d.now, p, μ⟩ fs d.manager.root with currentContent := content }
      t previous m fs₁)
    (hmade : μ.perform fs₁ d.manager.root p = .ok fs')
    (hroom : Change.Roomy fs fs' d.manager.root ⟨d.ids d.taken, d.now, p, μ⟩) :
    ∃ x, Trodden g d t fs [x] { d with taken := d.taken + 1, manager := m } fs' := by
  obtain ⟨need, htraced⟩ := hadd.change_traced (c := ⟨d.ids d.taken, d.now, p, μ⟩) hfits hmade
    hd.keeps hd.root (hd.plain _) hroom
  refine ⟨(_, need), ⟨⟨?_, ?_⟩, rfl, rfl, fun hnow x hx => ?_, .snoc .nil htraced⟩⟩
  · rw [hadd.appended]
    rfl
  · rw [hadd.appended]
    rfl
  · rw [List.mem_singleton.1 hx]
    refine Manager.operationOf_regular hnow (fun n hn => ?_) ?_
    · cases μ with
      | chmod mode =>
        obtain ⟨e, -, rfl⟩ := Option.map_eq_some_iff.1 hn
        exact (Nat.mod_lt _ (by norm_num)).trans (by norm_num)
      | _ => cases hn
    · cases μ <;> rfl

theorem keeps_of_added {m : Manager} {details : Operation.Details} {previous : Option Bytes}
    (hd : Footing g d t fs) (hfits : μ.Fits g fs d.manager.root p)
    (hadd : d.manager.Added fs (d.ids d.taken) d.now μ.kind p details t previous m fs₁)
    (hmade : μ.perform fs₁ d.manager.root p = .ok fs') : Keeps g d.manager.store fs' := by
  have htended := hadd.tended hd.keeps (hd.plain _)
  exact ((hfits.tended htended).undisturbed htended.sound hd.root hmade).keeps (htended.keeps hd.keeps)

/-! ### Directories that are made -/

theorem makeDirectory_unlinked (hs : fs.Sound) (hl : Site g fs l)
    (h : fs.makeDirectory (ofNames true l) = .ok fs') :
    (∃ m, fs.at l.tail = some (.directory m)) ∧ fs.at l = none ∧
      ∃ m, Edit fs l (some (.directory m)) fs' := by
  obtain ⟨a, w, ha, hw, -⟩ := makeDirectory_inv h
  cases l with
  | nil =>
    have hroot : fs.approach (ofNames true []) = .ok ⟨[], .root, true⟩ := rfl
    obtain rfl := Except.ok.inj (hroot.symm.trans ha)
    cases hw
  | cons v i =>
    have hi := directory_of_approach hs hl.names (hl.unlinked.above (List.suffix_cons v i)) ha
    have haims := hs.aims_of_makeDirectory hl.names hi h
    have hmade := h
    rw [← ofNames_join i (fun u hu => hl.names u (List.mem_cons_of_mem _ hu)) haims.name,
      haims.makeDirectory] at hmade
    have hnone : fs.at (v :: i) = none := by
      split at hmade
      · cases hmade
      · assumption
    exact ⟨hi, hnone, _, (Mutation.makeDirectory_ok hs hl.names hi hnone h).2.1⟩

/-- Directories that were made one in the other, each one recorded. -/
theorem makeRecorded_trodden {ps : List Path} (hd : Footing g d t fs) (hl : Site g fs l)
    (hps : ∀ p ∈ ps, ∃ j, j <:+ l ∧ p = ofNames true j)
    (h : Ends (makeRecorded ps) d fs (.ok ()) d' fs') :
    ∃ xs, Trodden g d t fs xs d' fs' ∧ WayMade l fs fs' := by
  induction ps generalizing d fs t with
  | nil =>
    obtain ⟨-, rfl, rfl⟩ := Action.ends_pure.1 h
    exact ⟨[], .refl hd.current, .refl l _⟩
  | cons p ps ih =>
    simp only [makeRecorded, Action.ends_bind_ok] at h
    obtain ⟨id, d₁, fs₁, hrecord, _, d₂, fs₂, hmake, h⟩ := h
    obtain ⟨rfl, -⟩ := record_unbacked rfl hd.current hrecord
    obtain ⟨t', previous, m, hadd, rfl⟩ := record_added hrecord
    obtain rfl := Option.some.inj (hd.current.symm.trans hadd.current)
    obtain ⟨rfl, ⟨hmade, -⟩ | ⟨e, -, hr, -⟩⟩ := Action.ends_call rfl hmake
    swap
    · cases hr
    obtain ⟨j, hj, rfl⟩ := hps p List.mem_cons_self
    have hsite := hl.above hj
    obtain ⟨hparent, hnone, m', hedit⟩ := makeDirectory_unlinked hd.keeps.sound hsite hmade
    have hfits : Mutation.directoryCreate.Fits g fs₁ d.manager.root (ofNames true j) := by
      refine ⟨?_, ?_, fun q hq => by cases hq⟩ <;> rw [spelled_ofNames _ hsite.names]
      · exact ⟨hd.keeps.apart hsite.outside (by simp [hnone]), hparent⟩
      · exact hnone
    have hperform : Mutation.directoryCreate.perform fs₁ d.manager.root (ofNames true j) = .ok fs₂ := by
      rw [Mutation.perform, normalize_ofNames _ hsite.names]
      exact hmade
    have hway := WayMade.of_edit hedit hj hnone
    obtain ⟨x, hx⟩ := trodden_of_added hd hfits hadd hperform trivial
    obtain ⟨xs, hxs, hway'⟩ := ih (hx.footing hd) (hl.made hway)
      (fun q hq => hps q (List.mem_cons_of_mem _ hq)) h
    exact ⟨x :: xs, hx.trans hxs, hway.trans hway'⟩

theorem recordMissing_trodden (hd : Footing g d t fs) (hl : Site g fs l)
    (h : Ends (recordMissing (ofNames true l)) d fs (.ok ()) d' fs') :
    ∃ xs, Trodden g d t fs xs d' fs' ∧ WayMade l.tail fs fs' := by
  simp only [recordMissing, Action.ends_bind_ok, Action.ends_ofScript] at h
  obtain ⟨missing, _, _, ⟨_, hsearch, hm, rfl⟩, h⟩ := h
  obtain rfl := Except.ok.inj hm
  cases l with
  | nil =>
    rw [parent?_ofNames_nil] at hsearch
    obtain ⟨rfl, rfl⟩ := Prod.mk.inj (hsearch : (([] : List Path), fs) = (missing, _))
    exact makeRecorded_trodden hd hl (by simp) h
  | cons w j =>
    have hj := hl.above (List.suffix_cons w j)
    rw [parent?_ofNames_cons hl.names] at hsearch
    obtain ⟨found, hrun, habove, -⟩ :=
      missingAbove_run fs hj.names ((ofNames true (w :: j)).pieces.length + 1) []
    rw [hrun, List.append_nil] at hsearch
    obtain ⟨rfl, rfl⟩ := Prod.mk.inj hsearch
    refine makeRecorded_trodden hd hj (fun p hp => ?_) h
    obtain ⟨i, hi, hpi, -⟩ := habove p hp
    exact ⟨i, hi, hpi⟩

/-! ### Changes -/

def RoomBeside (fs : FileSystem) (l : Location) : Prop := Room fs (ofNames true l.tail) l.tail

theorem kind_of_file (h : fs.at l = none ∨ ∃ m c, fs.at l = some (.file m c)) (e : Entry)
    (he : fs.at l = some e) : e.kind = .file := by
  rcases h with h | ⟨m, c, h⟩ <;> rw [he] at h <;> cases h
  rfl

/-- What a change leaves that was recorded in a transaction and made: a scene, and where there is room,
steps that lead back. -/
structure Followed (g : Grounds) (d : Desk) (t : Transaction) (fs : FileSystem) (room : Prop)
    (b : Scene) (d' : Desk) (fs' : FileSystem) : Prop where
  noted : ∃ ops, Recorded.Noted d.manager t ops d'.manager
  keeps : Keeps g d.manager.store fs'
  shows : Shows g fs' b
  trodden : room → ∃ xs, Trodden g d t fs xs d' fs'

theorem Trodden.followed {b : Scene} (h : Trodden g d t fs xs d' fs') (hd : Footing g d t fs)
    (hb : Shows g fs' b) (room : Prop) : Followed g d t fs room b d' fs' :=
  ⟨⟨_, h.noted⟩, h.trail.keeps hd.keeps, hb, fun _ => ⟨xs, h⟩⟩

theorem applyWrite_followed {text : String} (hd : Footing g d t fs) (hl : Site g fs l)
    (h : Ends (applyWrite (ofNames true l) text) d fs (.ok ()) d' fs') :
    Followed g d t fs (fs.at l = none ∨ RoomBeside fs' l)
      (Scene.written fs.shown l (Utf8.encode text)) d' fs' := by
  have hwritten : ∀ {d₂ k}, Ends (Action.files (attempt (Script.ask (.write (ofNames true l)
      (Utf8.encode text))))) d₂ k (.ok ()) d' fs' →
        d' = d₂ ∧ k.write (ofNames true l) (Utf8.encode text) = .ok fs' := by
    intro d₂ k hend
    obtain ⟨rfl, ⟨hmade, -⟩ | ⟨e, -, hr, -⟩⟩ := Action.ends_call rfl hend
    · exact ⟨rfl, hmade⟩
    · cases hr
  simp only [applyWrite, Action.ends_bind_ok, Action.ends_ofScript, present_run] at h
  obtain ⟨b, d₀, fs₀, ⟨_, hpresent, hb, hd₀⟩, h⟩ := h
  obtain rfl := hd₀.symm
  obtain rfl := Except.ok.inj hb
  obtain ⟨rfl, rfl⟩ := Prod.mk.inj hpresent
  split at h
  · -- the content of the file is replaced
    simp only [pure_bind, Action.ends_bind_ok] at h
    obtain ⟨id, d₁, fs₁, hrecord, hwrite⟩ := h
    obtain ⟨rfl, hmade⟩ := hwritten hwrite
    obtain ⟨t', previous, m, hadd, rfl⟩ := record_added hrecord
    obtain rfl := Option.some.inj (hd.current.symm.trans hadd.current)
    have htended := hadd.tended hd.keeps (hd.plain _)
    have hl₁ := hl.tended htended
    have hstay := hl.at_eq htended
    obtain ⟨w, j, rfl, haims, hplace, mode, hmade⟩ :=
      write_unlinked htended.sound hl.names hl₁.unlinked hmade
    have hparent : ∃ m, fs.at j = some (.directory m) := by
      rw [← hstay j (List.suffix_cons w j)]
      exact haims.directory
    obtain ⟨-, hedit, -⟩ :=
      Mutation.writeFile_ok htended.sound hl.names haims.directory hplace hmade
    rw [hstay _ (List.suffix_refl _)] at hplace
    have hfits : Mutation.Fits g fs d.manager.root (ofNames true (w :: j))
        (.update mode (Utf8.encode text)) := by
      refine ⟨?_, ?_, fun q hq => by cases hq⟩ <;> rw [spelled_ofNames _ hl.names]
      · exact ⟨hd.keeps.apart hl.outside (kind_of_file hplace), hparent⟩
      · exact hplace
    have hperform : Mutation.perform fs₁ d.manager.root (ofNames true (w :: j))
        (.update mode (Utf8.encode text)) = .ok fs' := by
      rw [Mutation.perform, normalize_ofNames _ hl.names]
      exact hmade
    refine
      { noted := ⟨_, by rw [hadd.appended]; rfl, by rw [hadd.appended]; rfl⟩
        keeps := keeps_of_added hd hfits hadd hperform
        shows := shows_written (.refl j fs) hd.keeps.sound hparent htended.alike hedit
        trodden := fun hroom => ?_ }
    have hroomy : Change.Roomy fs fs' d.manager.root ⟨d.ids d.taken, d.now, ofNames true (w :: j),
        .update mode (Utf8.encode text)⟩ := by
      simp only [Change.Roomy, spelled_ofNames _ hl.names]
      exact hroom
    obtain ⟨x, hx⟩ := trodden_of_added hd hfits hadd hperform hroomy
    exact ⟨[x], hx⟩
  · -- the file is new
    next habsent =>
    simp only [pure_bind, Action.ends_bind_ok] at h
    obtain ⟨_, d₁, fs₁, hmissing, id, d₂, fs₂, hrecord, hwrite⟩ := h
    obtain ⟨rfl, hmade⟩ := hwritten hwrite
    obtain ⟨xs, hxs, hway⟩ := recordMissing_trodden hd hl hmissing
    obtain ⟨rfl, -⟩ := record_unbacked rfl hxs.noted.current hrecord
    obtain ⟨t', previous, m, hadd, rfl⟩ := record_added hrecord
    obtain rfl := Option.some.inj (hxs.noted.current.symm.trans hadd.current)
    have hd₁ := hxs.footing hd
    obtain ⟨w, j, rfl, haims, hplace, mode, hmade⟩ :=
      write_unlinked hd₁.keeps.sound hl.names (hl.made hway).unlinked hmade
    obtain ⟨-, hedit, -⟩ :=
      Mutation.writeFile_ok hd₁.keeps.sound hl.names haims.directory hplace hmade
    have hnone : fs₂.at (w :: j) = none :=
      ((recordMissing_paved hd.keeps.sound hl.names hd.current hmissing).free hl.names habsent).2 j haims
    have hfits : Mutation.Fits g fs₂ d₁.manager.root (ofNames true (w :: j))
        (.create mode (Utf8.encode text)) := by
      refine ⟨?_, ?_, fun q hq => by cases hq⟩ <;> rw [spelled_ofNames _ hl.names]
      · exact ⟨hd₁.keeps.apart hl.outside (by simp [hnone]), haims.directory⟩
      · exact hnone
    have hperform : Mutation.perform fs₂ d₁.manager.root (ofNames true (w :: j))
        (.create mode (Utf8.encode text)) = .ok fs' := by
      rw [Mutation.perform, normalize_ofNames _ hl.names]
      exact hmade
    obtain ⟨x, hx⟩ := trodden_of_added hd₁ hfits hadd hperform trivial
    exact (hxs.trans hx).followed hd
      (shows_written hway hd₁.keeps.sound haims.directory (.refl g fs₂) hedit) _

theorem applyRemove_followed (hd : Footing g d t fs) (hl : Site g fs l)
    (hfile : ∃ m c, fs.at l = some (.file m c))
    (h : Ends (applyRemove (ofNames true l)) d fs (.ok ()) d' fs') :
    Followed g d t fs (RoomBeside fs' l) (Scene.removed fs.shown l) d' fs' := by
  simp only [applyRemove, Action.ends_bind_ok] at h
  obtain ⟨id, d₁, fs₁, hrecord, hremove⟩ := h
  obtain ⟨rfl, ⟨hmade, -⟩ | ⟨e, -, hr, -⟩⟩ := Action.ends_call rfl hremove
  swap
  · cases hr
  obtain ⟨t', previous, m, hadd, rfl⟩ := record_added hrecord
  obtain rfl := Option.some.inj (hd.current.symm.trans hadd.current)
  have htended := hadd.tended hd.keeps (hd.plain _)
  cases l with
  | nil =>
    obtain ⟨m, c, hfile⟩ := hfile
    rw [at_nil] at hfile
    cases hfile
  | cons w j =>
    have hparent : ∃ m, fs.at j = some (.directory m) := by
      obtain ⟨m, c, hfile⟩ := hfile
      exact hd.keeps.sound.parent hfile
    have hfits : Mutation.delete.Fits g fs d.manager.root (ofNames true (w :: j)) := by
      refine ⟨?_, ?_, fun q hq => by cases hq⟩ <;> rw [spelled_ofNames _ hl.names]
      · exact ⟨hd.keeps.apart hl.outside (kind_of_file (.inr hfile)), hparent⟩
      · exact hfile
    have hperform : Mutation.delete.perform fs₁ d.manager.root (ofNames true (w :: j)) = .ok fs' := by
      rw [Mutation.perform, normalize_ofNames _ hl.names]
      exact hmade
    obtain ⟨mode, c, hfile⟩ := hfile
    have hstay := hl.at_eq htended
    obtain ⟨-, hedit, -⟩ := Mutation.removeFile_ok htended.sound hl.names
      (by rw [hstay j (List.suffix_cons w j)]; exact hparent)
      ((hstay _ (List.suffix_refl _)).trans hfile) hmade
    refine
      { noted := ⟨_, by rw [hadd.appended]; rfl, by rw [hadd.appended]; rfl⟩
        keeps := keeps_of_added hd hfits hadd hperform
        shows := shows_removed htended.alike hedit
        trodden := fun hroom => ?_ }
    have hroomy : Change.Roomy fs fs' d.manager.root
        ⟨d.ids d.taken, d.now, ofNames true (w :: j), .delete⟩ := by
      simp only [Change.Roomy, spelled_ofNames _ hl.names]
      exact hroom
    obtain ⟨x, hx⟩ := trodden_of_added hd hfits hadd hperform hroomy
    exact ⟨[x], hx⟩

/-- A file that was moved to a free place was renamed. -/
theorem move_ok {v w : Bytes} {c j : Location} {m : Nat} {b : Bytes} (hs : fs.Sound)
    (hn : ∀ u ∈ w :: j, IsName u) (hl : Unlinked fs j) (hn' : ∀ u ∈ v :: c, IsName u)
    (hfile : fs.at (v :: c) = some (.file m b)) (hparent : Present fs (ofNames true j))
    (hfree : Aims fs (ofNames true j) j w → fs.at (w :: j) = none)
    (h : (Files.move (ofNames true (v :: c)) (ofNames true (w :: j))).run.run fs = (.ok (), fs')) :
    fs.rename (ofNames true (v :: c)) (ofNames true (w :: j)) = .ok fs' := by
  simp only [Files.move, attempt, ExceptT.run_bind, ExceptT.run_mk, run_bind, run_ask, Call.perform,
    ensureParent_present hn hparent] at h
  cases hrename : fs.rename (ofNames true (v :: c)) (ofNames true (w :: j)) with
  | ok k =>
    simp only [hrename, change_ok, run_pure, Prod.mk.injEq, true_and] at h
    rw [h]
  | error err =>
    simp only [hrename, change_error, run_bind, run_ask, Call.perform] at h
    cases hcopy : fs.copy (ofNames true (v :: c)) (ofNames true (w :: j)) with
    | error err' => simp [hcopy] at h
    | ok k =>
      simp only [hcopy, change_ok, run_ask, Call.perform] at h
      cases hremove : k.removeFile (ofNames true (v :: c)) with
      | error err' => simp [hremove] at h
      | ok k' =>
        obtain ⟨k, hk⟩ := rename_of_copy hs hn hl hn' hfile hfree hcopy hremove
        rw [hrename] at hk
        cases hk

theorem applyMove_followed {origin : Location} (hd : Footing g d t fs) (hl : Site g fs l)
    (horigin : Site g fs origin) (hfile : ∃ m c, fs.at origin = some (.file m c))
    (habsent : ¬Present fs (ofNames true l))
    (h : Ends (applyMove (ofNames true origin) (ofNames true l)) d fs (.ok ()) d' fs') :
    Followed g d t fs True (Scene.moved fs.shown origin l) d' fs' := by
  simp only [applyMove, Action.ends_bind_ok] at h
  obtain ⟨_, d₁, fs₁, hmissing, id, d₂, fs₂, hrecord, hmove⟩ := h
  obtain ⟨y, hmoved, hy, rfl⟩ := Action.ends_files.1 hmove
  cases y with
  | error e => cases hy
  | ok u =>
    obtain ⟨xs, hxs, hway⟩ := recordMissing_trodden hd hl hmissing
    have hpaved := recordMissing_paved hd.keeps.sound hl.names hd.current hmissing
    obtain ⟨rfl, -⟩ := record_unbacked rfl hxs.noted.current hrecord
    obtain ⟨t', previous, m, hadd, rfl⟩ := record_added hrecord
    obtain rfl := Option.some.inj (hxs.noted.current.symm.trans hadd.current)
    have hd₁ := hxs.footing hd
    have hs₁ := hd₁.keeps.sound
    obtain ⟨mode, b, hfile⟩ := hfile
    have hfile₁ := hpaved.grown.at_eq _ _ hfile not_false
    cases l with
    | nil => exact absurd (present_root fs) habsent
    | cons w j =>
      cases origin with
      | nil => rw [at_nil] at hfile; cases hfile
      | cons v c =>
        have hn := hl.names
        have hn' := horigin.names
        obtain ⟨hparent, hfree⟩ := hpaved.free hn habsent
        have hj := ((hl.made hway).above (List.suffix_cons w j)).unlinked
        have hrename := move_ok hs₁ hn hj hn' hfile₁ hparent (hfree j) hmoved
        obtain ⟨_, _, a, _, _, -, -, happroach, -⟩ := rename_inv hs₁ hrename
        have hparents := hs₁.parent hfile₁
        have hdirectory := directory_of_approach hs₁ hn hj happroach
        have hnone := hfree j (hs₁.aims_of_rename hn' hparents hn hdirectory hrename).2
        have hfits : Mutation.Fits g fs₂ d₁.manager.root (ofNames true (w :: j))
            (.move (ofNames true (v :: c))) := by
          refine ⟨?_, ?_, fun q hq => ?_⟩
          · rw [spelled_ofNames _ hn]
            exact ⟨hd₁.keeps.apart hl.outside (by simp [hnone]), hdirectory⟩
          · rw [spelled_ofNames _ hn]
            exact hnone
          · obtain rfl := Mutation.move.inj hq
            rw [spelled_ofNames _ hn', hfile₁]
            exact ⟨⟨hd₁.keeps.apart horigin.outside (kind_of_file (.inr ⟨_, _, hfile₁⟩)), hparents⟩,
              rfl⟩
        have hperform : Mutation.perform fs₂ d₁.manager.root (ofNames true (w :: j))
            (.move (ofNames true (v :: c))) = .ok fs' := by
          rw [Mutation.perform, normalize_ofNames _ hn, normalize_ofNames _ hn']
          exact hrename
        obtain ⟨x, hx⟩ := trodden_of_added hd₁ hfits hadd hperform trivial
        refine (hxs.trans hx).followed hd (shows_moved hway hs₁ hfile hnone ?_) _
        exact Mutation.rename_ok hs₁ hn' hparents hn hdirectory hnone hfile₁ hrename

/-! ### Commands -/

namespace FileCommand

/-- What a command replaces or removes can be put back beside its place. -/
def Roomy (root : Path) (fs fs' : FileSystem) : FileCommand → Prop
  | write p _ => fs.at (spelled root p) = none ∨ RoomBeside fs' (spelled root p)
  | remove p => RoomBeside fs' (spelled root p)
  | move .. => True

/-- A change that was made leaves the scene that it should, and operations that undo it. -/
theorem change_followed (c : FileCommand) (hd : Footing g d t fs)
    (hplaces : ∀ l ∈ c.places d.manager.root, g.Outside l ∧ Unlinked fs l)
    (hready : c.Ready d.manager.root fs)
    (h : Ends (c.change d.manager.root) d fs (.ok ()) d' fs') :
    Followed g d t fs (c.Roomy d.manager.root fs fs') (c.effect d.manager.root fs.shown) d' fs' := by
  have hsite : ∀ p, spelled d.manager.root p ∈ c.places d.manager.root →
      Site g fs (spelled d.manager.root p) := fun p hp =>
    ⟨isName_of_mem_spelled, (hplaces _ hp).1, (hplaces _ hp).2⟩
  have hfile : ∀ p, spelled d.manager.root p ∈ c.places d.manager.root →
      fs.status (d.manager.root.normalize p) = .ok .file →
      ∃ m b, fs.at (spelled d.manager.root p) = some (.file m b) := by
    intro p hp hstatus
    rw [normalize_eq hd.root] at hstatus
    obtain ⟨e, he, hkind⟩ := status_unlinked isName_of_mem_spelled (hplaces _ hp).2 hstatus
    cases e with
    | file m b => exact ⟨m, b, he⟩
    | directory m | link q => cases hkind
  cases c with
  | write p text =>
    have hp : spelled d.manager.root p ∈ (write p text).places d.manager.root := by simp [places]
    rw [change, normalize_eq hd.root] at h
    exact applyWrite_followed hd (hsite p hp) h
  | remove p =>
    have hp : spelled d.manager.root p ∈ (remove p).places d.manager.root := by simp [places]
    rw [change, normalize_eq hd.root] at h
    exact applyRemove_followed hd (hsite p hp) (hfile p hp hready) h
  | move p q =>
    have hp : spelled d.manager.root p ∈ (move p q).places d.manager.root := by simp [places]
    have hq : spelled d.manager.root q ∈ (move p q).places d.manager.root := by simp [places]
    obtain ⟨hstatus, habsent⟩ := hready
    rw [change, normalize_eq hd.root, normalize_eq hd.root] at h
    rw [normalize_eq hd.root] at habsent
    exact applyMove_followed hd (hsite q hq) (hsite p hp) (hfile p hp hstatus) habsent h

end FileCommand

/-- The transaction of a change that was made is completed. -/
theorem bracket_ok {name command : String} {change : Action Unit}
    (hcurrent : d.manager.current = none)
    (h : Ends (bracket name command change) d fs (.ok ()) d' fs') :
    ∃ d₁ fs₁ r m', Ends change { d with
        taken := d.taken + 1
        manager := (d.manager.start (d.ids d.taken) d.now name name command []).2 } fs (.ok ()) d₁ fs₁ ∧
      d₁.manager.complete.run fs₁ = ((.ok r, m'), fs') := by
  simp only [bracket, Action.ends_bind_ok, Action.ends_freshId, Action.ends_get, Action.ends_managed,
    Action.ends_observing, Action.ends_sayAll] at h
  obtain ⟨id, _, _, ⟨hid, rfl, rfl⟩, _, _, _, ⟨hget, rfl, rfl⟩, _, _, fs₀, ⟨y, m, hstart, hy, rfl⟩, _, d₁,
    fs₁, ⟨z, hchange, hz⟩, r, d₂, fs₂, hfinish, -, -, rfl⟩ := h
  obtain rfl := Except.ok.inj hid
  obtain rfl := Except.ok.inj hget
  obtain rfl := (Except.ok.inj hz).symm
  obtain ⟨hm, rfl⟩ := Prod.mk.inj hstart
  rw [Manager.start, hcurrent] at hm
  obtain ⟨-, rfl⟩ := Prod.mk.inj hm
  cases z with
  | error stop =>
    simp only [finish, Action.ends_bind_ok, Action.ends_throw] at hfinish
    obtain ⟨_, _, _, -, _, _, _, -, _, _, _, -, hc, -⟩ := hfinish
    cases hc
  | ok u =>
    rw [finish, Action.ends_managed] at hfinish
    obtain ⟨w, m', hcomplete, hw, rfl⟩ := hfinish
    cases w with
    | error e => cases hw
    | ok r' =>
      refine ⟨d₁, fs₁, r', m', ?_, hcomplete⟩
      rw [Manager.start, hcurrent]
      exact hchange

/-- A command that gets to its end has found what it needs, made its change and completed its
transaction. -/
theorem FileCommand.action_ok (c : FileCommand) (hcurrent : d.manager.current = none)
    (h : Ends c.action d fs (.ok ()) d' fs') :
    c.Ready d.manager.root fs ∧ ∃ d₁ fs₁ r m',
      Ends (c.change d.manager.root) (c.begun d) fs (.ok ()) d₁ fs₁ ∧
        d₁.manager.complete.run fs₁ = ((.ok r, m'), fs') := by
  cases c with
  | write p text =>
    simp only [action, writeFile, Action.ends_bind_ok, Action.ends_manager] at h
    obtain ⟨_, _, _, ⟨hm, rfl, rfl⟩, h⟩ := h
    obtain rfl := Except.ok.inj hm
    exact ⟨trivial, bracket_ok hcurrent h⟩
  | remove p =>
    simp only [action, removeFile, Action.ends_bind_ok, Action.ends_manager] at h
    obtain ⟨_, _, _, ⟨hm, rfl, rfl⟩, _, _, _, hrequire, h⟩ := h
    obtain rfl := Except.ok.inj hm
    obtain ⟨rfl, rfl, hstatus⟩ := requireFile_ok hrequire
    exact ⟨hstatus, bracket_ok hcurrent h⟩
  | move p q =>
    simp only [action, moveFile, Action.ends_bind_ok, Action.ends_manager, Action.ends_ofScript,
      present_run] at h
    obtain ⟨_, _, _, ⟨hm, rfl, rfl⟩, _, _, _, hrequire, _, _, _, ⟨_, hrun, hx, rfl⟩, h⟩ := h
    obtain rfl := Except.ok.inj hm
    obtain ⟨rfl, rfl, hstatus⟩ := requireFile_ok hrequire
    obtain rfl := Except.ok.inj hx
    obtain ⟨rfl, rfl⟩ := Prod.mk.inj hrun
    split at h
    · obtain ⟨_, _, _, hc, -⟩ := Action.ends_bind_ok.1 h
      cases (Action.ends_stop.1 hc).1
    · next habsent => exact ⟨⟨hstatus, habsent⟩, bracket_ok hcurrent h⟩

end CommandLine
end Retrace
