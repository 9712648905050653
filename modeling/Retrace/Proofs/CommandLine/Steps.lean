import Retrace.Proofs.CommandLine.Action
import Retrace.Proofs.FileSystem.Growth
import Retrace.Proofs.Restoration

/-!
The steps of commands that change a file. Each step is recorded before it is made, so the transaction
under way says what was done (`Underway`), and directories that are missing above a path are made on
the way (`recordMissing_paved`).
-/
namespace Retrace.CommandLine

open FileSystem Retrace.Path Script Files
open Retrace.CommandLine.Action (Ends ends_bind ends_bind_error)

variable {d d' d₁ : Desk} {fs fs' fs₁ k : FileSystem} {m m' : Manager} {t : Transaction} {l : Location}
  {ops : List Operation} {p : Path} {names : Location} {kind : Operation.Kind}
  {details : Operation.Details} {e : Error} {stop : Stop}

/-! ### Directories that are missing -/

def Present (fs : FileSystem) (p : Path) : Prop := (fs.linkStatus p).isOk = true

instance (fs : FileSystem) (p : Path) : Decidable (Present fs p) := inferInstanceAs (Decidable (_ = true))

/-- What is found missing are paths above, the last of them the one where the search began. -/
theorem missingAbove_run (fs : FileSystem) (hn : ∀ v ∈ names, IsName v) (n : Nat)
    (found : List Path) :
    ∃ missing, (missingAbove n found (some (ofNames true names))).run fs = (missing ++ found, fs) ∧
      (∀ p ∈ missing, ∃ j, j <:+ names ∧ p = ofNames true j ∧ ¬Present fs p) ∧
      (missing = [] → n ≠ 0 → Present fs (ofNames true names)) ∧
      (∀ p, missing.getLast? = some p → p = ofNames true names) := by
  induction n generalizing names found with
  | zero => exact ⟨[], rfl, by simp, by simp, by simp⟩
  | succ n ih =>
    rw [missingAbove, if_neg (bytes_ne_nil_of_isAbsolute rfl), run_bind, present_run]
    dsimp only
    split
    · next h => exact ⟨[], rfl, by simp, fun _ _ => h, by simp⟩
    · next h =>
      obtain ⟨missing, hrun, habove⟩ : ∃ missing, (missingAbove n (ofNames true names :: found)
          (ofNames true names).parent?).run fs = (missing ++ ofNames true names :: found, fs) ∧
            ∀ p ∈ missing, ∃ j, j <:+ names ∧ p = ofNames true j ∧ ¬Present fs p := by
        cases names with
        | nil =>
          rw [parent?_ofNames_nil]
          exact ⟨[], by cases n <;> rfl, by simp⟩
        | cons w names =>
          rw [parent?_ofNames_cons hn]
          obtain ⟨missing, hrun, habove, -⟩ :=
            ih (fun v hv => hn v (List.mem_cons_of_mem _ hv)) (ofNames true (w :: names) :: found)
          refine ⟨missing, hrun, fun p hp => ?_⟩
          obtain ⟨j, hj, hpj⟩ := habove p hp
          exact ⟨j, hj.trans (List.suffix_cons w names), hpj⟩
      refine ⟨missing ++ [ofNames true names], by simpa using hrun, fun p hp => ?_, by simp, by simp⟩
      rcases List.mem_append.1 hp with hp | hp
      · exact habove p hp
      · obtain rfl := List.mem_singleton.1 hp
        exact ⟨names, List.suffix_refl _, rfl, h⟩

theorem present_of_aims {f : Path} {w : Bytes} (h : Aims fs f l w) {e : Entry}
    (he : fs.at (w :: l) = some e) : Present fs (f.join ⟨w⟩) := by
  rw [Present, h.linkStatus, he]
  rfl

theorem present_root (fs : FileSystem) : Present fs (ofNames true []) := rfl

theorem ensureParent_present {w : Bytes} {j : Location} (hn : ∀ v ∈ w :: j, IsName v)
    (hparent : Present fs (ofNames true j)) :
    (ensureParent (ofNames true (w :: j))).run.run fs = (.ok (), fs) := by
  simp only [ensureParent, parent?_ofNames_cons hn, bytes_ne_nil_of_isAbsolute (isAbsolute_ofNames j),
    if_false]
  change ((present (ofNames true j) >>= fun b => pure (Except.ok b)) >>= ExceptT.bindCont _).run fs = _
  rw [run_bind, run_bind, present_run, show (fs.linkStatus (ofNames true j)).isOk = true from hparent]
  rfl

/-! ### Recording -/

/-- Steps that were recorded have added operations to the transaction under way, each with an id of its
own from the supply. -/
structure Underway (d : Desk) (t : Transaction) (ops : List Operation) (d' : Desk) : Prop where
  noted : Recorded.Noted d.manager t ops d'.manager
  ids : d'.ids = d.ids
  taken : d.taken ≤ d'.taken
  named : ∀ op ∈ ops, ∃ n, d.taken ≤ n ∧ op.id = d.ids n

theorem Underway.refl (ht : d.manager.current = some t) : Underway d t [] d where
  noted := ⟨by simpa using ht, rfl⟩
  ids := rfl
  taken := le_rfl
  named := by simp

theorem Underway.trans {ops' : List Operation} (h : Underway d t ops d₁)
    (h' : Underway d₁ { t with operations := t.operations ++ ops } ops' d') :
    Underway d t (ops ++ ops') d' where
  noted := by
    refine ⟨by rw [h'.noted.current, List.append_assoc], ?_⟩
    rw [h'.noted.manager, h.noted.manager]
  ids := h'.ids.trans h.ids
  taken := h.taken.trans h'.taken
  named op hop := by
    rcases List.mem_append.1 hop with hop | hop
    · exact h.named op hop
    · obtain ⟨n, hn, hid⟩ := h'.named op hop
      exact ⟨n, h.taken.trans hn, by rw [hid, h.ids]⟩

/-- An operation that could not be added has changed nothing, but that its backup may have been begun. -/
theorem Manager.add_error {id : String} {now : Instant}
    (h : (m.add id now kind p details).run fs = ((.error e, m'), fs')) :
    m' = m ∧ (fs' = fs ∨ ∃ previous e',
      (m.backUp (m.operationOf id now kind p details previous) previous).run fs = (.error e', fs')) := by
  rw [Manager.add] at h
  cases hc : m.current with
  | none =>
    simp only [hc, run_pure, Prod.mk.injEq] at h
    exact ⟨h.1.2.symm, .inl h.2.symm⟩
  | some t =>
    simp only [hc] at h
    split at h
    · simp only [run_pure, Prod.mk.injEq] at h
      exact ⟨h.1.2.symm, .inl h.2.symm⟩
    · rw [run_bind, (Manager.looks_previousBytes _ _).run fs] at h
      split at h
      · simp only [run_pure, Prod.mk.injEq] at h
        exact ⟨h.1.2.symm, .inl h.2.symm⟩
      · next previous hprevious =>
        rw [run_bind] at h
        generalize hb : (m.backUp _ previous).run fs = out at h
        obtain ⟨r, fs₁⟩ := out
        cases r with
        | error e' =>
          simp only [run_pure, Prod.mk.injEq] at h
          obtain ⟨⟨-, rfl⟩, rfl⟩ := h
          exact ⟨rfl, .inr ⟨previous, e', hb⟩⟩
        | ok u => simp at h

theorem Manager.backUp_unneeded {op : Operation} (h : op.requiresBackup = false) (b : Option Bytes) :
    m.backUp op b = pure (.ok ()) := by
  cases b <;> simp [Manager.backUp, h]

theorem record_error (ht : d.manager.current = some t)
    (h : Ends (record kind p details) d fs (.error stop) d' fs') :
    Underway d t [] d' ∧ (fs' = fs ∨ ∃ previous e', (d.manager.backUp
      (d.manager.operationOf (d.ids d.taken) d.now kind p details previous) previous).run fs =
        (.error e', fs')) := by
  simp only [record, ends_bind_error, Action.ends_freshId, Action.ends_get, Action.ends_managed] at h
  obtain ⟨h, -⟩ | ⟨_, _, _, ⟨hid, rfl, rfl⟩, ⟨h, -⟩ | ⟨_, _, _, ⟨hget, rfl, rfl⟩, y, m, hrun, hr, rfl⟩⟩ := h
  · cases h
  · cases h
  · obtain rfl := Except.ok.inj hid
    obtain rfl := Except.ok.inj hget
    cases y with
    | ok x => cases hr
    | error e =>
      obtain ⟨rfl, htree⟩ := Manager.add_error hrun
      exact ⟨⟨⟨by simpa using ht, rfl⟩, rfl, Nat.le_succ _, by simp⟩, htree⟩

theorem record_added {id : String} (h : Ends (record kind p details) d fs (.ok id) d' fs') :
    ∃ t previous m', d.manager.Added fs (d.ids d.taken) d.now kind p details t previous m' fs' ∧
      d' = { d with taken := d.taken + 1, manager := m' } := by
  simp only [record, Action.ends_bind_ok, Action.ends_freshId, Action.ends_get,
    Action.ends_managed] at h
  obtain ⟨_, _, _, ⟨hid, rfl, rfl⟩, _, _, _, ⟨hget, rfl, rfl⟩, y, m, hrun, hr, rfl⟩ := h
  obtain rfl := Except.ok.inj hid
  obtain rfl := Except.ok.inj hget
  cases y with
  | error e => cases hr
  | ok x =>
    obtain ⟨rfl, t, previous, hadded⟩ := Manager.add_ok hrun
    exact ⟨t, previous, m, hadded, rfl⟩

theorem record_ok {id : String} (ht : d.manager.current = some t)
    (h : Ends (record kind p details) d fs (.ok id) d' fs') :
    ∃ previous, Underway d t [d.manager.operationOf (d.ids d.taken) d.now kind p details previous] d' ∧
      (d.manager.backUp (d.manager.operationOf (d.ids d.taken) d.now kind p details previous)
        previous).run fs = (.ok (), fs') := by
  obtain ⟨t', previous, m, hadded, rfl⟩ := record_added h
  obtain rfl := Option.some.inj (ht.symm.trans hadded.current)
  refine ⟨previous, ⟨⟨by rw [hadded.appended]; rfl, by rw [hadded.appended]; rfl⟩, rfl,
    Nat.le_succ _, fun op hop => ?_⟩, hadded.backedUp⟩
  obtain rfl := List.mem_singleton.1 hop
  exact ⟨d.taken, le_rfl, rfl⟩

theorem record_unbacked {r : Except Stop String} (hkind : kind.needsBackup = false)
    (ht : d.manager.current = some t) (h : Ends (record kind p details) d fs r d' fs') :
    fs' = fs ∧ ∃ ops, Underway d t ops d' ∧ ∀ op ∈ ops, op.requiresBackup = false := by
  have hfree : ∀ previous, (d.manager.operationOf (d.ids d.taken) d.now kind p details
      previous).requiresBackup = false := fun previous => by
    rw [Manager.requiresBackup_operationOf, hkind, Bool.false_and]
  cases r with
  | error stop =>
    obtain ⟨hway, htree | ⟨previous, e', hrun⟩⟩ := record_error ht h
    · exact ⟨htree, [], hway, by simp⟩
    · rw [Manager.backUp_unneeded (hfree previous)] at hrun
      cases hrun
  | ok id =>
    obtain ⟨previous, hway, hrun⟩ := record_ok ht h
    rw [Manager.backUp_unneeded (hfree previous)] at hrun
    exact ⟨(Prod.mk.inj hrun).2.symm, _, hway, by simpa using hfree previous⟩

/-! ### Making directories -/

/-- What making recorded directories leaves: they are all that is new, and where all of them could be
made, the last one is empty. -/
structure Laid (d : Desk) (t : Transaction) (fs : FileSystem) (ps : List Path) (r : Except Stop Unit)
    (d' : Desk) (fs' : FileSystem) : Prop where
  way : ∃ ops, Underway d t ops d' ∧ ∀ op ∈ ops, op.requiresBackup = false
  grown : Grown fs (fun p e => p ∈ ps ∧ ∃ m, e = .directory m) fs'
  last : r = .ok () → ∀ p, ps.getLast? = some p → p.bytes.length < longestPath ∧
    ∃ l, Leads fs' p l ∧ ∀ v, fs'.at (v :: l) = none

theorem makeRecorded_laid {ps : List Path} {r : Except Stop Unit} (hs : fs.Sound)
    (hps : ∀ p ∈ ps, ∃ j, (∀ v ∈ j, IsName v) ∧ p = ofNames true j)
    (ht : d.manager.current = some t) (h : Ends (makeRecorded ps) d fs r d' fs') :
    Laid d t fs ps r d' fs' := by
  induction ps generalizing d fs t with
  | nil =>
    obtain ⟨-, rfl, rfl⟩ := Action.ends_pure.1 h
    exact ⟨⟨[], .refl ht, by simp⟩, .refl hs, by simp⟩
  | cons p ps ih =>
    rw [makeRecorded, ends_bind] at h
    obtain ⟨id, d₁, fs₁, hrecord, h⟩ | ⟨stop, rfl, hrecord⟩ := h
    swap
    · obtain ⟨rfl, ops, hway, hfree⟩ := record_unbacked rfl ht hrecord
      exact ⟨⟨ops, hway, hfree⟩, .refl hs, by simp⟩
    obtain ⟨rfl, ops, hway, hfree⟩ := record_unbacked rfl ht hrecord
    rw [ends_bind] at h
    obtain ⟨u, d₂, fs₂, hmake, h⟩ | ⟨stop, rfl, hmake⟩ := h
    · -- the directory is there, so the ones below it can be made
      obtain ⟨rfl, ⟨hmade, -⟩ | ⟨e, -, hr, -⟩⟩ := Action.ends_call rfl hmake
      swap
      · cases hr
      obtain ⟨j, hj, rfl⟩ := hps p List.mem_cons_self
      obtain ⟨l, m, hnone, hedit, hleads, hempty, hspot, hfits⟩ := makeDirectory_ofNames hs hj hmade
      have hlaid := ih hedit.sound (fun q hq => hps q (List.mem_cons_of_mem _ hq))
        hway.noted.current h
      obtain ⟨ops', hway', hfree'⟩ := hlaid.way
      refine ⟨⟨_, hway.trans hway', fun op hop => ?_⟩, ?_, fun hr q hq => ?_⟩
      · exact (List.mem_append.1 hop).elim (hfree op) (hfree' op)
      · exact ((Grown.refl hs).insert hedit hnone rfl hspot ⟨List.mem_cons_self, m, rfl⟩).trans
          (hlaid.grown.mono fun p e hpe => ⟨List.mem_cons_of_mem _ hpe.1, hpe.2⟩)
      · cases ps with
        | nil =>
          obtain rfl := Option.some.inj hq
          obtain ⟨-, rfl, rfl⟩ := Action.ends_pure.1 h
          exact ⟨hfits, l, hleads, hempty⟩
        | cons q' ps => exact hlaid.last hr q (by simpa using hq)
    · obtain ⟨rfl, ⟨-, hr⟩ | ⟨e, -, -, rfl⟩⟩ := Action.ends_call rfl hmake
      · cases hr
      · exact ⟨⟨ops, hway, hfree⟩, .refl hs, by simp⟩

def MissingAbove (fs : FileSystem) (names : Location) (p : Path) : Prop :=
  ∃ j, j <:+ names ∧ j ≠ names ∧ p = ofNames true j ∧ ¬Present fs p

/-- What making the directories above a path leaves. If all of them are there in the end, the one that
holds the path was there before, or it is new and empty. -/
structure Paved (d : Desk) (t : Transaction) (fs : FileSystem) (names : Location)
    (r : Except Stop Unit) (d' : Desk) (fs' : FileSystem) : Prop where
  way : ∃ ops, Underway d t ops d' ∧ ∀ op ∈ ops, op.requiresBackup = false
  grown : Grown fs (fun p e => MissingAbove fs names p ∧ ∃ m, e = .directory m) fs'
  last : r = .ok () → ∀ w j, names = w :: j →
    fs' = fs ∧ Present fs (ofNames true j) ∨
      (ofNames true j).bytes.length < longestPath ∧
        ∃ l, Leads fs' (ofNames true j) l ∧ ∀ v, fs'.at (v :: l) = none

theorem recordMissing_paved {r : Except Stop Unit} (hs : fs.Sound) (hn : ∀ v ∈ names, IsName v)
    (ht : d.manager.current = some t)
    (h : Ends (recordMissing (ofNames true names)) d fs r d' fs') : Paved d t fs names r d' fs' := by
  simp only [recordMissing, ends_bind, Action.ends_ofScript] at h
  obtain ⟨missing, d₁, fs₁, ⟨_, hsearch, hm, rfl⟩, h⟩ | ⟨_, _, _, _, hc, -⟩ := h
  swap
  · cases hc
  obtain rfl := Except.ok.inj hm
  cases names with
  | nil =>
    rw [parent?_ofNames_nil] at hsearch
    obtain ⟨rfl, rfl⟩ := Prod.mk.inj (hsearch : (([] : List Path), fs) = (missing, fs₁))
    obtain ⟨-, rfl, rfl⟩ := Action.ends_pure.1 h
    exact ⟨⟨[], .refl ht, by simp⟩, .refl hs, fun _ _ _ hj => by cases hj⟩
  | cons w j =>
    have hj : ∀ v ∈ j, IsName v := fun v hv => hn v (List.mem_cons_of_mem _ hv)
    rw [parent?_ofNames_cons hn] at hsearch
    obtain ⟨found, hrun, habove, hnone, hlast⟩ := missingAbove_run fs hj
      ((ofNames true (w :: j)).pieces.length + 1) []
    rw [hrun, List.append_nil] at hsearch
    obtain ⟨rfl, rfl⟩ := Prod.mk.inj hsearch
    have hlaid := makeRecorded_laid hs (fun p hp => by
      obtain ⟨i, hi, rfl, -⟩ := habove p hp
      exact ⟨i, fun v hv => hj v (hi.subset hv), rfl⟩) ht h
    refine ⟨hlaid.way, hlaid.grown.mono fun p e hpe => ⟨?_, hpe.2⟩, fun hr w' j' hnames => ?_⟩
    · obtain ⟨i, hi, hpi⟩ := habove p hpe.1
      refine ⟨i, hi.trans (List.suffix_cons w j), fun hc => ?_, hpi⟩
      exact absurd (hc ▸ hi.length_le) (by simp)
    · obtain ⟨rfl, rfl⟩ := List.cons.inj hnames
      cases hfound : found.getLast? with
      | none =>
        obtain rfl := List.getLast?_eq_none_iff.1 hfound
        obtain ⟨-, rfl, rfl⟩ := Action.ends_pure.1 h
        exact .inl ⟨rfl, hnone rfl (Nat.succ_ne_zero _)⟩
      | some p =>
        obtain rfl := hlast p hfound
        exact .inr (hlaid.last hr _ hfound)

theorem Paved.record {r : Except Stop Unit} {r' : Except Stop String}
    (h : Paved d t fs names r d₁ fs₁) (hkind : kind.needsBackup = false)
    (hrecord : Ends (record kind p details) d₁ fs₁ r' d' fs') :
    fs' = fs₁ ∧ Paved d t fs names r d' fs' := by
  obtain ⟨ops, hway, hfree⟩ := h.way
  obtain ⟨rfl, ops', hway', hfree'⟩ := record_unbacked hkind hway.noted.current hrecord
  refine ⟨rfl, ⟨_, hway.trans hway', fun op hop => ?_⟩, h.grown, h.last⟩
  exact (List.mem_append.1 hop).elim (hfree op) (hfree' op)

/-- Where the directories above a path are all there, nothing stands under its last name unless it
stood before. -/
theorem Paved.free {w : Bytes} {j : Location} (h : Paved d t fs (w :: j) (.ok ()) d' fs')
    (hn : ∀ v ∈ w :: j, IsName v) (habsent : ¬Present fs (ofNames true (w :: j))) :
    Present fs' (ofNames true j) ∧ ∀ l, Aims fs' (ofNames true j) l w → fs'.at (w :: l) = none := by
  obtain ⟨rfl, hparent⟩ | ⟨hfits, l, hleads, hempty⟩ := h.last rfl w j rfl
  · refine ⟨hparent, fun l haims => ?_⟩
    by_contra hsome
    obtain ⟨e, he⟩ := Option.ne_none_iff_exists'.1 hsome
    rw [← ofNames_join j (fun v hv => hn v (List.mem_cons_of_mem _ hv)) haims.name] at habsent
    exact habsent (present_of_aims haims he)
  · obtain ⟨kind, hkind⟩ := hleads.linkStatus hfits
    refine ⟨by rw [Present, hkind]; rfl, fun l' haims => ?_⟩
    obtain ⟨m, s, hwalk⟩ := hleads.walk
    obtain ⟨m', s', hwalk'⟩ := haims.walk
    rw [hwalk] at hwalk'
    cases hwalk'
    exact hempty w

/-! ### Commands -/

/-- A command that changes one file. -/
inductive FileCommand
  | write (path : Path) (content : String)
  | remove (path : Path)
  | move (source target : Path)

namespace FileCommand

def action : FileCommand → Action Unit
  | write p content => writeFile p content
  | remove p => removeFile p
  | move p q => moveFile p q

/-- The path that is written, removed or moved to. -/
def path : FileCommand → Path
  | write p _ => p
  | remove p => p
  | move _ q => q

/-- The names of the path, innermost first. -/
def spelling (c : FileCommand) (root : Path) : Location := spelled root c.path

def change (root : Path) : FileCommand → Action Unit
  | write p content => applyWrite (root.normalize p) content
  | remove p => applyRemove (root.normalize p)
  | move p q => applyMove (root.normalize p) (root.normalize q)

def title : FileCommand → String
  | write p _ => "write " ++ p.display
  | remove p => "remove " ++ p.display
  | move p q => "mv " ++ p.display ++ " " ++ q.display

def verb : FileCommand → String
  | write .. => "write"
  | remove _ => "remove"
  | move .. => "mv"

def begun (c : FileCommand) (d : Desk) : Desk :=
  { d with
    taken := d.taken + 1
    manager := (d.manager.start (d.ids d.taken) d.now c.title c.title c.verb []).2 }

def opening (c : FileCommand) (d : Desk) : Transaction :=
  .start (d.ids d.taken) d.now c.title c.title c.verb []

def Ready (root : Path) (fs : FileSystem) : FileCommand → Prop
  | write .. => True
  | remove p => fs.status (root.normalize p) = .ok .file
  | move p q => fs.status (root.normalize p) = .ok .file ∧ ¬Present fs (root.normalize q)

end FileCommand

theorem isFile_run (fs : FileSystem) (p : Path) : ∃ b, (isFile p).run fs = (b, fs) := by
  simp only [isFile, run_bind, run_ask, Call.perform]
  split <;> exact ⟨_, rfl⟩

theorem isFile_ok (h : (isFile p).run fs = (true, fs')) : fs.status p = .ok .file := by
  simp only [isFile, run_bind, run_ask, Call.perform] at h
  split at h
  · assumption
  · cases h

theorem requireFile_ends {r : Except Stop Unit} (h : Ends (requireFile p) d fs r d' fs') :
    d' = d ∧ fs' = fs := by
  obtain ⟨b, hb⟩ := isFile_run fs p
  simp only [requireFile, ends_bind, Action.ends_ofScript, hb] at h
  obtain ⟨_, _, _, ⟨_, hrun, hx, rfl⟩, h⟩ | ⟨_, _, _, _, hc, -⟩ := h
  · obtain rfl := (Prod.mk.inj hrun).2
    split at h
    · exact (Action.ends_stop.1 h).2
    · exact (Action.ends_pure.1 h).2
  · cases hc

theorem requireFile_ok (h : Ends (requireFile p) d fs (.ok ()) d' fs') :
    d' = d ∧ fs' = fs ∧ fs.status p = .ok .file := by
  obtain ⟨rfl, rfl⟩ := requireFile_ends h
  simp only [requireFile, Action.ends_bind_ok, Action.ends_ofScript] at h
  obtain ⟨b, _, _, ⟨_, hrun, hb, rfl⟩, hrest⟩ := h
  obtain rfl := Except.ok.inj hb
  cases b with
  | true => exact ⟨rfl, rfl, isFile_ok hrun⟩
  | false => cases (Action.ends_stop.1 hrest).1

end Retrace.CommandLine
