import Retrace.Proofs.InTurn
import Retrace.Proofs.Interleaving.Independence

/-!
Rolling back a checkpoint at the same time. In whatever order the calls of independent rollbacks are made,
all comes to what it comes to when they are made one after the other (`rolled_back_together_as_in_turn`).
-/
namespace Retrace

open FileSystem Script
open Retrace.Path (IsName)
open Rollback (Options Result Pending)

namespace Manager

variable {m m' m'' : Manager} {now : Instant} {options : Options} {fs fs' : FileSystem} {t : Transaction}
  {ts : List Transaction} {p : Pending} {ps : List Pending} {x : Result × Option Transaction}
  {xs : List (Result × Option Transaction)} {c : Checkpoint} {id : String}

/-! ### What memory notes -/

def report (x : Result × Option Transaction) : Result := { x.1 with success := x.1.errors.isEmpty }

def note (options : Options) (m : Manager) (x : Result × Option Transaction) : Manager :=
  (({ m with history := x.2.elim m.history (m.history.put x.1.transactionId) } : Manager).settle options x.1).2

theorem finalize_run (m : Manager) (now : Instant) (options : Options) (p : Pending) (fs : FileSystem) :
    (m.finalize now options p).run fs =
      (let out := (m.conclude now options p).run fs
      ((report out.1, m.note options out.1), out.2)) := by
  rw [finalize, conclude]
  split
  · rfl
  · cases ht : m.transaction? p.result.transactionId with
    | none => simp only [markRolledBack, ht]; rfl
    | some t =>
      simp only [markRolledBack, ht, run_bind]
      rw [← Transaction.reverted]
      generalize (m.store.saveTransaction (t.reverted now)).run fs = saved
      obtain ⟨_ | _, fs₁⟩ := saved
      · rfl
      · simp only [run_pure]
        split
        · rfl
        · rw [run_bind, run_bind]
          rfl

theorem conclude_id : ((m.conclude now options p).run fs).1.1.transactionId = p.result.transactionId := by
  rw [conclude]
  split
  · rfl
  · cases m.transaction? p.result.transactionId with
    | none => rfl
    | some t =>
      simp only [run_bind]
      generalize (m.store.saveTransaction (t.reverted now)).run fs = saved
      obtain ⟨_ | _, fs₁⟩ := saved
      · rfl
      · simp only
        split <;> simp only [run_bind, run_pure]

theorem undo_id : ((m.undo now options t).run fs).1.1.transactionId = t.id := by
  rw [undo, run_bind, conclude_id, execute_id]

theorem conclude_congr (hstore : m'.store = m.store)
    (ht : m'.transaction? p.result.transactionId = m.transaction? p.result.transactionId) :
    m'.conclude now options p = m.conclude now options p := by
  simp only [conclude, backups, hstore, ht]

theorem note_store : (m.note options x).store = m.store := rfl

theorem note_transaction? {j : String} (hj : j ≠ x.1.transactionId) :
    (m.note options x).transaction? j = m.transaction? j := by
  change (x.2.elim m.history (m.history.put x.1.transactionId)).get? j = m.history.get? j
  cases x.2 with
  | none => rfl
  | some t => rw [Option.elim_some, Index.get?_put, if_neg hj]

/-! ### One script after the other -/

theorem executeEach_eq (m : Manager) (options : Options) (ts : List Transaction) :
    m.executeEach options ts = each (ts.map (m.execute options)) := by
  induction ts with
  | nil => rfl
  | cons t ts ih => rw [executeEach, ih, List.map_cons, each]

theorem finalizeEach_run (now : Instant) (options : Options) (fs : FileSystem) (hstore : m'.store = m.store)
    (hids : (ps.map (·.result.transactionId)).Nodup)
    (hsame : ∀ p ∈ ps, m'.transaction? p.result.transactionId = m.transaction? p.result.transactionId) :
    (m'.finalizeEach now options ps).run fs =
      (let out := (each (ps.map (m.conclude now options))).run fs
      ((out.1.map report, out.1.foldl (note options) m'), out.2)) := by
  induction ps generalizing m' fs with
  | nil => rfl
  | cons p ps ih =>
    rw [List.map_cons, List.nodup_cons] at hids
    simp only [finalizeEach, each, List.map_cons, run_bind, run_pure, finalize_run,
      conclude_congr hstore (hsame p List.mem_cons_self)]
    rw [ih _ (note_store.trans hstore) hids.2 fun q hq => ?_]
    · rfl
    · rw [note_transaction?, hsame q (List.mem_cons_of_mem p hq)]
      rw [conclude_id]
      exact fun heq => hids.1 (List.mem_map.2 ⟨q, hq, heq⟩)

def attend (options : Options) (m : Manager) (y : Transaction × Result × Option Transaction) : Manager :=
  (m.announcing y.1).note options y.2

/-- Rolling back in turn is to work on disk for one after the other, and to note each as it is done. -/
theorem rollbackEach_run (now : Instant) (options : Options) (fs : FileSystem) (hstore : m'.store = m.store)
    (hsettings : m'.settings = m.settings)
    (hids : (ts.map (·.id)).Nodup) (hkept : ∀ t ∈ ts, m.transaction? t.id = some t)
    (hsame : ∀ t ∈ ts, m'.transaction? t.id = m.transaction? t.id) :
    (m'.rollbackEach now options (ts.map (·.id))).run fs =
      (let out := (each (ts.map (m.undo now options))).run fs
      ((out.1.map report, (ts.zip out.1).foldl (attend options) m'), out.2)) := by
  induction ts generalizing m' fs with
  | nil => rfl
  | cons t ts ih =>
    rw [List.map_cons, List.nodup_cons] at hids
    have ht : m'.transaction? t.id = some t := by
      rw [hsame t List.mem_cons_self, hkept t List.mem_cons_self]
    have hconclude : (m'.announcing t).conclude now options ((m.execute options t).run fs).1 =
        m.conclude now options ((m.execute options t).run fs).1 := by
      refine conclude_congr hstore ?_
      rw [execute_id]
      exact hsame t List.mem_cons_self
    have hround : (m'.rollback now options t.id).run fs =
        (let out := (m.undo now options t).run fs
        ((report out.1, attend options m' (t, out.1)), out.2)) := by
      rw [rollback_some ht, execute_congr hstore hsettings, undo, run_bind, run_bind, finalize_run, hconclude]
      rfl
    simp only [List.map_cons, rollbackEach, each, run_bind, run_pure, hround]
    have hattended : (attend options m' (t, ((m.undo now options t).run fs).1)).store = m.store := hstore
    rw [ih _ hattended hsettings hids.2 (fun u hu => hkept u (List.mem_cons_of_mem t hu)) fun u hu => ?_]
    · rfl
    · have hne : u.id ≠ t.id := fun heq => hids.1 (List.mem_map.2 ⟨u, hu, heq⟩)
      rw [attend, note_transaction? (by rwa [undo_id])]
      exact hsame u (List.mem_cons_of_mem t hu)

/-! ### The order in which they are noted -/

/-- The managers are the same but for the events. -/
def Tallies (m m' : Manager) : Prop := m' = { m with events := m'.events }

theorem Tallies.refl (m : Manager) : Tallies m m := rfl

theorem Tallies.trans (h : Tallies m m') (h' : Tallies m' m'') : Tallies m m'' := by
  rw [Tallies, h', h]

theorem Tallies.symm (h : Tallies m m') : Tallies m' m := by
  rw [Tallies, h]

theorem Tallies.note (h : Tallies m m') (x : Result × Option Transaction) :
    Tallies (m.note options x) (m'.note options x) := by
  rw [Tallies, h]
  rfl

theorem Tallies.foldl_note (h : Tallies m m') (xs : List (Result × Option Transaction)) :
    Tallies (xs.foldl (Manager.note options) m) (xs.foldl (Manager.note options) m') := by
  induction xs generalizing m m' with
  | nil => exact h
  | cons x xs ih => exact ih (h.note x)

theorem Tallies.foldl_announcing (h : Tallies m m') (ts : List Transaction) :
    Tallies (ts.foldl announcing m) (ts.foldl announcing m') := by
  induction ts generalizing m m' with
  | nil => exact h
  | cons t ts ih => exact ih (by rw [Tallies, h]; rfl)

theorem note_announcing (m : Manager) (t : Transaction) (x : Result × Option Transaction) :
    Tallies ((m.announcing t).note options x) ((m.note options x).announcing t) := by
  simp only [Tallies, note, announcing, attempted, settle, publish]
  split <;> split <;> rfl

theorem note_foldl_announcing (m : Manager) (ts : List Transaction) (x : Result × Option Transaction) :
    Tallies ((ts.foldl announcing m).note options x) (ts.foldl announcing (m.note options x)) := by
  induction ts generalizing m with
  | nil => exact .refl _
  | cons t ts ih => exact (ih (m.announcing t)).trans ((note_announcing m t x).foldl_announcing ts)

theorem foldl_attend (m : Manager) (ts : List Transaction) (hlen : xs.length = ts.length) :
    Tallies (xs.foldl (note options) (ts.foldl announcing m)) ((ts.zip xs).foldl (attend options) m) := by
  induction ts generalizing m xs with
  | nil => rw [List.eq_nil_of_length_eq_zero hlen]; exact .refl m
  | cons t ts ih =>
    cases xs with
    | nil => cases hlen
    | cons x xs =>
      exact ((note_foldl_announcing (m.announcing t) ts x).foldl_note xs).trans
        (ih ((m.announcing t).note options x) (Nat.succ.inj hlen))

/-! ### Together and in turn -/

/-- The ends of the executions of transactions, in whatever order their calls are made, are recorded. -/
def recordAll (m : Manager) (now : Instant) (options : Options) (ts : List Transaction) (ps : List Pending)
    (fs : FileSystem) : (List Result × Manager) × FileSystem :=
  ((ts.foldl announcing m).finalizeEach now options ps).run fs

theorem each_conclude_ids (m : Manager) (now : Instant) (options : Options) (ps : List Pending) (fs : FileSystem) :
    ((each (ps.map (m.conclude now options))).run fs).1.map (·.1.transactionId) =
      ps.map (·.result.transactionId) := by
  induction ps generalizing fs with
  | nil => rfl
  | cons p ps ih =>
    simp only [List.map_cons, each, run_bind, run_pure, conclude_id]
    rw [ih]

/-- Independent transactions that are rolled back at the same time, in any order of their calls, come to
what they come to one after the other. -/
theorem Independent.together (h : m.Independent now options fs ts) (hkept : ∀ t ∈ ts, m.transaction? t.id = some t)
    (hids : (ts.map (·.id)).Nodup) (hw : Woven (ts.map (m.execute options)) fs ps fs') :
    let together := m.recordAll now options ts ps fs'
    let inTurn := (m.rollbackEach now options (ts.map (·.id))).run fs
    together.1.1 = inTurn.1.1 ∧ Tallies inTurn.1.2 together.1.2 ∧ ∀ l, together.2.at l = inTurn.2.at l := by
  have hannounced := foldl_announcing_inert m ts
  have hts : ts.Nodup := .of_map _ hids
  -- both are orders of the calls of the same scripts
  have hparallel := (hw.bind (woven_each (ps.map (m.conclude now options)) fs'))
  rw [List.map_map, show (· >>= m.conclude now options) ∘ m.execute options = m.undo now options from rfl]
    at hparallel
  have hturns := woven_each (ts.map (m.undo now options)) fs
  obtain ⟨hresults, htrees⟩ := h.woven_eq hkept hts hparallel hturns
  have hsolo := (h.woven hkept hts hturns).1
  have hpending : ps.map (·.result.transactionId) = ts.map (·.id) := by
    rw [← each_conclude_ids m now options ps fs', hresults, hsolo, List.map_map]
    exact List.map_congr_left fun t _ => undo_id
  have hlen : ((each (ts.map (m.undo now options))).run fs).1.length = ts.length := by
    rw [hsolo, List.length_map]
  have hstore : (ts.foldl announcing m).store = m.store := by rw [hannounced]
  have hfinal := finalizeEach_run now options fs' hstore (hpending ▸ hids) fun p _ => hannounced.transaction?_eq _
  have heach := rollbackEach_run now options fs (rfl : m.store = m.store) rfl hids hkept fun _ _ => rfl
  intro together inTurn
  have htogether : together = _ := hfinal
  have hinTurn : inTurn = _ := heach
  rw [htogether, hinTurn]
  refine ⟨congrArg (List.map report) hresults, ?_, htrees⟩
  dsimp only
  rw [hresults]
  exact Tallies.symm (foldl_attend m ts hlen)

end Manager

open Manager (Keyed TurnOrder Tallies)

/-- A checkpoint, which names no transaction twice, is rolled back at once ... -/
theorem checkpoint_rolled_back_together {m : Manager} {c : Checkpoint} {options : Options} {id : String}
    (hc : m.checkpoint? id = some c) (hnodup : c.transactionIds.Nodup) (hkeyed : Keyed m)
    (hatonce : Manager.atOnce options = true) (now : Instant) (fs : FileSystem)
    (h : m.Independent now options fs (m.membersOf c)) :
    let ts := m.membersOf c
    let inTurn := (m.rollbackEach now options (ts.map (·.id))).run fs
    TurnOrder m c (ts.map (·.id)) ∧
      (∀ ps fs', Woven (ts.map (m.execute options)) fs ps fs' →
        let together := m.recordAll now options ts ps fs'
        together.1.1 = inTurn.1.1 ∧ Tallies inTurn.1.2 together.1.2 ∧
          ∀ l, together.2.at l = inTurn.2.at l) ∧
      ∃ ps fs', Woven (ts.map (m.execute options)) fs ps fs' ∧
        (m.rollbackCheckpoint now options id).run fs =
          (let together := m.recordAll now options ts ps fs'
          ((.ok together.1.1, together.1.2), together.2)) := by
  intro ts inTurn
  have horder := Manager.membersOf_turnOrder hkeyed hnodup
  have hids : (ts.map (·.id)).Nodup := horder.kept.nodup_iff.2 (hnodup.filter _)
  have hkept : ∀ t ∈ ts, m.transaction? t.id = some t := fun t ht =>
    hkeyed.transaction?_of_member ht
  refine ⟨horder, fun ps fs' hw => h.together hkept hids hw, ?_⟩
  refine ⟨_, _, woven_each (ts.map (m.execute options)) fs, ?_⟩
  have hannounced := Manager.foldl_announcing_inert m ts
  have hexecute : (ts.foldl Manager.announcing m).execute options = m.execute options := by
    funext t
    exact Manager.execute_congr (by rw [hannounced]) (by rw [hannounced])
  rw [Manager.rollbackCheckpoint_some hc, Manager.rollbackMembers, if_pos hatonce, Manager.rollbackTogether_eq,
    Manager.executeEach_eq, hexecute, run_bind, run_bind]
  rfl

/-! ### Two transactions -/

namespace Manager

def aims (fs : FileSystem) (p : Path) : List Location := p.named.reverse :: (fs.ending? true p).toList

def aimsOf (fs : FileSystem) (t : Transaction) : List Location :=
  t.operations.flatMap fun op => op.places.flatMap (aims fs)

/-- What the operations of a transaction are about is not at, above or below what those of another are
about, nor the state. -/
def Scattered (m : Manager) (fs : FileSystem) (ts : List Transaction) : Prop :=
  ∀ t ∈ ts, ∀ k ∈ aimsOf fs t, (∀ l ∈ aims fs m.store.root, ¬k <:+ l ∧ ¬l <:+ k) ∧
    ∀ u ∈ ts, u.id ≠ t.id → ∀ l ∈ aimsOf fs u, ¬k <:+ l

instance (m : Manager) (fs : FileSystem) (ts : List Transaction) : Decidable (m.Scattered fs ts) :=
  inferInstanceAs (Decidable (∀ t ∈ ts, ∀ k ∈ aimsOf fs t, _ ∧ _))

end Manager

namespace Sample

def parallel : Options := { parallel := true }

def emptied (path : String) : Operation := { updated path with previousContent := some "" }

def neighbours : List Transaction :=
  [finished "t" [updated "/p/n/f"], finished "u" [emptied "/p/n/g"]]

def twins : List Transaction := [finished "t" [updated "/p/f"], finished "u" [updated "/p/g"]]

def paired (ts : List Transaction) : Manager :=
  { manager with
    history := .ofValues Transaction.id ts
    checkpoints := [("c", .create "c" ⟨1, 0⟩ "" "" ["u", "t"] [])] }

def neighbour (name : String) : Location := [Utf8.encode name, Utf8.encode "n", Utf8.encode "p"]

def neighbourEnds (id : String) : List Location :=
  if id = "t" then [documentName "t" :: filedGrounds.transactions, backupName "v" :: filedGrounds.backups,
    neighbour "f"]
  else [documentName "u" :: filedGrounds.transactions, neighbour "g"]

theorem neighbours_reach : ∀ t ∈ neighbours,
    (∀ l ∈ (paired neighbours).ends ⟨2, 0⟩ parallel filed t, l ∈ neighbourEnds t.id) ∧
    ∀ x ∈ (paired neighbours).passed ⟨2, 0⟩ parallel filed t, (∃ l ∈ neighbourEnds t.id, x.2.1 <:+ l) ∧
      x.2.2 = true ∧ ∀ v ∈ x.1.named, v.length ≤ longestName := by decide +kernel

theorem neighbours_named {id : String} {l : Location} (hl : l ∈ neighbourEnds id) {n : Nat} {d : Location} :
    ¬(temporaryName n :: d) <:+ l := by
  intro hd
  have hnames : ∀ id ∈ ["t", "u"], ∀ l ∈ neighbourEnds id, ∀ v ∈ l, ∃ b ∈ v.getLast?, 57 < b.toNat := by
    decide
  have hid : neighbourEnds id ∈ [neighbourEnds "t", neighbourEnds "u"] := by
    by_cases hid : id = "t"
    · simp [hid]
    · simp [neighbourEnds, hid]
  obtain ⟨b, hb, hlarge⟩ : ∃ b ∈ (temporaryName n).getLast?, 57 < b.toNat := by
    have hmem : temporaryName n ∈ l := hd.subset List.mem_cons_self
    rcases List.mem_pair.1 hid with hid | hid <;> rw [hid] at hl
    · exact hnames "t" (by simp) l hl _ hmem
    · exact hnames "u" (by simp) l hl _ hmem
  exact ne_temporaryName hb hlarge rfl

theorem neighbours_independent : (paired neighbours).Independent ⟨2, 0⟩ parallel filed neighbours := by
  have hnormal : ∀ t ∈ neighbours, ∀ p ∈ (paired neighbours).paths t, p.named.reverse ≠ [] ∧
      (∀ v ∈ p.named.reverse, IsName v) ∧ p = Path.ofNames true p.named.reverse := by decide
  have hids : (neighbours.map (·.id)).Nodup := by decide +kernel
  have hfar : ∀ t ∈ neighbours, ∀ u ∈ neighbours, u.id ≠ t.id → ∀ k ∈ neighbourEnds t.id,
      ∀ l ∈ neighbourEnds u.id, ¬l <:+ k := by decide
  have hapart : ∀ t ∈ neighbours, ∀ u ∈ neighbours, u ≠ t → ∀ k ∈ neighbourEnds t.id,
      ∀ l ∈ neighbourEnds u.id, ¬l <:+ k := fun t ht u hu hne =>
    hfar t ht u hu fun heq => hne (List.inj_on_of_nodup_map hids hu ht heq)
  have hroot : ∀ t ∈ neighbours, [] ∉ neighbourEnds t.id := by decide
  refine
    { sound := filed_keeps.sound
      room := fun d => ?_
      normal := fun t ht p hp => ⟨_, hnormal t ht p hp⟩
      root := fun t ht h => hroot t ht ((neighbours_reach t ht).1 _ h)
      apart := fun t ht u hu hne k hk l hl =>
        hapart t ht u hu hne k ((neighbours_reach t ht).1 k hk) l ((neighbours_reach u hu).1 l hl)
      clear := fun t ht u hu hne x hx l hl hlx => ?_
      direct := fun t ht u hu hne x hx _ _ => ((neighbours_reach t ht).2 x hx).2
      named := fun t ht n d => ⟨fun h => ?_, fun _ => ⟨fun l hl => ?_, fun x hx heq => ?_⟩⟩ }
  · have hle : (filed.children d).length ≤ filed.entries.length := List.length_filterMap_le _ _
    have hlen : filed.entries.length = 11 := by decide +kernel
    have hpair : neighbours.length = 2 := rfl
    omega
  · obtain ⟨k, hk, hxk⟩ := ((neighbours_reach t ht).2 x hx).1
    exact hapart t ht u hu hne k hk l ((neighbours_reach u hu).1 l hl) (hlx.trans hxk)
  · exact neighbours_named ((neighbours_reach t ht).1 _ h) List.suffix_rfl
  · exact neighbours_named ((neighbours_reach t ht).1 l hl)
  · obtain ⟨k, hk, hxk⟩ := ((neighbours_reach t ht).2 x hx).1
    exact neighbours_named hk (heq ▸ hxk)

theorem paired_keyed (ts : List Transaction) : Keyed (paired ts) := fun _ _ ht => (Index.mem_of_get?_ofValues ht).2

end Sample

/-- In whatever order the calls of two rollbacks are made that both need a directory which is missing, both
files come back. -/
theorem neighbours_rolled_back_together :
    (Sample.paired Sample.neighbours).checkpoint? "c" = some (.create "c" ⟨1, 0⟩ "" "" ["u", "t"] []) ∧
      (Sample.paired Sample.neighbours).membersOf (.create "c" ⟨1, 0⟩ "" "" ["u", "t"] []) =
        Sample.neighbours ∧
      ∀ ps fs', Woven (Sample.neighbours.map ((Sample.paired Sample.neighbours).execute Sample.parallel))
          Sample.filed ps fs' →
        let together :=
          (Sample.paired Sample.neighbours).recordAll ⟨2, 0⟩ Sample.parallel Sample.neighbours ps fs'
        together.1.1.map (·.success) = [true, true] ∧
          together.2.at (Sample.neighbour "f") = some (.file 0o600 [3]) ∧
          together.2.at (Sample.neighbour "g") = some (.file 0o600 []) ∧
          together.2.at (backupName "v" :: Sample.filedGrounds.backups) = none := by
  have hc : (Sample.paired Sample.neighbours).checkpoint? "c" =
      some (.create "c" ⟨1, 0⟩ "" "" ["u", "t"] []) := rfl
  have hmembers : (Sample.paired Sample.neighbours).membersOf (.create "c" ⟨1, 0⟩ "" "" ["u", "t"] []) =
      Sample.neighbours := Sample.membersOf_even rfl (by decide +kernel)
  obtain ⟨-, htogether, -⟩ := checkpoint_rolled_back_together hc (Checkpoint.nodup_firsts _ _)
    (Sample.paired_keyed _) (rfl : Manager.atOnce Sample.parallel = true) ⟨2, 0⟩ Sample.filed
    (hmembers.symm ▸ Sample.neighbours_independent)
  rw [hmembers] at htogether
  refine ⟨hc, hmembers, fun ps fs' hw => ?_⟩
  obtain ⟨hresults, -, htree⟩ := htogether ps fs' hw
  intro together
  rw [hresults, htree, htree, htree]
  decide +kernel

/-- Two transactions that are scattered, of which one backup was kept: the first lets it go before the
second is rolled back, but both have it when they are rolled back at the same time. -/
theorem twins_rolled_back_together :
    (Sample.paired Sample.twins).checkpoint? "c" = some (.create "c" ⟨1, 0⟩ "" "" ["u", "t"] []) ∧
      (Sample.paired Sample.twins).membersOf (.create "c" ⟨1, 0⟩ "" "" ["u", "t"] []) = Sample.twins ∧
      (Sample.paired Sample.twins).Scattered Sample.filed Sample.twins ∧
      ∃ ps fs', Woven (Sample.twins.map ((Sample.paired Sample.twins).execute Sample.parallel))
          Sample.filed ps fs' ∧
        ((Sample.paired Sample.twins).recordAll ⟨2, 0⟩ Sample.parallel Sample.twins ps fs').1.1.map
          (·.success) = [true, true] ∧
        (((Sample.paired Sample.twins).rollbackEach ⟨2, 0⟩ Sample.parallel (Sample.twins.map (·.id))).run
          Sample.filed).1.1.map (·.success) = [true, false] := by
  refine ⟨rfl, Sample.membersOf_even rfl (by decide +kernel), by decide +kernel, _, _,
    woven_each _ Sample.filed, ?_, ?_⟩
  · decide +kernel
  · decide +kernel

end Retrace
