import Retrace.Proofs.BackupLedger
import Retrace.Proofs.Loading

/-!
The backups directory corresponds to what is recorded, after any run of requests from an empty store
on: each backup belongs to an operation that is recorded, each operation of a transaction that is not
rolled back has the backup it needs, and a rollback that preserves no backups leaves none
(`backups_accounted`).
-/
namespace Retrace

open FileSystem Retrace.Path Script
open Rollback (Options Result Pending)

/-- The id that a request gives out. -/
def Request.newId? : Request → Option String
  | .start id .. | .add id .. | .createCheckpoint id .. => some id
  | _ => none

def Manager.Clear (g : Grounds) (m : Manager) (fs : FileSystem) : Prop :=
  ∀ id t, m.transaction? id = some t → ∀ op ∈ t.operations, op.Outlying g fs

/-- A request that is met without failing removals in the store and while no recorded path leads
there. -/
def Request.Careful (g : Grounds) (m : Manager) (fs : FileSystem) (r : Request) : Prop :=
  Sure m.store (m.Clear g) (r.perform m) fs

namespace Manager

variable {g : Grounds} {m m' : Manager} {fs fs' : FileSystem} {t t' : Transaction} {ids : List String}
  {id : String} {now : Instant} {options : Options} {P : FileSystem → Prop}

theorem Accounted.mono {new : List String} (h : Accounted g ids m fs) (hnew : ∀ i ∈ new, Plain i) :
    Accounted g (ids ++ new) m fs where
  orderly := h.orderly
  keeps := h.keeps
  plain i hi := (List.mem_append.1 hi).elim (h.plain i) (hnew i)
  checkpoints id c hc := List.mem_append_left _ (h.checkpoints id c hc)
  known t ht := ⟨List.mem_append_left _ (h.known t ht).1,
    fun op hop => List.mem_append_left _ ((h.known t ht).2 op hop)⟩
  once := h.once
  apart := h.apart
  named := h.named
  backed := h.backed

/-- A transaction under a new id has no operations yet. -/
theorem Accounted.start (h : Accounted g ids m fs) (ho : Orderly m') (hc : m.current = none)
    (hid : Plain t.id) (hops : t.operations = [])
    (hm : m' = { m with events := m'.events, current := some t, counters := m'.counters }) :
    Accounted g (ids ++ [t.id]) m' fs := by
  have hrecords : ∀ u, m'.Records u → u = t ∨ m.Records u := by
    rintro u (hu | ⟨id, hu⟩)
    · rw [hm] at hu; exact .inl (Option.some.inj hu).symm
    · rw [hm] at hu; exact .inr (.inr ⟨id, hu⟩)
  have hstays : ∀ u, m.Records u → m'.Records u := by
    rintro u (hu | ⟨id, hu⟩)
    · rw [hc] at hu; cases hu
    · rw [hm]; exact .inr ⟨id, hu⟩
  have hnone : ∀ op, op ∉ t.operations := by simp [hops]
  refine
    { orderly := ho
      keeps := by rw [hm]; exact h.keeps
      plain := fun i hi => ?_
      checkpoints := fun id c hcp => ?_
      known := fun u hu => ?_
      once := fun u hu => ?_
      apart := fun u v hu hv hne op hop op' hop' => ?_
      named := fun w e he => ?_
      backed := fun u hu op hop hreq => ?_ }
  · rcases List.mem_append.1 hi with hi | hi
    · exact h.plain i hi
    · rwa [List.mem_singleton.1 hi]
  · rw [hm] at hcp
    exact List.mem_append_left _ (h.checkpoints id c hcp)
  · rcases hrecords u hu with rfl | hu
    · exact ⟨by simp, fun op hop => absurd hop (hnone op)⟩
    · exact ⟨List.mem_append_left _ (h.known u hu).1,
        fun op hop => List.mem_append_left _ ((h.known u hu).2 op hop)⟩
  · rcases hrecords u hu with rfl | hu
    · simp [hops]
    · exact h.once u hu
  · rcases hrecords u hu with rfl | hu
    · exact absurd hop (hnone op)
    rcases hrecords v hv with rfl | hv
    · exact absurd hop' (hnone op')
    exact h.apart u v hu hv hne op hop op' hop'
  · obtain ⟨u, op, hu, hrest⟩ := h.named w e he
    exact ⟨u, op, hstays u hu, hrest⟩
  · rw [hm]
    rw [hm] at hu
    rcases hu with hu | hu
    · cases hu; exact absurd hop (hnone op)
    · exact h.backed u (.inr hu) op hop hreq

/-- An operation under a new id has the backup that it needs. -/
theorem Accounted.append {op : Operation} (h : Accounted g ids m fs) (ho : Orderly (m.append t op))
    (hc : m.current = some t) (hnew : op.id ∉ ids) (hid : Plain op.id) (hk : Keeps g m.store fs')
    (hother : ∀ w, w ≠ backupName op.id → fs'.at (w :: g.backups) = fs.at (w :: g.backups))
    (hbacked : op.requiresBackup = true → BackedUp g m.store fs' op)
    (hnone : op.requiresBackup = false → fs'.at (backupName op.id :: g.backups) =
      fs.at (backupName op.id :: g.backups)) :
    Accounted g (ids ++ [op.id]) (m.append t op) fs' := by
  let grown : Transaction := { t with operations := t.operations ++ [op] }
  have ht : m.Records t := .inl hc
  have hrecords : ∀ u, (m.append t op).Records u → u = grown ∨ m.Records u ∧ u.id ≠ t.id := by
    rintro u (hu | ⟨id, hu⟩)
    · exact .inl (Option.some.inj hu).symm
    · refine .inr ⟨.inr ⟨id, hu⟩, fun heq => ?_⟩
      have hnone := (h.orderly.current t hc).2
      rw [← heq, h.orderly.keyed id u hu] at hnone
      cases hnone.symm.trans hu
  have hfresh : ∀ u, m.Records u → ∀ o ∈ u.operations, o.id ≠ op.id := fun u hu o hop heq =>
    hnew (heq ▸ (h.known u hu).2 o hop)
  have hgrown : ∀ {o}, o ∈ grown.operations ↔ o ∈ t.operations ∨ o = op := by simp [grown]
  refine
    { orderly := ho
      keeps := hk
      plain := fun i hi => ?_
      checkpoints := fun id c hcp => List.mem_append_left _ (h.checkpoints id c hcp)
      known := fun u hu => ?_
      once := fun u hu => ?_
      apart := fun u v hu hv hne o hop o' hop' => ?_
      named := fun w e he => ?_
      backed := fun u hu o hop hreq => ?_ }
  · rcases List.mem_append.1 hi with hi | hi
    · exact h.plain i hi
    · rwa [List.mem_singleton.1 hi]
  · rcases hrecords u hu with rfl | ⟨hu, -⟩
    · refine ⟨List.mem_append_left _ (h.known t ht).1, fun o hop => ?_⟩
      rcases hgrown.1 hop with hop | rfl
      · exact List.mem_append_left _ ((h.known t ht).2 o hop)
      · simp
    · exact ⟨List.mem_append_left _ (h.known u hu).1,
        fun op hop => List.mem_append_left _ ((h.known u hu).2 op hop)⟩
  · rcases hrecords u hu with rfl | ⟨hu, -⟩
    · rw [List.map_append, List.map_singleton, List.nodup_append]
      refine ⟨h.once t ht, by simp, fun i hi j hj heq => ?_⟩
      obtain ⟨o, hop, rfl⟩ := List.mem_map.1 hi
      rw [List.mem_singleton.1 hj] at heq
      exact hfresh t ht o hop heq
    · exact h.once u hu
  · rcases hrecords u hu with rfl | ⟨hu', hut⟩ <;> rcases hrecords v hv with rfl | ⟨hv', hvt⟩
    · exact absurd rfl hne
    · rcases hgrown.1 hop with hop | rfl
      · exact h.apart t v ht hv' hvt.symm o hop o' hop'
      · exact (hfresh v hv' o' hop').symm
    · rcases hgrown.1 hop' with hop' | rfl
      · exact h.apart u t hu' ht hut o hop o' hop'
      · exact hfresh u hu' o hop
    · exact h.apart u v hu' hv' hne o hop o' hop'
  · have hold : ∀ u o, m.Records u → o ∈ u.operations → ∃ u', (m.append t op).Records u' ∧ o ∈ u'.operations := by
      rintro u o (hu | hu) hop
      · rw [hc, Option.some.injEq] at hu
        subst hu
        exact ⟨grown, .inl rfl, hgrown.2 (.inl hop)⟩
      · exact ⟨u, .inr hu, hop⟩
    have hkept : fs.at (w :: g.backups) = some e → ∃ u o, (m.append t op).Records u ∧
        o ∈ u.operations ∧ o.requiresBackup = true ∧ w = backupName o.id := by
      intro he
      obtain ⟨u, o, hu, hop, hrest⟩ := h.named w e he
      obtain ⟨u', hu', hop'⟩ := hold u o hu hop
      exact ⟨u', o, hu', hop', hrest⟩
    by_cases hw : w = backupName op.id
    · by_cases hreq : op.requiresBackup = true
      · exact ⟨grown, op, .inl rfl, hgrown.2 (.inr rfl), hreq, hw⟩
      · rw [hw, hnone (by simpa using hreq)] at he
        exact hkept (hw ▸ he)
    · exact hkept (hother w hw ▸ he)
  · have hold : ∀ u, m.Revertible u → o ∈ u.operations → BackedUp g m.store fs' o := by
      intro u hu hop
      obtain ⟨b, hb, hsum, ha⟩ := h.backed u hu o hop hreq
      refine ⟨b, ?_, hsum, ha.of_leads hk.backups⟩
      rw [hother _ fun heq => hfresh u hu.records o hop (backupName_inj heq)]
      exact hb
    rcases hu with hu | hu
    · cases hu
      rcases hgrown.1 hop with hop | rfl
      · exact hold t (.inl hc) hop
      · exact hbacked hreq
    · exact hold u (.inr hu) hop

theorem Sheds.of_same (hk : Keeps g m.store fs')
    (hfs : ∀ w, fs'.at (w :: g.backups) = fs.at (w :: g.backups)) (hstore : m'.store = m.store)
    (hrecords : ∀ t', m'.Records t' → ∃ t, m.Records t ∧ t.id = t'.id ∧ t.operations = t'.operations)
    (hrevertible : ∀ t', m'.Revertible t' →
      ∃ t, m.Revertible t ∧ t.id = t'.id ∧ t.operations = t'.operations)
    (hstays : ∀ t, m.Records t → ∃ t', m'.Records t' ∧ t'.id = t.id) : Sheds g m fs m' fs' where
  store := hstore
  keeps := hk
  records := hrecords
  revertible := hrevertible
  fewer w := .inl (hfs w)
  held _ _ _ _ := hfs _
  gone t ht hnone := by
    obtain ⟨t', ht', hid⟩ := hstays t ht
    exact absurd hid (hnone t' ht')

theorem Sheds.of_still (hk : Keeps g m.store fs')
    (hfs : ∀ w, fs'.at (w :: g.backups) = fs.at (w :: g.backups)) (hstore : m'.store = m.store)
    (hcurrent : m'.current = m.current) (hhistory : m'.history = m.history) :
    Sheds g m fs m' fs' := by
  have hrecords : ∀ t, m'.Records t ↔ m.Records t := by
    intro t; simp only [Records, transaction?, hcurrent, hhistory]
  have hrevertible : ∀ t, m'.Revertible t ↔ m.Revertible t := by
    intro t; simp only [Revertible, transaction?, hcurrent, hhistory]
  exact .of_same hk hfs hstore (fun t ht => ⟨t, (hrecords t).1 ht, rfl, rfl⟩)
    (fun t ht => ⟨t, (hrevertible t).1 ht, rfl, rfl⟩) fun t ht => ⟨t, (hrecords t).2 ht, rfl⟩

/-! ### Turns -/

/-- After a turn the backups are accounted for again. Those that it has made have the id that it has
given out, and where it was to preserve none it has left none of what it has rolled back. -/
structure Turned (g : Grounds) (ids : List String) (r : Request) (m : Manager) (fs : FileSystem)
    (m' : Manager) (fs' : FileSystem) : Prop where
  accounted : Accounted g (ids ++ r.newId?.toList) m' fs'
  grows : ∀ w, fs'.at (w :: g.backups) = fs.at (w :: g.backups) ∨ fs'.at (w :: g.backups) = none ∨
    ∃ id ∈ r.newId?, w = backupName id
  repaid : ∀ options, r.options? = some options → options.preserveBackups = false →
    ∀ id t t', m.transaction? id = some t → t.status = .completed → m'.transaction? id = some t' →
    t'.status = .rolledBack → ∀ op ∈ t.operations, op.requiresBackup = true →
    fs'.at (backupName op.id :: g.backups) = none

variable {r : Request}

theorem Turned.of_sheds (h : Accounted g ids m fs) (hnew : ∀ i ∈ r.newId?, Plain i) (ho : Orderly m')
    (hc : ∀ id c, m'.checkpoint? id = some c → id ∈ ids ∨ id ∈ r.newId?) (hs : Sheds g m fs m' fs')
    (hr : r.options? = none) : Turned g ids r m fs m' fs' where
  accounted := (h.mono (by simpa using hnew)).sheds ho
    (fun id c hid => by simpa using hc id c hid) hs
  grows w := (hs.fewer w).imp_right .inl
  repaid options ho := by rw [hr] at ho; cases ho

theorem Turned.of_repaid {rs : List Result} (h : Accounted g ids m fs) (hnew : r.newId? = none)
    (hr : r.options? = some options) (hrepaid : Repaid g m fs options rs m' fs') :
    Turned g ids r m fs m' fs' where
  accounted := by
    rw [hnew, Option.toList_none, List.append_nil]
    refine h.sheds (hrepaid.rolled.orderly h.orderly) (fun id c hc => ?_) (hrepaid.sheds h)
    rw [hrepaid.rolled.others] at hc
    exact h.checkpoints id c hc
  grows w := (hrepaid.backups w).imp_right fun hw => .inl hw.1
  repaid o ho hpres := by
    rw [hr, Option.some.injEq] at ho
    exact hrepaid.gone (ho ▸ hpres)

theorem Keyed.fresh (hk : Keyed m) (hknown : ∀ id t, m.transaction? id = some t → t.id ∈ ids)
    (hnew : ∀ i ∈ r.newId?, i ∉ ids) : r.Fresh m := by
  cases r with
  | start id =>
    change m.transaction? id = none
    cases ht : m.transaction? id with
    | none => rfl
    | some t =>
      have hid := hknown id t ht
      rw [hk id t ht] at hid
      exact absurd hid (hnew id rfl)
  | _ => trivial

theorem Accounted.fresh (h : Accounted g ids m fs) (hnew : ∀ i ∈ r.newId?, i ∉ ids) : r.Fresh m :=
  h.orderly.keyed.fresh (fun id t ht => (h.known t (.inr ⟨id, ht⟩)).1) hnew

theorem at_backups_of_writing_in {f : Path} {d : Location} {w content : Bytes} (hd : d ≠ g.backups)
    (h : Files.Writing fs f d w content fs') (v : Bytes) :
    fs'.at (v :: g.backups) = fs.at (v :: g.backups) := by
  have hne : ∀ u, v :: g.backups ≠ u :: d := fun u heq => hd (List.cons.inj heq).2.symm
  rcases h with ⟨k, o, -, -, hedit⟩ | ⟨hedit, -⟩
  · exact hedit.at_of_ne (hne _)
  · exact hedit.at_of_ne (hne _)

theorem start_turned {name description command : String} {metadata : Metadata}
    (h : Accounted g ids m fs) (hnew : id ∉ ids) (hid : Plain id) :
    Turned g ids (.start id now name description command metadata) m fs
      (m.start id now name description command metadata).2 fs := by
  have ho := (turn_lawful (r := .start id now name description command metadata) h.orderly
    (h.fresh (by simpa [Request.newId?] using hnew)) fs).2
  simp only [Request.turn, Request.perform, run_pure] at ho
  rw [Manager.start] at ho ⊢
  cases hc : m.current with
  | some t =>
    exact .of_sheds h (by simpa [Request.newId?] using hid) h.orderly
      (fun id c hc => .inl (h.checkpoints id c hc)) (.refl h.keeps) rfl
  | none =>
    simp only [hc] at ho
    dsimp only
    have ht : Plain (Transaction.start id now name description command metadata).id := hid
    exact ⟨h.start ho hc ht rfl rfl, fun w => .inl rfl, fun _ h => by cases h⟩

theorem backUp_sure {op : Operation} {previous : Option Bytes} {e : Error} (hk : Keeps g m.store fs)
    (hid : Plain op.id) (hgo : Sure m.store P (m.backUp op previous) fs)
    (he : (m.backUp op previous).run fs = (.error e, fs')) :
    Keeps g m.store fs' ∧ ∀ k, fs'.at k = fs.at k := by
  cases previous with
  | none => cases he
  | some b =>
    simp only [backUp] at hgo he
    split at he
    · next hreq =>
      rw [if_pos hreq] at hgo
      refine ⟨?_, write_sure hk hid hgo he⟩
      have hresult : Stored fs m.store.backupsDirectory g.backups (backupName op.id) b _ _ :=
        (write_meets hk hid).result
      rw [show m.backups = ⟨m.store.backupsDirectory⟩ from rfl] at he
      rw [he] at hresult
      rcases hresult with ⟨hr, -⟩ | ⟨-, hlittered, -⟩
      · cases hr
      · exact (hk.tended_littered (by simp [Grounds.folders]) hlittered).keeps hk
    · cases he

theorem add_turned {kind : Operation.Kind} {p : Path} {details : Operation.Details}
    (h : Accounted g ids m fs) (hnew : id ∉ ids) (hid : Plain id)
    (hgo : Sure m.store P (m.add id now kind p details) fs) :
    Turned g ids (.add id now kind p details) m fs
      ((m.add id now kind p details).run fs).1.2 ((m.add id now kind p details).run fs).2 := by
  have ho := (turn_lawful (r := .add id now kind p details) h.orderly trivial fs).2
  simp only [Request.turn, Request.perform, run_bind, run_pure] at ho
  have hstill : ∀ fs', Keeps g m.store fs' → (∀ k, fs'.at k = fs.at k) →
      Turned g ids (.add id now kind p details) m fs m fs' := fun fs' hk hfs =>
    .of_sheds h (by simpa [Request.newId?] using hid) h.orderly
      (fun id c hc => .inl (h.checkpoints id c hc))
      (.of_still hk (fun w => hfs _) rfl rfl rfl) rfl
  cases hrun : (m.add id now kind p details).run fs with
  | mk out fs' =>
    obtain ⟨answer, m'⟩ := out
    rw [hrun] at ho
    cases answer with
    | ok i =>
      obtain ⟨-, t, previous, hadded⟩ := add_ok hrun
      obtain rfl := hadded.appended
      have hsum : (m.operationOf id now kind p details previous).checksum =
        previous.map Sha256.hexDigest := rfl
      have hgrows : ∀ w, w ≠ backupName id → fs'.at (w :: g.backups) = fs.at (w :: g.backups) := by
        rintro w hw
        rcases hadded.backed h.keeps hid with ⟨-, rfl⟩ | ⟨b, -, -, hedit, -⟩
        · rfl
        · exact hedit.at_of_ne fun heq => hw (List.cons.inj heq).1
      refine ⟨?_, fun w => ?_, fun _ h => by cases h⟩
      · rcases hadded.backed h.keeps hid with ⟨hreq, rfl⟩ | ⟨b, rfl, hreq, hedit, haims⟩
        · exact h.append ho hadded.current hnew hid h.keeps hgrows
            (fun h => by rw [hreq] at h; cases h) fun _ => rfl
        · have hk := (h.keeps.tended_edit (by simp [Grounds.folders]) (by simp) hedit).keeps h.keeps
          exact h.append ho hadded.current hnew hid hk hgrows
            (fun _ => ⟨b, hedit.at_self, hsum, haims.of_leads hk.backups⟩)
            fun h => by rw [hreq] at h; cases h
      · by_cases hw : w = backupName id
        · exact .inr (.inr ⟨id, rfl, hw⟩)
        · exact .inl (hgrows w hw)
    | error e =>
      rw [add] at hgo hrun
      cases hc : m.current with
      | none => rw [hc] at hrun; cases hrun; exact hstill _ h.keeps fun _ => rfl
      | some t =>
        simp only [hc] at hgo hrun
        split at hrun
        · cases hrun; exact hstill _ h.keeps fun _ => rfl
        next hs =>
        rw [if_neg hs] at hgo
        have hlooks := (looks_previousBytes (m.root.normalize p) details.previousContent).run fs
        replace hgo := hgo.bind.2
        rw [run_bind, hlooks] at hrun
        rw [hlooks] at hgo
        cases hp : ((previousBytes (m.root.normalize p) details.previousContent).run fs).1 with
        | error e => rw [hp] at hrun; cases hrun; exact hstill _ h.keeps fun _ => rfl
        | ok previous =>
          simp only [hp] at hgo hrun
          replace hgo := hgo.bind.1
          rw [run_bind] at hrun
          cases hb : (m.backUp (m.operationOf id now kind p details previous) previous).run fs with
          | mk r fs₁ =>
            rw [hb] at hrun
            cases r with
            | ok _ => cases hrun
            | error e' =>
              have hop : Plain (m.operationOf id now kind p details previous).id := hid
              obtain ⟨hk, hfs⟩ := backUp_sure h.keeps hop hgo hb
              cases hrun
              exact hstill _ hk hfs

theorem Sheds.of_current {u : Transaction} (hk : Keeps g m.store fs')
    (hfs : ∀ w, fs'.at (w :: g.backups) = fs.at (w :: g.backups)) (hc : m.current = some t)
    (hu : u.id = t.id ∧ u.operations = t.operations) (hstore : m'.store = m.store)
    (hrecords : ∀ v, m'.Records v ↔ v = u ∨ ∃ id, m.transaction? id = some v)
    (hrevertible : ∀ v, m'.Revertible v → v = u ∨
      ∃ id, m.transaction? id = some v ∧ v.status = .completed) : Sheds g m fs m' fs' := by
  refine .of_same hk hfs hstore (fun v hv => ?_) (fun v hv => ?_) fun v hv => ?_
  · rcases (hrecords v).1 hv with rfl | hv
    · exact ⟨t, .inl hc, hu.1.symm, hu.2.symm⟩
    · exact ⟨v, .inr hv, rfl, rfl⟩
  · rcases hrevertible v hv with rfl | hv
    · exact ⟨t, .inl hc, hu.1.symm, hu.2.symm⟩
    · exact ⟨v, .inr hv, rfl, rfl⟩
  · rcases hv with hv | hv
    · rw [hc, Option.some.injEq] at hv
      exact ⟨u, (hrecords u).2 (.inl rfl), hv ▸ hu.1⟩
    · exact ⟨v, (hrecords v).2 (.inr hv), rfl⟩

theorem sheds_keep (h : Accounted g ids m fs) (hc : m.current = some t) (hk : Keeps g m.store fs')
    (hfs : ∀ w, fs'.at (w :: g.backups) = fs.at (w :: g.backups)) :
    Sheds g m fs (m.keep { t with status := .completed }) fs' := by
  have hkept : ∀ v, (∃ id, (m.keep { t with status := .completed }).transaction? id = some v) ↔
      v = { t with status := .completed } ∨ ∃ id, m.transaction? id = some v := by
    intro v
    constructor
    · rintro ⟨id, hv⟩
      rw [transaction?_keep] at hv
      split at hv
      · exact .inl (Option.some.inj hv).symm
      · exact .inr ⟨id, hv⟩
    · rintro (rfl | ⟨id, hv⟩)
      · exact ⟨t.id, by rw [transaction?_keep, if_pos rfl]⟩
      · refine ⟨id, ?_⟩
        rw [transaction?_keep, if_neg fun heq => ?_, hv]
        rw [heq, (h.orderly.current t hc).2] at hv
        cases hv
  refine .of_current (u := { t with status := .completed }) hk hfs hc ⟨rfl, rfl⟩ rfl
    (fun v => ⟨fun hv => (hkept v).1 (hv.resolve_left fun hn => by cases hn),
      fun hv => .inr ((hkept v).2 hv)⟩) fun v hv => ?_
  obtain ⟨id, hv, hs⟩ := hv.resolve_left fun hn => by cases hn
  rw [transaction?_keep] at hv
  split at hv
  · exact .inl (Option.some.inj hv).symm
  · exact .inr ⟨id, hv, hs⟩

theorem complete_turned (h : Accounted g ids m fs) (hgo : Sure m.store P m.complete fs) :
    Turned g ids .complete m fs (m.complete.run fs).1.2 (m.complete.run fs).2 := by
  have ho := (turn_lawful (r := .complete) h.orderly trivial fs).2
  simp only [Request.turn, Request.perform, run_bind, run_pure] at ho
  have hnew : ∀ i ∈ Request.complete.newId?, Plain i := by simp [Request.newId?]
  rw [complete] at hgo ho ⊢
  cases hc : m.current with
  | none =>
    exact .of_sheds h hnew h.orderly (fun id c hc => .inl (h.checkpoints id c hc)) (.refl h.keeps) rfl
  | some t =>
    simp only [hc] at hgo ho ⊢
    have hplain : Plain ({ t with status := .completed } : Transaction).id :=
      h.plain _ (h.known t (.inl hc)).1
    obtain ⟨content, hwriting⟩ := saveTransaction_writing h.keeps hplain
    have hw := hwriting _ (mem_stages_run (m.store.saveTransaction { t with status := .completed }) fs)
    replace hgo := hgo.bind.2
    rw [run_bind] at ho ⊢
    generalize (m.store.saveTransaction { t with status := .completed }).run fs = out at hgo hw ho
    obtain ⟨answer, fs₁⟩ := out
    have hk := (h.keeps.tended_writing (by simp [Grounds.folders]) hw).keeps h.keeps
    have hfs := at_backups_of_writing h.keeps hw
    cases answer with
    | error e =>
      refine .of_sheds h hnew ho (fun id c hc => .inl (h.checkpoints id c hc))
        (.of_current (u := { t with status := .failed }) hk hfs hc ⟨rfl, rfl⟩ rfl (fun v => ?_)
          fun v hv => ?_) rfl
      · exact or_congr (by simp [markFailed, eq_comm]) Iff.rfl
      · exact hv.imp_left fun hv => (Option.some.inj hv).symm
    | ok _ =>
      dsimp only at hgo ho ⊢
      rw [run_bind] at ho ⊢
      have hsheds := sheds_keep h hc hk hfs
      have hbooks : Accounted g ids (m.keep { t with status := .completed }) fs₁ :=
        h.sheds (h.orderly.keep hc) h.checkpoints hsheds
      have hcleared := enforceLimit_cleared hbooks.keeps hbooks.plainIds hgo.bind.1
      -- then the oldest make room
      have hall : Accounted g ids (((m.keep { t with status := .completed }).enforceLimit.run fs₁).1)
          (((m.keep { t with status := .completed }).enforceLimit.run fs₁).2) :=
        hbooks.sheds ⟨ho.keyed, ho.current, ho.checkpoints⟩
          (fun id c hc => by rw [hcleared.pruned.manager] at hc; exact h.checkpoints id c hc)
          (hcleared.sheds hbooks)
      refine ⟨?_, fun w => ?_, fun _ h => by cases h⟩
      · exact (hall.mono (List.forall_mem_nil Plain)).sheds ho
          (fun id c hc => List.mem_append_left _ (hall.checkpoints id c hc))
          (.of_still hall.keeps (fun _ => rfl) rfl rfl rfl)
      · exact (hcleared.fewer w).elim (fun heq => .inl (heq.trans (hfs w))) fun hn => .inr (.inl hn)

theorem abort_turned (h : Accounted g ids m fs) (hgo : Sure m.store P m.abort fs) :
    Turned g ids .abort m fs (m.abort.run fs).1.2 (m.abort.run fs).2 := by
  have ho := (turn_lawful (r := .abort) h.orderly trivial fs).2
  simp only [Request.turn, Request.perform, run_bind, run_pure] at ho
  have hnew : ∀ i ∈ Request.abort.newId?, Plain i := by simp [Request.newId?]
  have hcheckpoints : ∀ {new : Option String} id c, m.checkpoint? id = some c → id ∈ ids ∨ id ∈ new :=
    fun id c hc => .inl (h.checkpoints id c hc)
  rw [abort] at hgo ho ⊢
  cases hc : m.current with
  | none => exact .of_sheds h hnew h.orderly hcheckpoints (.refl h.keeps) rfl
  | some t =>
    simp only [hc] at hgo ho ⊢
    have ht : m.Records t := .inl hc
    have hplain : Plain t.id := h.plain _ (h.known t ht).1
    have hops : ∀ op ∈ t.operations, Plain op.id := fun op hop => h.plain _ ((h.known t ht).2 op hop)
    have hdelete := (deleteTransaction_meets h.keeps hplain).result
    replace hgo := hgo.bind.2
    rw [run_bind] at ho ⊢
    generalize (m.store.deleteTransaction t.id).run fs = out at hgo hdelete ho
    obtain ⟨answer, fs₁⟩ := out
    cases answer with
    | error e =>
      rcases hdelete with ⟨hr, -⟩ | ⟨hr, -⟩ | ⟨-, rfl⟩
      · cases hr
      · cases hr
      · exact .of_sheds h hnew h.orderly hcheckpoints (.refl h.keeps) rfl
    | ok b =>
      dsimp only at hgo ho ⊢
      rw [run_bind] at ho ⊢
      have hshed : Shed g.transactions [documentName t.id] fs fs₁ := by
        rcases hdelete with ⟨-, hedit⟩ | ⟨-, rfl, -⟩ | ⟨⟨e, hr⟩, -⟩
        · exact Shed.of_edit hedit (by simp)
        · exact Shed.refl h.keeps.sound _ _
        · cases hr
      have hk₁ := (hshed.tended h.keeps (by simp [Grounds.folders])).keeps h.keeps
      have hfs := hshed.at_of_ne h.keeps.transactions_ne_backups
      have hshed' : Shed g.backups (t.operations.map fun op => backupName op.id) fs₁
          ((m.backups.removeFor t).run fs₁).2 := (removeEach_meets hk₁ hops).result
      have hgone := removeEach_sure hk₁ hops hgo.bind.1
      have hsame : ∀ w, (∀ op ∈ t.operations, w ≠ backupName op.id) →
          ((m.backups.removeFor t).run fs₁).2.at (w :: g.backups) = fs.at (w :: g.backups) := by
        intro w hw
        rw [← hfs w]
        refine (hshed'.at_eq _).resolve_right ?_
        rintro ⟨-, v, hv, heq⟩
        obtain ⟨op, hop, rfl⟩ := List.mem_map.1 hv
        exact hw op hop (List.cons.inj heq).1
      have hkept : ∀ {v}, (∃ id, m.transaction? id = some v) → v.id ≠ t.id := by
        rintro v ⟨id, hv⟩ heq
        have hnone := (h.orderly.current t hc).2
        rw [← heq, h.orderly.keyed id v hv, hv] at hnone
        cases hnone
      refine .of_sheds h hnew ho hcheckpoints
        { store := rfl
          keeps := (hshed'.tended hk₁ (by simp [Grounds.folders])).keeps hk₁
          records := fun v hv => ⟨v, .inr (hv.resolve_left fun hn => by cases hn), rfl, rfl⟩
          revertible := fun v hv => ⟨v, .inr (hv.resolve_left fun hn => by cases hn), rfl, rfl⟩
          fewer := fun w => (hshed'.at_eq (w :: g.backups)).imp (fun heq => heq.trans (hfs w)) And.left
          held := fun v hv op hop => hsame _ fun op' hop' heq => ?_
          gone := fun v hv hnone op hop hreq => ?_ } rfl
      · obtain ⟨id, hv, -⟩ := hv.resolve_left fun hn => by cases hn
        exact h.apart v t (.inr ⟨id, hv⟩) ht (hkept ⟨id, hv⟩) op hop op' hop' (backupName_inj heq)
      · rcases hv with hv | hv
        · rw [hc, Option.some.injEq] at hv
          exact hgone op (hv ▸ hop) hreq
        · exact absurd rfl (hnone v (.inr hv))

theorem createCheckpoint_turned {name description : String} {chosen : Option (List String)}
    {metadata : Metadata} (h : Accounted g ids m fs) (hid : Plain id) :
    Turned g ids (.createCheckpoint id now name description chosen metadata) m fs
      ((m.createCheckpoint id now name description chosen metadata).run fs).1.2
      ((m.createCheckpoint id now name description chosen metadata).run fs).2 := by
  have ho := (turn_lawful (r := .createCheckpoint id now name description chosen metadata) h.orderly
    trivial fs).2
  simp only [Request.turn, Request.perform, run_bind, run_pure] at ho
  have hnew : ∀ i ∈ (Request.createCheckpoint id now name description chosen metadata).newId?,
    Plain i := by simpa [Request.newId?] using hid
  rw [createCheckpoint] at ho ⊢
  cases hs : m.selection chosen with
  | error e =>
    exact .of_sheds h hnew h.orderly (fun id c hc => .inl (h.checkpoints id c hc)) (.refl h.keeps) rfl
  | ok chosen =>
    simp only [hs] at ho ⊢
    have hmeets : Meets (m.store.saveCheckpoint
        (Checkpoint.create id now name description chosen metadata)) fs
        (Files.Writing fs m.store.checkpointsDirectory g.checkpoints (documentName id) _) _ :=
      save_meets h.keeps (by simp [Grounds.folders]) h.keeps.firm_checkpoints (isName_documentName hid)
    have hwriting := hmeets.stages _ (mem_stages_run _ fs)
    rw [run_bind] at ho ⊢
    generalize (m.store.saveCheckpoint _).run fs = out at hwriting ho
    obtain ⟨answer, fs₁⟩ := out
    have hk := (h.keeps.tended_writing (by simp [Grounds.folders]) hwriting).keeps h.keeps
    have hfs := at_backups_of_writing_in h.keeps.checkpoints_ne_backups hwriting
    cases answer with
    | error e =>
      exact .of_sheds h hnew h.orderly (fun id c hc => .inl (h.checkpoints id c hc))
        (.of_still hk hfs rfl rfl rfl) rfl
    | ok _ =>
      refine .of_sheds h hnew ho (fun j c hc => ?_) (.of_still hk hfs rfl rfl rfl) rfl
      have hget : (m.checkpoints.put id _).get? j = some c := hc
      rw [Index.get?_put] at hget
      split at hget
      · next heq => exact .inr (by rw [heq]; rfl)
      · exact .inl (h.checkpoints j c hget)

theorem deleteCheckpoint_turned (h : Accounted g ids m fs) :
    Turned g ids (.deleteCheckpoint id) m fs ((m.deleteCheckpoint id).run fs).1.2
      ((m.deleteCheckpoint id).run fs).2 := by
  have ho := (turn_lawful (r := .deleteCheckpoint id) h.orderly trivial fs).2
  simp only [Request.turn, Request.perform, run_bind, run_pure] at ho
  have hnew : ∀ i ∈ (Request.deleteCheckpoint id).newId?, Plain i := by simp [Request.newId?]
  rw [deleteCheckpoint] at ho ⊢
  by_cases hhas : m.checkpoints.has id = true
  · obtain ⟨c, hc⟩ := Option.isSome_iff_exists.1 hhas
    have hplain : Plain id := h.plain _ (h.checkpoints id c hc)
    rw [if_pos hhas] at ho ⊢
    have hremoved := (Files.removeIfPresent_meets h.keeps.sound h.keeps.checkpoints
      (isName_documentName hplain)).result
    change Files.Removed fs g.checkpoints (documentName id) ((m.store.deleteCheckpoint id).run fs).1
      ((m.store.deleteCheckpoint id).run fs).2 at hremoved
    have hshed : Shed g.checkpoints [documentName id] fs ((m.store.deleteCheckpoint id).run fs).2 := by
      rcases hremoved with ⟨-, hedit⟩ | ⟨-, hfs, -⟩ | ⟨-, hfs⟩
      · exact Shed.of_edit hedit (by simp)
      · rw [hfs]; exact Shed.refl h.keeps.sound _ _
      · rw [hfs]; exact Shed.refl h.keeps.sound _ _
    have hk := (hshed.tended h.keeps (by simp [Grounds.folders])).keeps h.keeps
    have hfs := hshed.at_of_ne h.keeps.checkpoints_ne_backups
    have hfewer : ∀ j c, (m.checkpoints.remove id).get? j = some c → j ∈ ids := fun j c hc => by
      rw [Index.get?_remove] at hc
      split at hc
      · cases hc
      · exact h.checkpoints j c hc
    rw [run_bind] at ho ⊢
    generalize (m.store.deleteCheckpoint id).run fs = out at ho hk hfs
    obtain ⟨_ | _, fs₁⟩ := out
    · exact .of_sheds h hnew ho (fun j c hc => .inl (hfewer j c hc)) (.of_still hk hfs rfl rfl rfl) rfl
    · exact .of_sheds h hnew ho (fun j c hc => .inl (hfewer j c hc)) (.of_still hk hfs rfl rfl rfl) rfl
  · rw [if_neg hhas]
    exact .of_sheds h hnew h.orderly (fun id c hc => .inl (h.checkpoints id c hc)) (.refl h.keeps) rfl

theorem rollback_turned (h : Accounted g ids m fs)
    (hgo : Sure m.store (m.Clear g) (m.rollback now options id) fs) :
    Turned g ids (.rollback now options id) m fs ((m.rollback now options id).run fs).1.2
      ((m.rollback now options id).run fs).2 :=
  .of_repaid h rfl rfl (rollback_repaid h.keeps h.plainIds h.orderly.keyed (fun _ hk => hk) hgo)

theorem rollbackCheckpoint_turned (h : Accounted g ids m fs)
    (hgo : Sure m.store (m.Clear g) (m.rollbackCheckpoint now options id) fs) :
    Turned g ids (.rollbackCheckpoint now options id) m fs
      ((m.rollbackCheckpoint now options id).run fs).1.2
      ((m.rollbackCheckpoint now options id).run fs).2 :=
  .of_repaid h rfl rfl (rollbackCheckpoint_repaid h.keeps h.plainIds h.orderly.keyed (fun _ hk => hk)
    (h.orderly.checkpoints id) hgo)

theorem clear_turned {days : Option Nat} {s : Script (Nat × Manager)} (h : Accounted g ids m fs)
    (hs : m.clear? now days = some s) (hgo : Sure m.store P s fs) :
    Turned g ids (.clear now days) m fs (s.run fs).1.2 (s.run fs).2 := by
  have hcleared : Cleared g m fs (s.run fs).1.2 (s.run fs).2 := by
    cases days with
    | none =>
      obtain rfl := Option.some.inj hs
      exact purgeEach_cleared h.keeps h.plainIds _ hgo
    | some days =>
      obtain ⟨cutoff, -, rfl⟩ := Option.map_eq_some_iff.1 hs
      exact purgeEach_cleared h.keeps h.plainIds _ hgo
  refine .of_sheds h (by simp [Request.newId?]) ((clear_fewer fs hs).orderly h.orderly) (fun id c hc => ?_)
    (hcleared.sheds h) rfl
  rw [hcleared.pruned.manager] at hc
  exact .inl (h.checkpoints id c hc)

theorem turn_turned (h : Accounted g ids m fs) (hnew : ∀ i ∈ r.newId?, i ∉ ids ∧ Plain i)
    (hgo : r.Careful g m fs) : Turned g ids r m fs (r.turn m fs).after (r.turn m fs).left := by
  rw [Request.Careful] at hgo
  cases r with
  | start id now name description command metadata =>
    obtain ⟨hnew, hid⟩ := hnew id rfl
    exact start_turned h hnew hid
  | add id now kind p details =>
    obtain ⟨hnew, hid⟩ := hnew id rfl
    rw [Request.turn, Request.perform, run_bind]
    exact add_turned h hnew hid hgo.bind.1
  | complete =>
    rw [Request.turn, Request.perform, run_bind]
    exact complete_turned h hgo.bind.1
  | abort =>
    rw [Request.turn, Request.perform, run_bind]
    exact abort_turned h hgo.bind.1
  | rollback now options id =>
    rw [Request.turn, Request.perform, run_bind]
    exact rollback_turned h hgo.bind.1
  | createCheckpoint id now name description chosen metadata =>
    rw [Request.turn, Request.perform, run_bind]
    exact createCheckpoint_turned h (hnew id rfl).2
  | deleteCheckpoint id =>
    rw [Request.turn, Request.perform, run_bind]
    exact deleteCheckpoint_turned h
  | rollbackCheckpoint now options id =>
    rw [Request.turn, Request.perform, run_bind]
    exact rollbackCheckpoint_turned h hgo.bind.1
  | clear now days =>
    rw [Request.turn, Request.perform]
    rw [Request.perform] at hgo
    cases hs : m.clear? now days with
    | none =>
      exact .of_sheds h (fun i hi => (hnew i hi).2) h.orderly
        (fun id c hc => .inl (h.checkpoints id c hc)) (.refl h.keeps) rfl
    | some s =>
      simp only [hs] at hgo
      dsimp only
      rw [run_bind]
      exact clear_turned h hs hgo.bind.1

/-! ### Runs -/

theorem BackedUp.not_lacks {op : Operation} (h : BackedUp g m.store fs op) (verify : Bool) :
    ¬LacksBackup m.backups verify fs op := by
  obtain ⟨b, hb, hsum, ha⟩ := h
  have hpath : m.backups.pathFor op.id = m.store.backupsDirectory.join ⟨backupName op.id⟩ := rfl
  have hstatus := ha.linkStatus
  have hread := ha.read (by simp [hb])
  rw [hb] at hstatus hread
  rw [← hpath] at hstatus hread
  rintro ⟨-, -, hno | ⟨-, -, hno⟩⟩
  · rw [hstatus] at hno; cases hno
  · have hreadable : (Entry.file 0o600 b).isReadable = true := (by decide : Nat.testBit 0o600 8 = true)
    rw [hread, hsum] at hno
    simp [hreadable, Except.toOption] at hno

theorem open_accounted {project : Path} {settings : Settings} {s : Script (Except Error Manager)}
    {fs₀ : FileSystem} (hopen : open? project settings now = some s)
    (hload : s.run fs₀ = (.ok m, fs)) (hk : Keeps g m.store fs)
    (hempty : ∀ d ∈ g.folders, ∀ w, fs.at (w :: d) = none) : Accounted g [] m fs := by
  obtain ⟨hcurrent, hhistory, hcheckpoints⟩ := open_empty hopen hload hk hempty
  have hnone : ∀ t, ¬m.Records t := by
    rintro t (ht | ⟨id, ht⟩)
    · rw [hcurrent] at ht; cases ht
    · rw [transaction?, hhistory] at ht; cases ht
  have hnocheckpoint : ∀ id c, m.checkpoint? id ≠ some c := by
    intro id c hc
    rw [checkpoint?, hcheckpoints] at hc
    cases hc
  exact
    { orderly := open_orderly hopen hload fun id c hc => absurd hc (hnocheckpoint id c)
      keeps := hk
      plain := by simp
      checkpoints := fun id c hc => absurd hc (hnocheckpoint id c)
      known := fun t ht => absurd ht (hnone t)
      once := fun t ht => absurd ht (hnone t)
      apart := fun t _ ht => absurd ht (hnone t)
      named := fun w e he => by rw [hempty _ (by simp [Grounds.folders])] at he; cases he
      backed := fun t ht => absurd ht.records (hnone t) }

end Manager

/-- The operations of what a turn has rolled back without preserving backups. -/
def Turn.Spends (s : Turn) (op : Operation) : Prop :=
  ∃ options id t t', s.request.options? = some options ∧ options.preserveBackups = false ∧
    s.before.transaction? id = some t ∧ t.status = .completed ∧
    s.after.transaction? id = some t' ∧ t'.status = .rolledBack ∧ op ∈ t.operations

namespace Manager

variable {g : Grounds} {m m' : Manager} {fs fs' : FileSystem} {ids : List String} {r : Request}

/-- What a turn has spent is gone after it, also for operations that needed no backup. -/
theorem Turned.spent (h : Accounted g ids m fs) (hnew : ∀ i ∈ r.newId?, i ∉ ids)
    (ht : Turned g ids r m fs (r.turn m fs).after (r.turn m fs).left) {op : Operation}
    (hspends : (r.turn m fs).Spends op) :
    op.id ∈ ids ∧ (r.turn m fs).left.at (backupName op.id :: g.backups) = none := by
  obtain ⟨options, id, t, t', hoptions, hpres, hid, hs, hid', hs', hop⟩ := hspends
  refine ⟨(h.known t (.inr ⟨id, hid⟩)).2 op hop, ?_⟩
  by_contra hne
  obtain ⟨e, he⟩ := Option.ne_none_iff_exists'.1 hne
  obtain ⟨u, op', hu, hop', hreq, hname⟩ := ht.accounted.named _ e he
  have hlawful : (r.turn m fs).Lawful := (turn_lawful h.orderly (h.fresh hnew) fs).1
  have hop₁ : op ∈ t'.operations := by
    rw [(hlawful.kept id t t' hid hid').1.record]
    exact hop
  -- the backup would belong to the same operation, which then needed one
  have hrecords : (r.turn m fs).after.Records t' := .inr ⟨id, hid'⟩
  have htu : t' = u := by
    by_contra hne
    refine ht.accounted.apart t' u hrecords hu (fun heq => hne ?_) op hop₁ op' hop' (backupName_inj hname)
    exact ht.accounted.orderly.unique hrecords hu heq
  subst htu
  have heq : op = op' :=
    List.inj_on_of_nodup_map (ht.accounted.once t' hrecords) hop₁ hop' (backupName_inj hname)
  subst heq
  exact hne (ht.repaid options hoptions hpres id t t' hid hs hid' hs' op hop hreq)

/-- Through a run, the backups are accounted for, and what has been spent stays gone. -/
theorem run_accounted {turns : List Turn} (hbooks : Accounted g [] m fs)
    (hrun : Run (fun m fs r => r.Careful g m fs) (fun m => Spared g m.store) m fs turns m' fs')
    (hnodup : (turns.filterMap (·.request.newId?)).Nodup)
    (hplain : ∀ i ∈ turns.filterMap (·.request.newId?), Plain i) :
    Accounted g (turns.filterMap (·.request.newId?)) m' fs' ∧
      ∀ s ∈ turns, ∀ op, s.Spends op → op.id ∈ turns.filterMap (·.request.newId?) ∧
        fs'.at (backupName op.id :: g.backups) = none := by
  refine hrun.invariant
    (fun turns m fs => (turns.filterMap (·.request.newId?)).Nodup →
      (∀ i ∈ turns.filterMap (·.request.newId?), Plain i) →
      Accounted g (turns.filterMap (·.request.newId?)) m fs ∧
        ∀ s ∈ turns, ∀ op, s.Spends op → op.id ∈ turns.filterMap (·.request.newId?) ∧
          fs.at (backupName op.id :: g.backups) = none)
    (fun _ _ => ⟨hbooks, by simp⟩) (fun turns m fs fs' ih hspared hnodup hplain => ?_)
    (fun turns m fs r ih hfair hnodup hplain => ?_) hnodup hplain
  · obtain ⟨hbooks, hspent⟩ := ih hnodup hplain
    refine ⟨hbooks.spared hspared, fun s hs op hop => ?_⟩
    rw [hspared.at_eq _ (Grounds.within_cons (by simp [Grounds.folders]) _)]
    exact hspent s hs op hop
  · have hids : (turns ++ [r.turn m fs]).filterMap (·.request.newId?) =
        turns.filterMap (·.request.newId?) ++ r.newId?.toList := by
      rw [List.filterMap_append]
      cases h : r.newId? <;> simp [Request.turn, h]
    rw [hids] at hnodup hplain ⊢
    obtain ⟨hbooks, hspent⟩ := ih (List.nodup_append.1 hnodup).1
      fun i hi => hplain i (List.mem_append_left _ hi)
    have hnew : ∀ i ∈ r.newId?, i ∉ turns.filterMap (·.request.newId?) := fun i hi hmem =>
      (List.nodup_append.1 hnodup).2.2 i hmem i (by simpa using hi) rfl
    have hturned := turn_turned hbooks
      (fun i hi => ⟨hnew i hi, hplain i (List.mem_append_right _ (by simpa using hi))⟩) hfair
    refine ⟨hturned.accounted, fun s hs op hop => ?_⟩
    rcases List.mem_append.1 hs with hs | hs
    · obtain ⟨hid, hgone⟩ := hspent s hs op hop
      refine ⟨List.mem_append_left _ hid, ?_⟩
      rcases hturned.grows (backupName op.id) with heq | hnone | ⟨i, hi, heq⟩
      · exact heq.trans hgone
      · exact hnone
      · exact absurd (backupName_inj heq ▸ hid) (hnew i hi)
    · rw [List.mem_singleton.1 hs] at hop
      obtain ⟨hid, hgone⟩ := hturned.spent hbooks hnew hop
      exact ⟨List.mem_append_left _ hid, hgone⟩

end Manager

/-- The backups directory corresponds to what is recorded. From a store with nothing in it, after any
run of requests that gives out new ids, in which no removal in the store fails and no recorded path
leads there: each file among the backups belongs to an operation of a transaction that is under way
or kept; each operation that needs a backup, of the transaction under way or of one that is
completed, has it with its digest, so that what is completed can be rolled back; and nothing is left
of what was rolled back without preserving backups. -/
theorem backups_accounted {g : Grounds} {project : Path} {settings : Settings} {now : Instant}
    {s : Script (Except Error Manager)} {fs₀ fs fs' : FileSystem} {m m' : Manager} {turns : List Turn}
    (hopen : Manager.open? project settings now = some s) (hload : s.run fs₀ = (.ok m, fs))
    (hk : Keeps g m.store fs) (hempty : ∀ d ∈ g.folders, ∀ w, fs.at (w :: d) = none)
    (hrun : Run (fun m fs r => r.Careful g m fs) (fun m => Spared g m.store) m fs turns m' fs')
    (hnodup : (turns.filterMap (·.request.newId?)).Nodup)
    (hplain : ∀ i ∈ turns.filterMap (·.request.newId?), Plain i) :
    (∀ w e, fs'.at (w :: g.backups) = some e →
      ∃ t op, m'.Records t ∧ op ∈ t.operations ∧ w = backupName op.id) ∧
    (∀ t, m'.Revertible t → ∀ op ∈ t.operations, op.requiresBackup = true →
      ∃ b, fs'.at (backupName op.id :: g.backups) = some (.file 0o600 b) ∧
        op.checksum = some (Sha256.hexDigest b)) ∧
    (∀ id t, m'.transaction? id = some t → t.status = .completed →
      ∃ p, (m'.preview id).run fs' = (.ok p, fs') ∧ p.canProceed = true) ∧
    ∀ s ∈ turns, ∀ op, s.Spends op → fs'.at (backupName op.id :: g.backups) = none := by
  obtain ⟨hbooks, hspent⟩ := Manager.run_accounted (Manager.open_accounted hopen hload hk hempty)
    hrun hnodup hplain
  refine ⟨fun w e he => ?_, fun t ht op hop hreq => ?_, fun id t ht hs => ?_,
    fun s hs op hop => (hspent s hs op hop).2⟩
  · obtain ⟨t, op, ht, hop, -, rfl⟩ := hbooks.named w e he
    exact ⟨t, op, ht, hop, rfl⟩
  · obtain ⟨b, hb, hsum, -⟩ := hbooks.backed t ht op hop hreq
    exact ⟨b, hb, hsum⟩
  · obtain ⟨p, hp, hreports⟩ := m'.previewOf_eq t fs'
    refine ⟨p, by simp only [Manager.preview, ht, run_bind, hp, run_pure], ?_⟩
    by_contra hno
    obtain ⟨op, hop, hlacks⟩ := hreports.blocked.1 (by simpa using hno)
    have hreq := requiresBackup_iff.2 ⟨hlacks.1, hlacks.2.1⟩
    exact (hbooks.backed t (.inr ⟨id, ht, hs⟩) op hop hreq).not_lacks _ hlacks

theorem FileSystem.eq_of_parts {fs fs' : FileSystem} (he : fs.entries = fs'.entries)
    (hr : fs.rootMode = fs'.rootMode) (hw : fs.workplace = fs'.workplace) : fs = fs' := by
  cases fs; cases fs'; simp_all

namespace Sample

theorem opening_yields : (opening.run tree).2.entries = tree.entries ∧
    (opening.run tree).2.rootMode = tree.rootMode ∧ (opening.run tree).2.workplace = tree.workplace ∧
    opened.store = manager.store := by decide +kernel

theorem opening_still : (opening.run tree).2 = tree :=
  FileSystem.eq_of_parts opening_yields.1 opening_yields.2.1 opening_yields.2.2.1

theorem opening_run : opening.run tree = (.ok opened, tree) := by
  rw [eq_ok_get opens, opening_still]
  rfl

theorem store_opened : opened.store = manager.store := opening_yields.2.2.2

theorem opened_keeps : Keeps grounds opened.store tree := by
  rw [store_opened]
  exact keeps

theorem tree_empty : ∀ d ∈ grounds.folders, ∀ w, tree.at (w :: d) = none :=
  fun d hd => children_eq_nil.1 (folders_empty d hd)

/-- At no stage of a request does what is kept lead into the store. -/
def Aloof (r : Request) (m : Manager) (fs : FileSystem) : Prop :=
  ∀ k ∈ (r.perform m).stages fs, ∀ x ∈ m.history, ∀ op ∈ x.2.operations, op.Outlying grounds k

instance (r : Request) (m : Manager) (fs : FileSystem) : Decidable (Aloof r m fs) :=
  inferInstanceAs (Decidable (∀ _ ∈ _, ∀ _ ∈ _, _))

def Heeds (r : Request) (m : Manager) (fs : FileSystem) : Prop :=
  Aloof r m fs ∧ ((r.perform m).calls fs).all (fun x => x.1.isSure m.store x.2) = true

instance (r : Request) (m : Manager) (fs : FileSystem) : Decidable (Heeds r m fs) :=
  inferInstanceAs (Decidable (_ ∧ _))

theorem Heeds.careful {r : Request} {m : Manager} {fs : FileSystem} (h : Heeds r m fs) :
    r.Careful grounds m fs where
  calls x hx := List.all_eq_true.1 h.2 x hx
  stages k hk id t ht := h.1 k hk (id, t) (Index.mem_of_get? ht)

theorem turns_heed : Heeds (.start "t" ⟨0, 0⟩ "" "" "" []) opened tree ∧
    Heeds (.add "o" ⟨0, 0⟩ .update (.ofString "f") {}) starting.after starting.left ∧
    Heeds .complete adding.after adding.left ∧
    Heeds (.rollback ⟨1, 0⟩ {} "t") completing.after completing.left := by decide +kernel

theorem starting_eq : starting = (Request.start "t" ⟨0, 0⟩ "" "" "" []).turn opened tree := by
  rw [← opening_still]
  rfl

theorem completing_run : Run (fun m fs r => r.Careful grounds m fs) (fun m => Spared grounds m.store)
    opened tree ([] ++ [starting] ++ [adding] ++ [completing]) completing.after completing.left :=
  .snoc (.snoc (.snoc .nil turns_heed.1.careful starting_eq) turns_heed.2.1.careful adding.eq_1)
    turns_heed.2.2.1.careful completing.eq_1

theorem rollingBack_run : Run (fun m fs r => r.Careful grounds m fs) (fun m => Spared grounds m.store)
    opened tree ([] ++ [starting] ++ [adding] ++ [completing] ++ [rollingBack]) rollingBack.after
    rollingBack.left :=
  .snoc completing_run turns_heed.2.2.2.careful rollingBack.eq_1

theorem rollingBack_before : rollingBack.request = .rollback ⟨1, 0⟩ {} "t" ∧
    rollingBack.before = completing.after := by
  rw [rollingBack, Request.turn_request, Request.turn_before]
  exact ⟨rfl, rfl⟩

theorem rollingBack_spends : ∃ t t' op, completing.after.transaction? "t" = some t ∧ t.status = .completed ∧
    rollingBack.after.transaction? "t" = some t' ∧ t'.status = .rolledBack ∧ op ∈ t.operations ∧
    op.id = "o" ∧ op.requiresBackup = true ∧ rollingBack.Spends op := by
  have hkept : (completing.after.transaction? "t").any (fun t => t.status = .completed &&
        t.operations.any fun op => op.id = "o" && op.requiresBackup) = true ∧
      (rollingBack.after.transaction? "t").map (·.status) = some .rolledBack := by decide +kernel
  obtain ⟨hkept, hstatus⟩ := hkept
  obtain ⟨t, ht, hall⟩ := (Option.any_eq_true _ _).1 hkept
  obtain ⟨t', ht', hs'⟩ := Option.map_eq_some_iff.1 hstatus
  simp only [Bool.and_eq_true, decide_eq_true_eq, List.any_eq_true] at hall
  obtain ⟨hs, op, hop, hid, hreq⟩ := hall
  obtain ⟨hrequest, hbefore⟩ := rollingBack_before
  have hspends : rollingBack.Spends op :=
    ⟨{}, "t", t, t', by rw [hrequest]; rfl, rfl, by rw [hbefore, ht], hs, ht', hs', hop⟩
  exact ⟨t, t', op, ht, hs, ht', hs', hop, hid, hreq, hspends⟩

end Sample

theorem backups_accounted_of_one_rolled_back :
    (∃ b, Sample.completing.left.at (backupName "o" :: Sample.grounds.backups) =
        some (.file 0o600 b)) ∧
      (∃ p, (Sample.completing.after.preview "t").run Sample.completing.left =
        (.ok p, Sample.completing.left) ∧ p.canProceed = true) ∧
      (∃ t, Sample.rollingBack.after.transaction? "t" = some t ∧ t.status = .rolledBack) ∧
      Sample.rollingBack.left.at (backupName "o" :: Sample.grounds.backups) = none := by
  obtain ⟨-, hbacked, hproceed, -⟩ := backups_accounted (Option.some_get _).symm Sample.opening_run
    Sample.opened_keeps Sample.tree_empty Sample.completing_run (by decide) (by decide +kernel)
  obtain ⟨-, -, -, hspent⟩ := backups_accounted (Option.some_get _).symm Sample.opening_run
    Sample.opened_keeps Sample.tree_empty Sample.rollingBack_run (by decide) (by decide +kernel)
  obtain ⟨t, t', op, ht, hs, ht', hs', hop, hid, hreq, hspends⟩ := Sample.rollingBack_spends
  obtain ⟨b, hb, -⟩ := hbacked t (.inr ⟨"t", ht, hs⟩) op hop hreq
  have hgone := hspent Sample.rollingBack (List.mem_append_right _ List.mem_cons_self) op hspends
  rw [hid] at hb hgone
  exact ⟨⟨b, hb⟩, hproceed "t" t ht hs, ⟨t', ht', hs'⟩, hgone⟩

end Retrace
