import Retrace.Proofs.Checkpoints
import Retrace.Proofs.Failing
import Retrace.Proofs.Pruning
import Retrace.Proofs.RoundTrip
import Retrace.Proofs.Time.Order

/-!
What a new checkpoint holds: the ids that are named, each at its first occurrence, or those of the
newest transactions. It is refused where one of them is not known, and its document gives back what is
kept of it; nothing else changes (`createCheckpoint_selects`).
-/
namespace Retrace

open FileSystem Files Retrace.Path Script

variable {m m' : Manager} {fs fs' : FileSystem} {ids stored : List String} {u : String}

/-! ### First occurrences -/

structure FirstOccurrences (ids stored : List String) : Prop where
  mem : ∀ i, i ∈ stored ↔ i ∈ ids
  ordered : stored.Pairwise fun i j => ids.idxOf i < ids.idxOf j

theorem FirstOccurrences.nodup (h : FirstOccurrences ids stored) : stored.Nodup :=
  h.ordered.imp fun hlt heq => by
    rw [heq] at hlt
    exact Nat.lt_irrefl _ hlt

theorem pairwise_idxOf_cons {x : String} (hx : x ∉ stored)
    (h : stored.Pairwise fun i j => ids.idxOf i < ids.idxOf j) :
    stored.Pairwise fun i j => (x :: ids).idxOf i < (x :: ids).idxOf j := by
  refine h.imp_of_mem fun {i j} hi hj hlt => ?_
  have hne : ∀ k ∈ stored, x ≠ k := fun k hk heq => hx (heq ▸ hk)
  rw [List.idxOf_cons_ne _ (hne i hi), List.idxOf_cons_ne _ (hne j hj)]
  exact Nat.succ_lt_succ hlt

theorem Checkpoint.firsts_pairwise (seen ids : List String) :
    (firsts seen ids).Pairwise fun i j => ids.idxOf i < ids.idxOf j := by
  induction ids generalizing seen with
  | nil => exact .nil
  | cons x ids ih =>
    rw [firsts]
    split
    · next hseen =>
      exact pairwise_idxOf_cons (fun hx => firsts_disjoint _ _ x hx hseen) (ih seen)
    · have hx : x ∉ firsts (x :: seen) ids := fun hx =>
        firsts_disjoint _ _ x hx List.mem_cons_self
      refine List.pairwise_cons.2 ⟨fun j hj => ?_, pairwise_idxOf_cons hx (ih (x :: seen))⟩
      rw [List.idxOf_cons_self, List.idxOf_cons_ne _ fun heq : x = j => hx (heq ▸ hj)]
      exact Nat.succ_pos _

theorem Checkpoint.firsts_firstOccurrences (ids : List String) :
    FirstOccurrences ids (firsts [] ids) where
  mem i := by simpa using mem_firsts [] ids i
  ordered := firsts_pairwise [] ids

theorem Checkpoint.firsts_of_nodup {seen : List String} (h : ids.Nodup) (hs : ∀ i ∈ ids, i ∉ seen) :
    firsts seen ids = ids := by
  induction ids generalizing seen with
  | nil => rfl
  | cons x ids ih =>
    rw [List.nodup_cons] at h
    rw [firsts, if_neg (hs x List.mem_cons_self), ih h.2]
    intro i hi hmem
    rcases List.mem_cons.1 hmem with rfl | hmem
    · exact h.1 hi
    · exact hs i (List.mem_cons_of_mem _ hi) hmem

/-! ### The newest transactions -/

namespace Manager

/-- At most `n` of the transactions that are kept, all where there are no more, oldest first; none of
the others is newer than one of them. -/
structure Newest (m : Manager) (n : Nat) (ids : List String) : Prop where
  nodup : ids.Nodup
  length : ids.length = min n m.history.length
  known : ∀ i ∈ ids, (m.transaction? i).isSome
  newest : ∀ i ∈ ids, ∀ j, j ∉ ids → ∀ t u, m.transaction? i = some t → m.transaction? j = some u →
    t.timestamp.lt u.timestamp = false
  ordered : ids.Pairwise fun i j => ∀ t u, m.transaction? i = some t → m.transaction? j = some u →
    u.timestamp.lt t.timestamp = false

theorem recentIds_newest (hkeyed : Keyed m) (hkeys : (m.history.map (·.1)).Nodup) :
    m.Newest m.settings.checkpointSize m.recentIds := by
  set n := m.settings.checkpointSize with hn
  have hkept : ∀ {t}, t ∈ m.transactions ↔ m.transaction? t.id = some t :=
    mem_transactions hkeyed hkeys
  have hlength : m.transactions.length = m.history.length := by
    rw [transactions, List.length_mergeSort, Index.values, List.length_map]
  have hids : (m.transactions.map (·.id)).Nodup := by
    rw [transactions, ((List.mergeSort_perm _ _).map _).nodup_iff, Index.values, List.map_map]
    refine (List.map_congr_left fun x hx => ?_) ▸ hkeys
    exact (hkeyed x.1 x.2 ((Index.get?_eq_some_iff hkeys).2 hx)).symm
  have hmem : ∀ {i}, i ∈ m.recentIds ↔ ∃ t ∈ m.transactions.take n, t.id = i := fun {i} => by
    rw [recentIds, List.mem_reverse, List.mem_map]
  -- an id stands for one transaction, whichever way that is found
  have htaken : ∀ {i t}, i ∈ m.recentIds → m.transaction? i = some t → t ∈ m.transactions.take n := by
    intro i t hi ht
    obtain ⟨t', ht', rfl⟩ := hmem.1 hi
    rw [hkept.1 (List.mem_of_mem_take ht')] at ht
    exact Option.some.inj ht ▸ ht'
  have hsorted : (m.transactions.take n ++ m.transactions.drop n).Pairwise
      fun t u => t.timestamp.lt u.timestamp = false := by
    rw [List.take_append_drop]
    exact m.transactions_sorted
  obtain ⟨htake, -, hacross⟩ := List.pairwise_append.1 hsorted
  refine ⟨?_, ?_, fun i hi => ?_, fun i hi j hj t u ht hu => ?_, ?_⟩
  · rw [recentIds, List.nodup_reverse, List.map_take]
    exact hids.sublist (List.take_sublist _ _)
  · rw [recentIds, List.length_reverse, List.length_map, List.length_take, hlength]
  · obtain ⟨t, ht, rfl⟩ := hmem.1 hi
    rw [hkept.1 (List.mem_of_mem_take ht)]
    rfl
  · refine hacross t (htaken hi ht) u ?_
    have hju : u.id = j := hkeyed j u hu
    have huin : u ∈ m.transactions := hkept.2 (hju.symm ▸ hu)
    rw [← List.take_append_drop n m.transactions] at huin
    exact (List.mem_append.1 huin).resolve_left fun hc => hj (hmem.2 ⟨u, hc, hju⟩)
  · rw [recentIds, List.pairwise_reverse, List.pairwise_map]
    refine htake.imp_of_mem fun {t u} ht hu hlt t' u' ht' hu' => ?_
    rw [hkept.1 (List.mem_of_mem_take hu)] at ht'
    rw [hkept.1 (List.mem_of_mem_take ht)] at hu'
    rw [← Option.some.inj ht', ← Option.some.inj hu']
    exact hlt

/-- The first id of a list that no transaction is kept under. -/
def FirstUnknown (m : Manager) (ids : List String) (u : String) : Prop :=
  ∃ before after, ids = before ++ u :: after ∧ (∀ i ∈ before, (m.transaction? i).isSome) ∧
    m.transaction? u = none

/-- The ids that a checkpoint comes to hold where some are named, and where none are. -/
def Selects (m : Manager) : Option (List String) → List String → Prop
  | some ids, stored => FirstOccurrences ids stored
  | none, stored => m.Newest m.settings.checkpointSize stored

theorem selection_error_iff {chosen : Option (List String)} {e : Error} :
    m.selection chosen = .error e ↔
      ∃ ids u, chosen = some ids ∧ e = .transactionNotFound u ∧ m.FirstUnknown ids u := by
  cases chosen with
  | none => simp [selection]
  | some ids =>
    rw [selection]
    have hfind : ∀ u, ids.find? (fun i => (m.transaction? i).isNone) = some u ↔
        m.FirstUnknown ids u := fun u => by
      rw [List.find?_eq_some_iff_append, FirstUnknown]
      simp only [Option.isNone_iff_eq_none, Bool.not_eq_true', Option.isNone_eq_false_iff]
      constructor
      · rintro ⟨hu, before, after, hsplit, hknown⟩
        exact ⟨before, after, hsplit, hknown, hu⟩
      · rintro ⟨before, after, hsplit, hknown, hu⟩
        exact ⟨hu, before, after, hsplit, hknown⟩
    constructor
    · intro h
      split at h
      · next u hu => exact ⟨ids, u, rfl, (Except.error.inj h).symm, (hfind u).1 hu⟩
      · cases h
    · rintro ⟨_, u, hids, rfl, hu⟩
      obtain rfl := Option.some.inj hids
      rw [(hfind u).2 hu]

theorem exists_firstUnknown_iff :
    (∃ u, m.FirstUnknown ids u) ↔ ∃ i ∈ ids, m.transaction? i = none := by
  constructor
  · rintro ⟨u, before, after, rfl, -, hu⟩
    exact ⟨u, by simp, hu⟩
  · rintro ⟨i, hi, hnone⟩
    induction ids with
    | nil => cases hi
    | cons x ids ih =>
      cases hx : m.transaction? x with
      | none => exact ⟨x, [], ids, rfl, by simp, hx⟩
      | some t =>
        have hne : i ≠ x := fun heq => by simp [← heq, hnone] at hx
        obtain ⟨u, before, after, rfl, hknown, hu⟩ := ih ((List.mem_cons.1 hi).resolve_left hne)
        exact ⟨u, x :: before, after, rfl, by simpa [hx] using hknown, hu⟩

theorem selection_selects {chosen : Option (List String)} (hkeyed : Keyed m)
    (hkeys : (m.history.map (·.1)).Nodup) (h : m.selection chosen = .ok ids) :
    m.Selects chosen (Checkpoint.firsts [] ids) ∧
      ∀ i ∈ Checkpoint.firsts [] ids, (m.transaction? i).isSome := by
  cases chosen with
  | none =>
    obtain rfl := Except.ok.inj h
    have hnewest := recentIds_newest hkeyed hkeys
    rw [Checkpoint.firsts_of_nodup hnewest.nodup fun _ _ => List.not_mem_nil]
    exact ⟨hnewest, hnewest.known⟩
  | some chosen =>
    rw [selection] at h
    split at h
    · cases h
    · next hfind =>
      obtain rfl := Except.ok.inj h
      refine ⟨Checkpoint.firsts_firstOccurrences _, fun i hi => ?_⟩
      have hknown := List.find?_eq_none.1 hfind i (((Checkpoint.mem_firsts _ _ i).1 hi).1)
      simpa [Option.isSome_iff_ne_none] using hknown

end Manager

/-! ### The document -/

/-- A file has come to the place of its path, which was free. What else has come are directories. -/
structure Files.Arrived (fs : FileSystem) (p : Path) (content : Bytes) (fs' : FileSystem) : Prop where
  grown : Grown fs (fun q e => q = p ∧ e = .file 0o600 content ∨ e.isDirectory = true) fs'
  place : ∃ l, fs.at l = none ∧ fs'.spot? p = some l ∧ fs'.at l = some (.file 0o600 content)

/-- A file that was written under a name that nothing has is a new file. -/
theorem Files.Written.arrived {f : Path} {w content : Bytes} (hs : fs.Sound) (hf : f.isAbsolute = true)
    (ht : f.Tidy) (hw : IsName w) (hfree : ∀ d, fs.at (w :: d) = none)
    (h : Written fs (f.join ⟨w⟩) content fs' (.ok ())) : Arrived fs (f.join ⟨w⟩) content fs' := by
  cases h with
  | @whole q fs₁ l target made place old edit =>
    have hvacant : fs.Vacant (f.join ⟨w⟩) := vacant_of_free hs hf ht hw fun d _ => hfree d
    have hspot : fs₁.spot? (f.join ⟨w⟩) = some l :=
      place.resolve_right fun hbeyond => hvacant.linkStatus .link hbeyond.1
    obtain ⟨d, -, rfl⟩ := cons_of_spot? hf hw hspot
    -- the directories that were made on the way leave the place free
    have hnone : fs₁.at (w :: d) = none := by
      cases hx : fs₁.at (w :: d) with
      | none => rfl
      | some x =>
        obtain ⟨-, -, -, -, hdir⟩ := made.new _ x (hfree d) hx
        rw [old x (by rw [hx]; rfl)] at hdir
        cases hdir
    have hp : (f.join ⟨w⟩).isAbsolute = true := Path.isAbsolute_join_name hf hw
    have hspared : Spares fs₁ (fun _ => False) fs' := edit.spares fun hc => by simp [hnone] at hc
    have hspot' : fs'.spot? (f.join ⟨w⟩) = some (w :: d) := hspared.spot? made.sound hp hspot
    exact ⟨(made.mono fun _ _ hx => .inr hx.2).insert edit hnone hp hspot' (.inl ⟨rfl, rfl⟩),
      w :: d, hfree d, hspot', edit.at_self⟩

theorem Store.saveCheckpoint_arrived {s : Store} {c : Checkpoint} {x : Except Error Unit}
    (hs : fs.Sound) (hroot : s.root.isAbsolute = true) (hid : Plain c.id)
    (hfree : ∀ d, fs.at (documentName c.id :: d) = none)
    (h : (s.saveCheckpoint c).run fs = (x, fs')) :
    (∃ why, x = .error (.persistence .checkpoint c.id why)) ∧ Widened fs fs' ∨
      x = .ok () ∧ Arrived fs (s.checkpointPath c.id) (Utf8.encode c.toText) fs' := by
  rcases saveCheckpoint_written hs hroot h with ⟨⟨e, rfl⟩, hwide⟩ | ⟨rfl, content, htext, hwritten⟩
  · refine .inl ⟨?_, hwide⟩
    rw [saveCheckpoint, save, run_bind] at h
    split at h
    · cases (Prod.mk.inj h).1
    · exact ⟨_, (Prod.mk.inj h).1.symm⟩
  · obtain rfl := Option.some.inj htext
    exact .inr ⟨rfl, hwritten.arrived hs (Path.isAbsolute_join_name hroot isName_folders.2.2)
      (Path.tidy_join_name hroot isName_folders.2.2) (isName_documentName hid) hfree⟩

namespace Manager

variable {r : Except Error String} {id name description : String} {now : Instant}
  {chosen : Option (List String)} {metadata : Metadata}

/-- A request for a checkpoint is refused for what it selects, or is not saved, or is met. -/
theorem createCheckpoint_outcome (hs : fs.Sound) (hroot : m.store.root.isAbsolute = true)
    (hid : Plain id) (hfree : ∀ d, fs.at (documentName id :: d) = none)
    (h : (m.createCheckpoint id now name description chosen metadata).run fs = ((r, m'), fs')) :
    (∃ e, m.selection chosen = .error e ∧ r = .error e ∧ m' = m ∧ fs' = fs) ∨
    ∃ ids c, m.selection chosen = .ok ids ∧ c = Checkpoint.create id now name description ids metadata ∧
      ((∃ why, r = .error (.persistence .checkpoint id why) ∧ m' = m ∧ Widened fs fs' ∧
          (m.store.saveCheckpoint c).run fs = (.error (.persistence .checkpoint id why), fs')) ∨
        r = .ok id ∧ m' = { m with checkpoints := m.checkpoints.put id c } ∧
          Arrived fs (m.store.checkpointPath id) (Utf8.encode c.toText) fs') := by
  rw [createCheckpoint] at h
  cases hchosen : m.selection chosen with
  | error e =>
    simp only [hchosen, run_pure, Prod.mk.injEq] at h
    obtain ⟨⟨rfl, rfl⟩, rfl⟩ := h
    exact .inl ⟨e, rfl, rfl, rfl, rfl⟩
  | ok ids =>
    simp only [hchosen, run_bind] at h
    refine .inr ⟨ids, _, rfl, rfl, ?_⟩
    generalize hc : Checkpoint.create id now name description ids metadata = c at h ⊢
    obtain rfl : c.id = id := by rw [← hc, Checkpoint.create]
    generalize hsave : (m.store.saveCheckpoint c).run fs = out at h ⊢
    obtain ⟨x, fs₁⟩ := out
    rcases Store.saveCheckpoint_arrived hs hroot hid hfree hsave with
      ⟨⟨why, rfl⟩, hwide⟩ | ⟨rfl, harrived⟩
    · simp only [run_pure, Prod.mk.injEq] at h
      obtain ⟨⟨rfl, rfl⟩, rfl⟩ := h
      exact .inl ⟨why, rfl, rfl, hwide, rfl⟩
    · simp only [run_pure, Prod.mk.injEq] at h
      obtain ⟨⟨rfl, rfl⟩, rfl⟩ := h
      exact .inr ⟨rfl, rfl, harrived⟩

/-- A new checkpoint, in memory and on disk. -/
structure Checkpointed (m : Manager) (fs : FileSystem) (chosen : Option (List String)) (c : Checkpoint)
    (m' : Manager) (fs' : FileSystem) : Prop where
  held : m'.checkpoint? c.id = some c
  selected : m.Selects chosen c.transactionIds
  nodup : c.transactionIds.Nodup
  known : ∀ i ∈ c.transactionIds, (m.transaction? i).isSome
  /-- The file of the checkpoint is new, and the checkpoint comes back from it unless it nests deeper
  than a document may. -/
  filed : ∃ content, Arrived fs (m.store.checkpointPath c.id) content fs' ∧
    (Json.nesting c.toJson ≤ 127 →
      ∃ text, Utf8.decode? content = some text ∧ Checkpoint.ofText? text = some c)

theorem checkpointed_of_arrived {c : Checkpoint} (hkeyed : Keyed m)
    (hkeys : (m.history.map (·.1)).Nodup) (hnow : now.Regular) (hmetadata : metadata.Exact)
    (hsel : m.selection chosen = .ok ids)
    (hc : c = Checkpoint.create id now name description ids metadata)
    (h : Arrived fs (m.store.checkpointPath id) (Utf8.encode c.toText) fs') :
    m.Checkpointed fs chosen c { m with checkpoints := m.checkpoints.put id c } fs' := by
  obtain rfl : c.id = id := by rw [hc, Checkpoint.create]
  have hids : c.transactionIds = Checkpoint.firsts [] ids := by rw [hc, Checkpoint.create]
  have hregular : c.Regular := by
    rw [hc, Checkpoint.create]
    exact ⟨hnow, hmetadata⟩
  obtain ⟨hselects, hknown⟩ := selection_selects hkeyed hkeys hsel
  exact {
    held := by rw [checkpoint?, Index.get?_put, if_pos rfl]
    selected := hids ▸ hselects
    nodup := hids ▸ Checkpoint.nodup_firsts _ _
    known := hids ▸ hknown
    filed := ⟨_, h, fun hdepth => ⟨c.toText, Utf8.decode?_encode _, by
      rw [Checkpoint.ofText?_toText hregular, if_pos (Checkpoint.isReadable_of_nesting hregular hdepth)]⟩⟩ }

/-- A checkpoint of named transactions is refused with the first name that is not known, and only
then; all others are made, unless saving them fails. One that is made holds each of the named ids at
its first occurrence, or where none are named those of the newest transactions, oldest first; all are
known and no two the same, and its file gives it back unless it nests deeper than documents may. Apart
from it nothing changes, and nothing at all where none is made. -/
theorem createCheckpoint_selects (hkeyed : Keyed m) (hkeys : (m.history.map (·.1)).Nodup)
    (hs : fs.Sound) (hroot : m.store.root.isAbsolute = true) (hid : Plain id)
    (hfree : ∀ d, fs.at (documentName id :: d) = none) (hnow : now.Regular) (hmetadata : metadata.Exact)
    (h : (m.createCheckpoint id now name description chosen metadata).run fs = ((r, m'), fs')) :
    (∀ u, r = .error (.transactionNotFound u) ↔ ∃ ids, chosen = some ids ∧ m.FirstUnknown ids u) ∧
    ((∃ u, r = .error (.transactionNotFound u)) ↔
      ∃ ids, chosen = some ids ∧ ∃ i ∈ ids, m.transaction? i = none) ∧
    (∀ e, r = .error e → (∃ u, e = .transactionNotFound u) ∨
      ∃ c why, m.Selects chosen c.transactionIds ∧ e = .persistence .checkpoint id why ∧
        (m.store.saveCheckpoint c).run fs = (.error e, fs')) ∧
    (∀ i, r = .ok i → i = id ∧ ∃ c : Checkpoint, c.id = id ∧ c.name = name ∧
      c.description = description ∧ c.timestamp = now ∧ c.metadata = metadata ∧
      m.Checkpointed fs chosen c m' fs') ∧
    m' = { m with checkpoints := m'.checkpoints } ∧ (∀ j, j ≠ id → m'.checkpoint? j = m.checkpoint? j) ∧
    Spares fs (fun _ => False) fs' ∧ (∀ e, r = .error e → m' = m ∧ Widened fs fs') := by
  have hrefused : ∀ u, r = .error (.transactionNotFound u) ↔
      ∃ ids, chosen = some ids ∧ m.FirstUnknown ids u := by
    intro u
    have hiff : m.selection chosen = .error (.transactionNotFound u) ↔
        ∃ ids, chosen = some ids ∧ m.FirstUnknown ids u := by
      rw [selection_error_iff]
      constructor
      · rintro ⟨ids, v, hids, he, hv⟩
        exact ⟨ids, hids, Error.transactionNotFound.inj he ▸ hv⟩
      · rintro ⟨ids, hids, hu⟩
        exact ⟨ids, u, hids, rfl, hu⟩
    rw [← hiff]
    rcases createCheckpoint_outcome hs hroot hid hfree h with ⟨e, hsel, rfl, -⟩ |
      ⟨ids, c, hsel, -, ⟨why, rfl, -⟩ | ⟨rfl, -⟩⟩ <;> simp [hsel]
  refine ⟨hrefused, ?_, ?_⟩
  · refine (exists_congr hrefused).trans ?_
    rw [exists_comm]
    exact exists_congr fun ids => by rw [exists_and_left, exists_firstUnknown_iff]
  rcases createCheckpoint_outcome hs hroot hid hfree h with ⟨e, hsel, rfl, rfl, rfl⟩ |
    ⟨ids, c, hsel, hc, ⟨why, rfl, rfl, hwide, hsave⟩ | ⟨rfl, rfl, harrived⟩⟩
  · obtain ⟨ids, u, -, rfl, -⟩ := selection_error_iff.1 hsel
    exact ⟨fun e he => .inl ⟨u, (Except.error.inj he).symm⟩, fun i hi => (by cases hi), rfl,
      fun _ _ => rfl, Spares.refl hs, fun _ _ => ⟨rfl, .refl hs⟩⟩
  · have hselects := (selection_selects hkeyed hkeys hsel).1
    rw [← show c.transactionIds = Checkpoint.firsts [] ids by rw [hc]; rfl] at hselects
    refine ⟨fun e he => .inr ⟨c, why, hselects, (Except.error.inj he).symm, ?_⟩,
      fun i hi => (by cases hi), rfl, fun _ _ => rfl, hwide.toSpares, fun _ _ => ⟨rfl, hwide⟩⟩
    rw [← Except.error.inj he, hsave]
  · have hmade := checkpointed_of_arrived hkeyed hkeys hnow hmetadata hsel hc harrived
    refine ⟨fun e he => (by cases he), fun i hi => ⟨(Except.ok.inj hi).symm, c, ?_⟩, rfl,
      fun j hj => by rw [checkpoint?, Index.get?_put, if_neg hj, checkpoint?], harrived.grown.toSpares,
      fun e he => (by cases he)⟩
    exact ⟨by rw [hc]; rfl, by rw [hc]; rfl, by rw [hc]; rfl, by rw [hc]; rfl, by rw [hc]; rfl, hmade⟩

end Manager

namespace Sample

def repeated : (Except Error String × Manager) × FileSystem :=
  (aged.createCheckpoint "c" ⟨960000, 0⟩ "" "" (some ["b", "a", "b"]) [("k", .ofNat 1)]).run plainTree

end Sample

theorem Sample.free_of_c (d : Location) : Sample.plainTree.at (documentName "c" :: d) = none := by
  have hnames : ∀ x ∈ Sample.plainTree.entries, x.1.head? ≠ some (documentName "c") := by decide +kernel
  by_contra hsome
  obtain ⟨e, he⟩ := Option.ne_none_iff_exists'.1 hsome
  exact hnames _ (mem_of_at (List.cons_ne_nil _ _) he) rfl

theorem Manager.createCheckpoint_selects_named_twice :
    ∃ c : Checkpoint, c.metadata = [("k", .ofNat 1)] ∧ Sample.aged.Checkpointed Sample.plainTree
      (some ["b", "a", "b"]) c Sample.repeated.1.2 Sample.repeated.2 := by
  have hrun : (Sample.aged.createCheckpoint "c" ⟨960000, 0⟩ "" "" (some ["b", "a", "b"])
      [("k", .ofNat 1)]).run Sample.plainTree =
        ((Sample.repeated.1.1, Sample.repeated.1.2), Sample.repeated.2) := by rw [Sample.repeated]
  obtain ⟨-, -, -, hmade, -⟩ := createCheckpoint_selects Sample.aged_distinct.keyed
    Sample.aged_distinct.keys Sample.plainTree_keeps.sound (by decide +kernel) (by decide +kernel)
    Sample.free_of_c (by decide) ⟨0, by decide⟩ hrun
  obtain ⟨-, c, -, -, -, -, hmetadata, hc⟩ := hmade "c" (by decide +kernel)
  exact ⟨c, hmetadata, hc⟩

namespace Sample

def deep : Checkpoint := .create "c" ⟨960000, 0⟩ "" "" ["a"] [("k", nested 126)]

def deepening : (Except Error String × Manager) × FileSystem :=
  (aged.createCheckpoint "c" ⟨960000, 0⟩ "" "" (some ["a"]) [("k", nested 126)]).run plainTree

end Sample

/-- A checkpoint is made whose file cannot be read: its metadata nest too deep. -/
theorem Manager.createCheckpoint_unreadable :
    Json.nesting Sample.deep.toJson = 128 ∧ Sample.deepening.1.1 = .ok "c" ∧
      Sample.deepening.1.2.checkpoint? "c" = some Sample.deep ∧
      ∃ content, Arrived Sample.plainTree (Sample.aged.store.checkpointPath "c") content Sample.deepening.2 ∧
        (Utf8.decode? content).bind Checkpoint.ofText? = none := by
  have hregular : Sample.deep.Regular := ⟨by decide, 126, by decide +kernel⟩
  have hdeep : Sample.deep.isReadable = false := by decide +kernel
  have hok : Sample.deepening.1.1 = .ok "c" := by decide +kernel
  have hrun : (Sample.aged.createCheckpoint "c" ⟨960000, 0⟩ "" "" (some ["a"])
      [("k", Sample.nested 126)]).run Sample.plainTree =
        ((.ok "c", Sample.deepening.1.2), Sample.deepening.2) := by rw [← hok, Sample.deepening]
  obtain ⟨e, -, hc, -⟩ | ⟨ids, c, hsel, hc, ⟨why, herror, -⟩ | ⟨-, hm, harrived⟩⟩ :=
    createCheckpoint_outcome Sample.plainTree_keeps.sound (by decide +kernel) (by decide +kernel)
      Sample.free_of_c hrun
  · cases hc
  · cases herror
  · obtain rfl : ["a"] = ids := Except.ok.inj hsel
    obtain rfl : c = Sample.deep := hc
    refine ⟨by decide +kernel, hok, by rw [hm, checkpoint?, Index.get?_put, if_pos rfl], _, harrived, ?_⟩
    rw [Utf8.decode?_encode, Option.bind_some, Checkpoint.ofText?_toText hregular, hdeep]
    rfl

end Retrace
