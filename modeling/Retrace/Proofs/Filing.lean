import Retrace.Proofs.Documents
import Retrace.Proofs.Encoding
import Retrace.Proofs.Loading

/-!
Directories of documents. A directory files what is kept (`Filed`) where there is a document for each
value under its id and no other document that can be read; then what is loaded from it is what is kept,
as far as it can be read (`Filed.load`). Temporary files are no documents, so a file that is being
written is read as it was before or as it is afterwards.
-/
namespace Retrace

open FileSystem Retrace.Path Script

def Proper (id : String) : Prop := Plain id ∧ id ≠ ""

instance (id : String) : Decidable (Proper id) := inferInstanceAs (Decidable (_ ∧ _))

/-! ### Names of documents -/

theorem isDocumentName_iff {w : Bytes} : Store.isDocumentName w = true ↔
    w.reverse.takeWhile (· ≠ dot) = [110, 111, 115, 106] ∧ 5 < w.length := by
  have hjson : Utf8.encode "json" = [106, 115, 111, 110] := by decide +kernel
  have hrev : ∀ a : Bytes, a.reverse = [106, 115, 111, 110] ↔ a = [110, 111, 115, 106] :=
    fun a => List.reverse_eq_iff
  rw [Store.isDocumentName, decide_eq_true_eq, hjson, Path.extension?]
  generalize hafter : w.reverse.takeWhile (· ≠ dot) = after
  constructor
  · intro h
    split at h
    · cases h
    · next hshort =>
      have hafter := (hrev after).1 (Option.some.inj h)
      subst hafter
      exact ⟨rfl, Nat.not_le.1 fun hc => hshort (.inl hc)⟩
  · rintro ⟨rfl, hlong⟩
    rw [if_neg]
    · rfl
    · rintro (hc | hc)
      · exact absurd hlong (Nat.not_lt.2 hc)
      · rw [hc] at hlong; exact absurd hlong (by decide)

theorem isDocumentName_documentName {id : String} (h : id ≠ "") :
    Store.isDocumentName (documentName id) = true := by
  have hne : Utf8.encode id ≠ [] := fun hc => h (Utf8.encode_injective hc)
  rw [isDocumentName_iff, documentName_eq, List.reverse_append, List.length_append]
  have hpos := List.length_pos_iff.2 hne
  exact ⟨rfl, by simpa using hpos⟩

theorem isDocumentName_temporaryName (n : Nat) :
    Store.isDocumentName (temporaryName n) = false := by
  by_contra h
  obtain ⟨hafter, -⟩ := isDocumentName_iff.1 (by simpa using h)
  have hlast : (temporaryName n).getLast? = some 110 := by
    rw [← List.head?_reverse]
    cases hr : (temporaryName n).reverse with
    | nil => rw [hr] at hafter; cases hafter
    | cons b bs =>
      rw [hr, List.takeWhile_cons] at hafter
      split at hafter
      · rw [List.head?_cons, (List.cons.inj hafter).1]
      · cases hafter
  exact ne_temporaryName hlast (by decide) rfl

theorem get?_ofValues_iff {α : Type} {name : α → String} {vs : List α} {k : String} {v : α}
    (h : ∀ v ∈ vs, ∀ v' ∈ vs, name v = name v' → v = v') :
    (Index.ofValues name vs).get? k = some v ↔ v ∈ vs ∧ name v = k := by
  refine ⟨Index.mem_of_get?_ofValues, ?_⟩
  rintro ⟨hv, rfl⟩
  rw [Index.get?_ofValues]
  cases hfind : vs.reverse.find? (name · = name v) with
  | none =>
    rw [List.find?_eq_none] at hfind
    have := hfind v (List.mem_reverse.2 hv)
    simp at this
  | some v' =>
    have hv' := List.mem_reverse.1 (List.mem_of_find?_eq_some hfind)
    rw [h v' hv' v hv (by simpa using List.find?_some hfind)]

/-! ### Documents -/

variable {α : Type} {read : String → Option α} {fits : α → Bool} {f : Path} {d : Location}
  {kept : String → Option α} {fs fs' : FileSystem} {id : String} {x : α} {w content : Bytes}

/-- The document of a value: a file of that name that is read as the value, or not at all if it nests
too deep. -/
def Documented (read : String → Option α) (fits : α → Bool) (f : Path) (d : Location) (id : String)
    (x : α) (fs : FileSystem) : Prop :=
  Aims fs f d (documentName id) ∧ ∃ m c, fs.at (documentName id :: d) = some (.file m c) ∧
    (Entry.file m c).isReadable = true ∧
    (Utf8.decode? c).bind read = if fits x then some x else none

def Mute (read : String → Option α) (w : Bytes) (e : Entry) : Prop :=
  IsName w ∧ ∃ m c, e = .file m c ∧ (Utf8.decode? c).bind read = none

/-- A directory has the documents of what is kept, and no others that say anything. -/
structure Filed (read : String → Option α) (fits : α → Bool) (f : Path) (d : Location)
    (kept : String → Option α) (fs : FileSystem) : Prop where
  proper : ∀ id x, kept id = some x → Proper id
  stored : ∀ id x, kept id = some x → Documented read fits f d id x fs
  only : ∀ w e, fs.at (w :: d) = some e → Store.isDocumentName w = true →
    (∃ id x, kept id = some x ∧ w = documentName id) ∨ Mute read w e

theorem Documented.documentAt (h : Documented read fits f d id x fs) (hid : id ≠ "") :
    Store.documentAt read f fs (documentName id) = if fits x then some x else none := by
  obtain ⟨ha, m, c, hx, hr, hread⟩ := h
  have hfile := ha.read (by simp [hx])
  simp only [hx, hr, if_true] at hfile
  rw [Store.documentAt, if_pos (isDocumentName_documentName hid), hfile]
  exact hread

theorem isDocumentName_of_documentAt (hx : Store.documentAt read f fs w = some x) :
    Store.isDocumentName w = true := by
  by_contra hc
  rw [Store.documentAt, if_neg hc] at hx
  cases hx

theorem FileSystem.Leads.documentAt {m : Nat} (hlead : Leads fs f d) (hw : IsName w)
    (he : fs.at (w :: d) = some (.file m content)) (hx : Store.documentAt read f fs w = some x) :
    (Utf8.decode? content).bind read = some x := by
  rw [Store.documentAt, if_pos (isDocumentName_of_documentAt hx)] at hx
  rcases hlead.aims_or_dead hw with ha | hdead
  · rw [ha.read (by simp [he]), he] at hx
    by_cases hr : (Entry.file m content).isReadable = true
    · simpa [hr, Except.toOption] using hx
    · simp [hr, Except.toOption] at hx
  · obtain ⟨e, he, -⟩ := hdead.read
    rw [he] at hx
    cases hx

/-- What is loaded is what is kept and can be read. -/
theorem Filed.load (h : Filed read fits f d kept fs) (hlead : Leads fs f d)
    (hreadable : (fs.at d).any Entry.isReadable = true) (hfits : f.bytes.length < longestPath) :
    ∃ xs, (Store.loadAll read f).run fs = (.ok xs, fs) ∧
      ∀ x, x ∈ xs ↔ ∃ id, kept id = some x ∧ fits x = true := by
  have hlist : fs.list f = .ok (fs.children d) := by rw [hlead.list, if_pos hfits, if_pos hreadable]
  refine ⟨_, by rw [Store.loadAll_run, hlist], fun x => ?_⟩
  rw [List.mem_filterMap]
  constructor
  · rintro ⟨w, hw, hx⟩
    obtain ⟨e, he⟩ := Option.isSome_iff_exists.1 (mem_children.1 hw)
    rcases h.only w e he (isDocumentName_of_documentAt hx) with ⟨id, y, hy, rfl⟩ | ⟨hw, m, c, rfl, hmute⟩
    · rw [(h.stored id y hy).documentAt (h.proper id y hy).2] at hx
      split at hx
      · next hfit => exact ⟨id, Option.some.inj hx ▸ hy, Option.some.inj hx ▸ hfit⟩
      · cases hx
    · have hsays := hlead.documentAt hw he hx
      rw [hmute] at hsays
      cases hsays
  · rintro ⟨id, hid, hfit⟩
    have hdoc := h.stored id x hid
    refine ⟨documentName id, ?_, ?_⟩
    · obtain ⟨-, m, c, hx, -⟩ := hdoc
      exact mem_children.2 (by rw [hx]; rfl)
    · rw [hdoc.documentAt (h.proper id x hid).2, if_pos hfit]

theorem Filed.loaded {name : α → String} {xs : List α} (hname : ∀ id x, kept id = some x → name x = id)
    (h : ∀ x, x ∈ xs ↔ ∃ id, kept id = some x ∧ fits x = true) (id : String) :
    (Index.ofValues name xs).get? id = (kept id).filter fits := by
  have hunique : ∀ v ∈ xs, ∀ v' ∈ xs, name v = name v' → v = v' := by
    intro v hv v' hv' heq
    obtain ⟨i, hi, -⟩ := (h v).1 hv
    obtain ⟨j, hj, -⟩ := (h v').1 hv'
    rw [hname i v hi, hname j v' hj] at heq
    rw [heq, hj] at hi
    exact (Option.some.inj hi).symm
  ext x
  rw [get?_ofValues_iff hunique, h, Option.filter_eq_some_iff]
  constructor
  · rintro ⟨⟨j, hj, hfit⟩, rfl⟩
    rw [hname j x hj]
    exact ⟨hj, hfit⟩
  · rintro ⟨hx, hfit⟩
    exact ⟨⟨id, hx, hfit⟩, hname id x hx⟩

/-! ### Changes -/

theorem Documented.congr (h : Documented read fits f d id x fs) (hlead : Leads fs' f d)
    (hat : fs'.at (documentName id :: d) = fs.at (documentName id :: d)) :
    Documented read fits f d id x fs' := by
  obtain ⟨ha, m, c, hx, hrest⟩ := h
  exact ⟨ha.of_leads hlead, m, c, hat.trans hx, hrest⟩

/-- Changes of other files than documents do not matter. -/
theorem Filed.congr (h : Filed read fits f d kept fs) (hlead : Leads fs' f d)
    (hat : ∀ w, Store.isDocumentName w = true → fs'.at (w :: d) = fs.at (w :: d)) :
    Filed read fits f d kept fs' where
  proper := h.proper
  stored id x hx :=
    (h.stored id x hx).congr hlead (hat _ (isDocumentName_documentName (h.proper id x hx).2))
  only w e he hw := h.only w e (hat w hw ▸ he) hw

/-- A document is put in its place. -/
theorem Filed.put (h : Filed read fits f d kept fs) (hlead : Leads fs' f d) (hid : Proper id)
    (ha : Aims fs f d (documentName id))
    (hdoc : fs'.at (documentName id :: d) = some (.file 0o600 content))
    (hat : ∀ w, w ≠ documentName id → fs'.at (w :: d) = fs.at (w :: d))
    (hread : (Utf8.decode? content).bind read = if fits x then some x else none) :
    Filed read fits f d (fun j => if j = id then some x else kept j) fs' where
  proper j y hy := by
    split at hy
    · next heq => rw [heq]; exact hid
    · exact h.proper j y hy
  stored j y hy := by
    split at hy
    · next heq =>
      subst heq
      obtain rfl := Option.some.inj hy
      exact ⟨ha.of_leads hlead, _, _, hdoc, (by decide : Nat.testBit 0o600 8 = true), hread⟩
    · next hne => exact (h.stored j y hy).congr hlead (hat _ fun heq => hne (documentName_inj heq))
  only w e he hw := by
    by_cases heq : w = documentName id
    · exact .inl ⟨id, x, by simp, heq⟩
    · rw [hat w heq] at he
      refine (h.only w e he hw).imp_left ?_
      rintro ⟨j, y, hy, rfl⟩
      exact ⟨j, y, by rw [if_neg fun hc => heq (by rw [hc])]; exact hy, rfl⟩

theorem Filed.remove (h : Filed read fits f d kept fs) (hlead : Leads fs' f d)
    (hnone : fs'.at (documentName id :: d) = none)
    (hat : ∀ w, w ≠ documentName id → fs'.at (w :: d) = fs.at (w :: d)) :
    Filed read fits f d (fun j => if j = id then none else kept j) fs' where
  proper j y hy := by
    split at hy
    · cases hy
    · exact h.proper j y hy
  stored j y hy := by
    split at hy
    · cases hy
    · next hne => exact (h.stored j y hy).congr hlead (hat _ fun hc => hne (documentName_inj hc))
  only w e he hw := by
    have hne : w ≠ documentName id := fun hc => by rw [hc, hnone] at he; cases he
    rw [hat w hne] at he
    refine (h.only w e he hw).imp_left ?_
    rintro ⟨j, y, hy, rfl⟩
    exact ⟨j, y, by rw [if_neg fun hc => hne (by rw [hc])]; exact hy, rfl⟩

theorem Filed.legible (h : Filed read fits f d kept fs) :
    Filed read fits f d (fun id => (kept id).filter fits) fs where
  proper id x hx := h.proper id x (Option.filter_eq_some_iff.1 hx).1
  stored id x hx := h.stored id x (Option.filter_eq_some_iff.1 hx).1
  only w e he hw := by
    rcases h.only w e he hw with ⟨id, x, hx, rfl⟩ | hmute
    · by_cases hfit : fits x = true
      · exact .inl ⟨id, x, by simp [hx, hfit], rfl⟩
      · obtain ⟨-, m, c, hc, -, hread⟩ := h.stored id x hx
        rw [hc, Option.some.injEq] at he
        rw [if_neg hfit] at hread
        exact .inr ⟨isName_documentName (h.proper id x hx).1, m, c, he.symm, hread⟩
    · exact .inr hmute

/-! ### Opening -/

namespace Manager

variable {g : Grounds} {m : Manager} {root project : Path} {settings : Settings} {now : Instant}
  {kept : String → Option Transaction} {fs₀ : FileSystem}

theorem load_run {ts : List Transaction} {cs : List Checkpoint}
    (hmade : m.store.ensureDirectories.run fs₀ = (.ok (), fs))
    (hts : m.store.loadTransactions.run fs = (.ok ts, fs))
    (hcs : m.store.loadCheckpoints.run fs = (.ok cs, fs)) :
    m.load.run fs₀ = (.ok { m with
      history := Index.ofValues Transaction.id ts
      checkpoints := Index.ofValues Checkpoint.id cs }, fs) := by
  simp only [load, run_bind, hmade, hts, hcs, run_pure]

/-- What a store files can be loaded, and is found as far as it can be read. -/
theorem load_filed (hmade : m.store.ensureDirectories.run fs₀ = (.ok (), fs))
    (hk : Keeps g m.store fs)
    (hreadable : ∀ d ∈ g.folders, d ≠ g.backups → (fs.at d).any Entry.isReadable = true)
    (hfiled : Filed Transaction.ofText? Transaction.isReadable m.store.transactionsDirectory
      g.transactions kept fs)
    (hkeyed : ∀ id t, kept id = some t → t.id = id) :
    ∃ ts x, m.load.run fs₀ = (.ok x, fs) ∧
      x = { m with
        history := Index.ofValues Transaction.id ts
        checkpoints := Index.ofValues Checkpoint.id ((fs.children g.checkpoints).filterMap
          (Store.documentAt Checkpoint.ofText? m.store.checkpointsDirectory fs)) } ∧
      x.transaction? = fun id => (kept id).filter Transaction.isReadable := by
  have hin : ∀ d ∈ [g.transactions, g.checkpoints], d ∈ g.folders := by simp [Grounds.folders]
  have hfits := Store.fits_of_ensureDirectories hmade
  obtain ⟨ts, hts, hkept⟩ := hfiled.load hk.transactions
    (hreadable _ (hin _ (by simp)) hk.transactions_ne_backups) (hfits _ (by simp [Store.directories]))
  have hlist : fs.list m.store.checkpointsDirectory = .ok (fs.children g.checkpoints) := by
    rw [hk.checkpoints.list, if_pos (hfits _ (by simp [Store.directories])),
      if_pos (hreadable _ (hin _ (by simp)) hk.checkpoints_ne_backups)]
  have hcs : m.store.loadCheckpoints.run fs = (.ok ((fs.children g.checkpoints).filterMap
      (Store.documentAt Checkpoint.ofText? m.store.checkpointsDirectory fs)), fs) := by
    rw [Store.loadCheckpoints, Store.loadAll_run, hlist]
  exact ⟨ts, _, load_run hmade hts hcs, rfl,
    funext (Filed.loaded hkeyed hkept)⟩

theorem open?_run (now : Instant) (hproject : fs.currentDirectory.normalize project = root)
    (hevents : (EventLog.create? settings.eventCapacity).isSome) :
    ∃ events s, open? project settings now = some s ∧
      s.run fs = (fresh root settings events now).load.run fs := by
  obtain ⟨events, hevents⟩ := Option.isSome_iff_exists.1 hevents
  refine ⟨events, _, by rw [open?, hevents]; rfl, ?_⟩
  rw [run_bind, ← hproject]
  rfl

end Manager

end Retrace
