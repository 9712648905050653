import Retrace.Proofs.Accounting
import Retrace.Proofs.Filing

/-!
Stores that hold a book of transactions: each has its document, and those that are completed have
their backups (`Intact`). A single document or backup that is written or removed leaves the store with
the same book at every stage, or with the one that differs in that transaction
(`saveTransaction_intact`, `deleteTransaction_intact`).
-/
namespace Retrace

open FileSystem Retrace.Path Script

/-- Transactions by id. -/
abbrev Book := String → Option Transaction

namespace Book

/-- The book with a transaction in its place. -/
def put (b : Book) (t : Transaction) : Book := fun id => if id = t.id then some t else b id

def strike (b : Book) (id : String) : Book := fun j => if j = id then none else b j

/-- The transactions that can be read again from their documents. -/
def legible (b : Book) : Book := fun id => (b id).filter Transaction.isReadable

/-- The operations that need their backups: those of completed transactions, and others whose backups
are held for them. -/
def Needs (b : Book) (held : List Operation) (op : Operation) : Prop :=
  op.requiresBackup = true ∧
    (op ∈ held ∨ ∃ id t, b id = some t ∧ t.status = .completed ∧ op ∈ t.operations)

/-- Every transaction under its id, as a document can tell of it, and no id given to operations of two
of them. -/
structure Ordered (b : Book) (held : List Operation) : Prop where
  keyed : ∀ id t, b id = some t → t.id = id
  regular : ∀ id t, b id = some t → t.Regular
  unreverted : ∀ id t, b id = some t → t.status = .completed → t.rollbackTimestamp = none
  plain : ∀ id t, b id = some t → ∀ op ∈ t.operations, Plain op.id
  apart : ∀ i j t u, b i = some t → b j = some u → i ≠ j →
    ∀ op ∈ t.operations, ∀ op' ∈ u.operations, op.id ≠ op'.id
  held_plain : ∀ op ∈ held, Plain op.id
  held_apart : ∀ id t, b id = some t → ∀ op ∈ t.operations, ∀ op' ∈ held, op.id ≠ op'.id

variable {b : Book} {held held' : List Operation} {t u : Transaction} {id : String} {op : Operation}

theorem put_eq_some : b.put t id = some u ↔ id = t.id ∧ u = t ∨ id ≠ t.id ∧ b id = some u := by
  rw [put]
  split
  · next h => simp [h, eq_comm]
  · next h => simp [h]

theorem put_self (h : b t.id = some t) : b.put t = b := by
  funext id
  rw [put]
  split
  · next hid => rw [hid, h]
  · rfl

theorem strike_self (h : b id = none) : b.strike id = b := by
  funext j
  rw [strike]
  split
  · next hj => rw [hj, h]
  · rfl

theorem eq_some_of_strike {j : String} (h : b.strike id j = some u) : j ≠ id ∧ b j = some u := by
  rw [strike] at h
  split at h
  · cases h
  · next hne => exact ⟨hne, h⟩

theorem eq_some_of_legible (h : b.legible id = some t) : b id = some t :=
  (Option.filter_eq_some_iff.1 h).1

theorem Ordered.sub {b' : Book} (h : Ordered b held) (hsub : ∀ id t, b' id = some t → b id = some t) :
    Ordered b' held where
  keyed j t ht := h.keyed j t (hsub j t ht)
  regular j t ht := h.regular j t (hsub j t ht)
  unreverted j t ht := h.unreverted j t (hsub j t ht)
  plain j t ht := h.plain j t (hsub j t ht)
  apart i j t u ht hu := h.apart i j t u (hsub i t ht) (hsub j u hu)
  held_plain := h.held_plain
  held_apart j t ht := h.held_apart j t (hsub j t ht)

theorem Needs.of_sub {b' : Book} (h : Needs b' held op) (hsub : ∀ id t, b' id = some t → b id = some t) :
    Needs b held op :=
  ⟨h.1, h.2.imp_right fun ⟨j, t, ht, hs, hop⟩ => ⟨j, t, hsub j t ht, hs, hop⟩⟩

theorem Ordered.mono (h : Ordered b held) (hsub : held' ⊆ held) : Ordered b held' where
  keyed := h.keyed
  regular := h.regular
  unreverted := h.unreverted
  plain := h.plain
  apart := h.apart
  held_plain op hop := h.held_plain op (hsub hop)
  held_apart id t ht op hop op' hop' := h.held_apart id t ht op hop op' (hsub hop')

theorem Ordered.hold (h : Ordered b held) (hop : Plain op.id)
    (hnew : ∀ id t, b id = some t → ∀ op' ∈ t.operations, op'.id ≠ op.id) :
    Ordered b (held ++ [op]) :=
  { h with
    held_plain := fun op' hop' => by
      rcases List.mem_append.1 hop' with hop' | hop'
      · exact h.held_plain op' hop'
      · rw [List.mem_singleton.1 hop']; exact hop
    held_apart := fun id t ht op₁ hop₁ op' hop' => by
      rcases List.mem_append.1 hop' with hop' | hop'
      · exact h.held_apart id t ht op₁ hop₁ op' hop'
      · rw [List.mem_singleton.1 hop']; exact hnew id t ht op₁ hop₁ }

theorem Needs.of_put (h : (b.put t).Needs [] op) : b.Needs t.operations op := by
  obtain ⟨hreq, hop | ⟨id, u, hu, hs, hop⟩⟩ := h
  · cases hop
  · refine ⟨hreq, ?_⟩
    rcases put_eq_some.1 hu with ⟨-, rfl⟩ | ⟨-, hu⟩
    · exact .inl hop
    · exact .inr ⟨id, u, hu, hs, hop⟩

/-- A transaction whose operations are those of no other one comes to its place. -/
theorem Ordered.put (h : Ordered b held) (hsub : held' ⊆ held) (ht : t.Regular)
    (hnew : t.status = .completed → t.rollbackTimestamp = none)
    (hplain : ∀ op ∈ t.operations, Plain op.id)
    (happart : ∀ id u, b id = some u → id ≠ t.id →
      ∀ op ∈ t.operations, ∀ op' ∈ u.operations, op.id ≠ op'.id)
    (hheld : ∀ op ∈ t.operations, ∀ op' ∈ held', op.id ≠ op'.id) : Ordered (b.put t) held' where
  keyed id u hu := by
    rcases put_eq_some.1 hu with ⟨rfl, rfl⟩ | ⟨-, hu⟩
    · rfl
    · exact h.keyed id u hu
  regular id u hu := by
    rcases put_eq_some.1 hu with ⟨-, rfl⟩ | ⟨-, hu⟩
    · exact ht
    · exact h.regular id u hu
  unreverted id u hu := by
    rcases put_eq_some.1 hu with ⟨-, rfl⟩ | ⟨-, hu⟩
    · exact hnew
    · exact h.unreverted id u hu
  plain id u hu := by
    rcases put_eq_some.1 hu with ⟨-, rfl⟩ | ⟨-, hu⟩
    · exact hplain
    · exact h.plain id u hu
  apart i j u v hu hv hne op hop op' hop' := by
    rcases put_eq_some.1 hu with ⟨rfl, rfl⟩ | ⟨hi, hu'⟩ <;>
      rcases put_eq_some.1 hv with ⟨rfl, rfl⟩ | ⟨hj, hv'⟩
    · exact absurd rfl hne
    · exact happart j v hv' hj op hop op' hop'
    · exact (happart i u hu' hi op' hop' op hop).symm
    · exact h.apart i j u v hu' hv' hne op hop op' hop'
  held_plain op hop := h.held_plain op (hsub hop)
  held_apart id u hu op hop op' hop' := by
    rcases put_eq_some.1 hu with ⟨-, rfl⟩ | ⟨-, hu⟩
    · exact hheld op hop op' hop'
    · exact h.held_apart id u hu op hop op' (hsub hop')

end Book

/-- The store holds the book: there is a document for each transaction and no other one that can be
read, and the backups that are needed are there. Its directories can be read, and no checkpoint in it
names a transaction twice. -/
structure Intact (g : Grounds) (s : Store) (b : Book) (held : List Operation) (fs : FileSystem) :
    Prop where
  keeps : Keeps g s fs
  fits : s.Fits
  readable : ∀ d ∈ g.folders, d ≠ g.backups → (fs.at d).any Entry.isReadable = true
  ordered : b.Ordered held
  filed : Filed Transaction.ofText? Transaction.isReadable s.transactionsDirectory g.transactions b fs
  backed : ∀ op, b.Needs held op → Manager.BackedUp g s fs op
  chosen : ∀ w m content, fs.at (w :: g.checkpoints) = some (.file m content) →
    Store.isDocumentName w = true → IsName w ∧
      ∀ c, (Utf8.decode? content).bind Checkpoint.ofText? = some c →
        c.transactionIds.Nodup ∧ Plain c.id

namespace Intact

variable {g : Grounds} {s : Store} {b : Book} {held held' : List Operation} {fs fs' : FileSystem}
  {t : Transaction} {id : String} {d : Location} {w : Bytes} {o : Option Entry} {text : String}

/-- Changes of other files than documents and needed backups do not matter. -/
theorem congr (h : Intact g s b held fs) (hk : Keeps g s fs')
    (hfolders : ∀ d ∈ g.folders, fs'.at d = fs.at d)
    (hdocuments : ∀ d ∈ g.folders, d ≠ g.backups → ∀ w, Store.isDocumentName w = true →
      fs'.at (w :: d) = fs.at (w :: d))
    (hbackups : ∀ op, b.Needs held op →
      fs'.at (backupName op.id :: g.backups) = fs.at (backupName op.id :: g.backups)) :
    Intact g s b held fs' where
  keeps := hk
  fits := h.fits
  readable d hd hne := by rw [hfolders d hd]; exact h.readable d hd hne
  ordered := h.ordered
  filed := h.filed.congr hk.transactions
    (hdocuments _ (by simp [Grounds.folders]) hk.transactions_ne_backups)
  backed op hop := by
    obtain ⟨c, hc, hsum, ha⟩ := h.backed op hop
    exact ⟨c, (hbackups op hop).trans hc, hsum, ha.of_leads hk.backups⟩
  chosen w m content hc hw := by
    rw [hdocuments _ (by simp [Grounds.folders]) hk.checkpoints_ne_backups w hw] at hc
    exact h.chosen w m content hc hw

theorem untouched (h : Intact g s b held fs) (hu : Untouched g s fs fs') : Intact g s b held fs' :=
  h.congr hu.keeps hu.folders (fun _ hd _ w _ => hu.at_eq _ (Grounds.within_cons hd w))
    fun _ _ => hu.at_eq _ (Grounds.within_cons (by simp [Grounds.folders]) _)

theorem mono (h : Intact g s b held fs) (hsub : held' ⊆ held) : Intact g s b held' fs where
  keeps := h.keeps
  fits := h.fits
  readable := h.readable
  ordered := h.ordered.mono hsub
  filed := h.filed
  backed op hop := h.backed op ⟨hop.1, hop.2.imp_left fun hm => hsub hm⟩
  chosen := h.chosen

theorem hold {op : Operation} (h : Intact g s b held fs) (hop : Plain op.id)
    (hnew : ∀ id t, b id = some t → ∀ op' ∈ t.operations, op'.id ≠ op.id)
    (hbacked : op.requiresBackup = true → Manager.BackedUp g s fs op) :
    Intact g s b (held ++ [op]) fs where
  keeps := h.keeps
  fits := h.fits
  readable := h.readable
  ordered := h.ordered.hold hop hnew
  filed := h.filed
  backed op' hneeds := by
    rcases hneeds.2 with hheld | hkept
    · rcases List.mem_append.1 hheld with hheld | hheld
      · exact h.backed op' ⟨hneeds.1, .inl hheld⟩
      · obtain rfl := List.mem_singleton.1 hheld
        exact hbacked hneeds.1
    · exact h.backed op' ⟨hneeds.1, .inr hkept⟩
  chosen := h.chosen

theorem folders_edit (h : Intact g s b held fs) (hd : d ∈ g.folders) (he : Edit fs (w :: d) o fs') :
    ∀ k ∈ g.folders, fs'.at k = fs.at k := fun _ hk =>
  he.at_of_ne fun heq => h.keeps.folder_not_within hk (heq ▸ Grounds.within_cons hd w)

theorem edit (h : Intact g s b held fs) (hd : d ∈ g.folders) (ho : ∀ e ∈ o, ∃ m c, e = .file m c)
    (he : Edit fs (w :: d) o fs') (hdocument : d ≠ g.backups → Store.isDocumentName w = false)
    (hbackup : d = g.backups → ∀ op, b.Needs held op → w ≠ backupName op.id) :
    Intact g s b held fs' := by
  refine h.congr ((h.keeps.tended_edit hd ho he).keeps h.keeps) (h.folders_edit hd he)
    (fun k _ hne v hv => he.at_of_ne fun heq => ?_) fun op hop => he.at_of_ne fun heq => ?_
  · obtain ⟨rfl, rfl⟩ := List.cons.inj heq
    rw [hdocument hne] at hv
    cases hv
  · obtain ⟨rfl, rfl⟩ := List.cons.inj heq
    exact hbackup rfl op hop rfl

theorem littered (h : Intact g s b held fs) (hd : d ∈ g.folders) (hl : Files.Littered fs d fs') :
    Intact g s b held fs' := by
  obtain ⟨k, o, -, ho, he⟩ := hl
  exact h.edit hd (fun e he => by obtain ⟨c, rfl⟩ := ho e he; exact ⟨_, c, rfl⟩) he
    (fun _ => isDocumentName_temporaryName k) fun _ op _ => (backupName_ne_temporary op.id k).symm

theorem shed {names : List Bytes} (h : Intact g s b held fs) (hs : Shed g.backups names fs fs')
    (hnames : ∀ op, b.Needs held op → backupName op.id ∉ names) : Intact g s b held fs' := by
  have hd : g.backups ∈ g.folders := by simp [Grounds.folders]
  have hat : ∀ k, (∀ w ∈ names, k ≠ w :: g.backups) → fs'.at k = fs.at k := by
    intro k hk
    refine (hs.at_eq k).resolve_right ?_
    rintro ⟨-, w, hw, heq⟩
    exact hk w hw heq
  refine h.congr ((hs.tended h.keeps hd).keeps h.keeps) (fun k hk => hat k fun w _ heq => ?_)
    (fun k _ hne v _ => hat _ fun w _ heq => hne (List.cons.inj heq).2)
    fun op hop => hat _ fun w hw heq => hnames op hop ((List.cons.inj heq).1 ▸ hw)
  exact h.keeps.folder_not_within hk (heq ▸ Grounds.within_cons hd w)

/-- The document of a transaction is put in its place. -/
theorem put (h : Intact g s b held fs)
    (he : Edit fs (documentName t.id :: g.transactions) (some (.file 0o600 (Utf8.encode text))) fs')
    (ha : Aims fs s.transactionsDirectory g.transactions (documentName t.id))
    (htext : t.toText? = some text) (hid : Proper t.id) (ho : (b.put t).Ordered held')
    (hneeds : ∀ op, (b.put t).Needs held' op → Manager.BackedUp g s fs op) :
    Intact g s (b.put t) held' fs' := by
  have hd : g.transactions ∈ g.folders := by simp [Grounds.folders]
  have hk := (h.keeps.tended_edit hd (by simp) he).keeps h.keeps
  have hregular := ho.regular t.id t (by simp [Book.put])
  refine
    { keeps := hk, fits := h.fits, ordered := ho
      readable := fun k hk hne => by rw [h.folders_edit hd he k hk]; exact h.readable k hk hne
      filed := h.filed.put hk.transactions hid ha he.at_self
        (fun w hw => he.at_of_ne fun heq => hw (List.cons.inj heq).1) ?_
      backed := fun op hop => ?_
      chosen := fun v m content hc hv => ?_ }
  · rw [Utf8.decode?_encode, Option.bind_some, Transaction.ofText?_toText? hregular htext]
  · obtain ⟨c, hc, hsum, ha⟩ := hneeds op hop
    refine ⟨c, ?_, hsum, ha.of_leads hk.backups⟩
    rw [he.at_of_ne fun heq => h.keeps.transactions_ne_backups (List.cons.inj heq).2.symm]
    exact hc
  · rw [he.at_of_ne fun heq => h.keeps.transactions_ne_checkpoints (List.cons.inj heq).2.symm] at hc
    exact h.chosen v m content hc hv

theorem strike (h : Intact g s b held fs) (hk : Keeps g s fs')
    (hnone : fs'.at (documentName id :: g.transactions) = none)
    (hat : ∀ k, k ≠ documentName id :: g.transactions → fs'.at k = fs.at k) :
    Intact g s (b.strike id) held fs' where
  keeps := hk
  fits := h.fits
  readable d hd hne := by
    rw [hat d fun heq => h.keeps.folder_not_within hd
      (heq ▸ Grounds.within_cons (by simp [Grounds.folders]) _)]
    exact h.readable d hd hne
  ordered := h.ordered.sub fun _ _ ht => (Book.eq_some_of_strike ht).2
  filed := h.filed.remove hk.transactions hnone fun w hw => hat _ fun heq => hw (List.cons.inj heq).1
  backed op hop := by
    obtain ⟨c, hc, hsum, ha⟩ := h.backed op (hop.of_sub fun _ _ ht => (Book.eq_some_of_strike ht).2)
    refine ⟨c, ?_, hsum, ha.of_leads hk.backups⟩
    rw [hat _ fun heq => h.keeps.transactions_ne_backups (List.cons.inj heq).2.symm]
    exact hc
  chosen w m content hc hw := by
    rw [hat _ fun heq => h.keeps.transactions_ne_checkpoints (List.cons.inj heq).2.symm] at hc
    exact h.chosen w m content hc hw

theorem legible (h : Intact g s b held fs) : Intact g s b.legible held fs where
  keeps := h.keeps
  fits := h.fits
  readable := h.readable
  ordered := h.ordered.sub fun _ _ => Book.eq_some_of_legible
  filed := h.filed.legible
  backed op hop := h.backed op (hop.of_sub fun _ _ => Book.eq_some_of_legible)
  chosen := h.chosen

/-- The document of a checkpoint is removed, or put in its place if it names no transaction twice. -/
theorem choose (h : Intact g s b held fs) (he : Edit fs (w :: g.checkpoints) o fs')
    (hw : IsName w) (ho : ∀ e ∈ o, ∃ m c, e = .file m c)
    (hc : ∀ m content c, o = some (.file m content) →
      (Utf8.decode? content).bind Checkpoint.ofText? = some c →
      c.transactionIds.Nodup ∧ Plain c.id) :
    Intact g s b held fs' := by
  have hd : g.checkpoints ∈ g.folders := by simp [Grounds.folders]
  have hk := (h.keeps.tended_edit hd ho he).keeps h.keeps
  refine
    { keeps := hk, fits := h.fits, ordered := h.ordered
      readable := fun k hk hne => by rw [h.folders_edit hd he k hk]; exact h.readable k hk hne
      filed := h.filed.congr hk.transactions fun w _ => he.at_of_ne fun heq =>
        h.keeps.transactions_ne_checkpoints (List.cons.inj heq).2
      backed := fun op hop => ?_
      chosen := fun v m content hx hv => ?_ }
  · obtain ⟨c, hc, hsum, ha⟩ := h.backed op hop
    refine ⟨c, ?_, hsum, ha.of_leads hk.backups⟩
    rw [he.at_of_ne fun heq => h.keeps.checkpoints_ne_backups (List.cons.inj heq).2.symm]
    exact hc
  · rw [he.at_eq] at hx
    split at hx
    · next heq =>
      rw [(List.cons.inj heq).1]
      exact ⟨hw, fun c => hc m content c hx⟩
    · exact h.chosen v m content hx hv

end Intact

/-! ### Documents and backups -/

variable {g : Grounds} {s : Store} {b : Book} {held held' : List Operation} {fs : FileSystem}
  {t : Transaction} {id : String} {content : Bytes}

/-- While a transaction is written the store holds the old book or, if all goes well, the new one. -/
theorem saveTransaction_intact (h : Intact g s b held fs) (hid : Proper t.id)
    (ho : (b.put t).Ordered held')
    (hneeds : ∀ op, (b.put t).Needs held' op → Manager.BackedUp g s fs op) :
    let out := (s.saveTransaction t).run fs
    (∀ k ∈ (s.saveTransaction t).stages fs,
      Intact g s b held k ∨ out.1 = .ok () ∧ Intact g s (b.put t) held' k) ∧
    (out.1 = .ok () ∧ Intact g s (b.put t) held' out.2 ∨
      (∃ e, out.1 = .error e) ∧ Intact g s b held out.2) := by
  intro out
  have hd : g.transactions ∈ g.folders := by simp [Grounds.folders]
  cases htext : t.toText? with
  | none =>
    have hstay : ∀ k ∈ (s.saveTransaction t).stages fs, Intact g s b held k := by
      intro k hk
      rw [Store.saveTransaction, htext] at hk
      rw [List.mem_singleton.1 hk]
      exact h
    refine ⟨fun k hk => .inl (hstay k hk), .inr ⟨?_, hstay _ (mem_stages_run _ fs)⟩⟩
    simp only [out, Store.saveTransaction, htext]
    exact ⟨_, rfl⟩
  | some text =>
    have hmeets := saveTransaction_meets h.keeps hid.1 htext
    have hput : ∀ k, Edit fs (documentName t.id :: g.transactions)
        (some (.file 0o600 (Utf8.encode text))) k →
        Aims fs s.transactionsDirectory g.transactions (documentName t.id) →
        Intact g s (b.put t) held' k := fun k he ha => h.put he ha htext hid ho hneeds
    rcases hmeets.result with ⟨hok, he, -, ha⟩ | ⟨herr, hl, hbad⟩
    · refine ⟨fun k hk => ?_, .inl ⟨hok, hput _ he ha⟩⟩
      rcases hmeets.stages k hk with hl | ⟨he, -, ha⟩
      · exact .inl (h.littered hd hl)
      · exact .inr ⟨hok, hput k he ha⟩
    · refine ⟨fun k hk => .inl ?_, .inr ⟨herr, h.littered hd hl⟩⟩
      rcases hmeets.stages k hk with hl | ⟨-, hgood⟩
      · exact h.littered hd hl
      · exact absurd hgood hbad

/-- While a transaction is removed the store holds the old book or, if all goes well, the one without
it. -/
theorem deleteTransaction_intact (h : Intact g s b held fs) (hid : Plain id) :
    let out := (s.deleteTransaction id).run fs
    (∀ k ∈ (s.deleteTransaction id).stages fs,
      Intact g s b held k ∨ (∃ found, out.1 = .ok found) ∧ Intact g s (b.strike id) held k) ∧
    ((∃ found, out.1 = .ok found) ∧ Intact g s (b.strike id) held out.2 ∨
      (∃ e, out.1 = .error e) ∧ Intact g s b held out.2) := by
  intro out
  have hend : (∃ found, out.1 = .ok found) ∧ Intact g s (b.strike id) held out.2 ∨
      (∃ e, out.1 = .error e) ∧ Intact g s b held out.2 := by
    rcases (deleteTransaction_meets h.keeps hid).result with ⟨hok, he⟩ | ⟨hok, hfs, hnone⟩ | ⟨herr, hfs⟩
    · exact .inl ⟨⟨_, hok⟩, h.strike ((h.keeps.tended_edit (by simp [Grounds.folders]) (by simp)
        he).keeps h.keeps) he.at_self fun _ => he.at_of_ne⟩
    · refine .inl ⟨⟨_, hok⟩, ?_⟩
      rw [show out.2 = fs from hfs]
      exact h.strike h.keeps hnone fun _ _ => rfl
    · refine .inr ⟨herr, ?_⟩
      rw [show out.2 = fs from hfs]
      exact h
  refine ⟨fun k hk => ?_, hend⟩
  rcases Files.stages_removeIfPresent _ fs k hk with rfl | hlast
  · exact .inl h
  · rw [show k = out.2 from hlast]
    exact hend.elim .inr fun hkept => .inl hkept.2

theorem removeFor_meets_intact (h : Intact g s b held fs) (hplain : ∀ op ∈ t.operations, Plain op.id)
    (hfree : ∀ op, b.Needs held op → ∀ op' ∈ t.operations, op.id ≠ op'.id) :
    Meets (Backups.removeFor ⟨s.backupsDirectory⟩ t) fs (Intact g s b held)
      fun _ => Intact g s b held := by
  have hshed : ∀ k, Shed g.backups (t.operations.map fun op => backupName op.id) fs k →
      Intact g s b held k := by
    intro k hs
    refine h.shed hs fun op hop hmem => ?_
    obtain ⟨op', hop', heq⟩ := List.mem_map.1 hmem
    exact hfree op hop op' hop' (backupName_inj heq).symm
  exact (removeEach_meets h.keeps hplain).mono hshed fun _ k _ => hshed k

theorem removeBackups_meets_intact {ids : List String} (h : Intact g s b held fs)
    (hplain : ∀ i ∈ ids, Plain i) (hfree : ∀ op, b.Needs held op → op.id ∉ ids) :
    Meets (Manager.removeBackups ⟨s.backupsDirectory⟩ ids) fs (Intact g s b held)
      fun _ => Intact g s b held := by
  have hshed : ∀ k, Shed g.backups (ids.map backupName) fs k → Intact g s b held k := by
    intro k hs
    refine h.shed hs fun op hop hmem => ?_
    obtain ⟨i, hi, heq⟩ := List.mem_map.1 hmem
    exact hfree op hop (backupName_inj heq ▸ hi)
  exact (removeBackups_meets h.keeps hplain).mono hshed fun _ k _ => hshed k

theorem write_meets_intact (h : Intact g s b held fs) (hid : Plain id)
    (hfree : ∀ op, b.Needs held op → op.id ≠ id) :
    Meets (Backups.write ⟨s.backupsDirectory⟩ id content) fs (Intact g s b held)
      fun r k => Intact g s b held k ∧ (r = .ok () →
        k.at (backupName id :: g.backups) = some (.file 0o600 content) ∧
          Aims k s.backupsDirectory g.backups (backupName id)) := by
  have hd : g.backups ∈ g.folders := by simp [Grounds.folders]
  have hnew : ∀ k, Edit fs (backupName id :: g.backups) (some (.file 0o600 content)) k →
      Intact g s b held k := fun k he =>
    h.edit hd (by simp) he (fun hne => absurd rfl hne)
      fun _ op hop heq => hfree op hop (backupName_inj heq).symm
  refine (write_meets h.keeps hid).mono ?_ ?_
  · rintro k (hl | ⟨he, -⟩)
    · exact h.littered hd hl
    · exact hnew k he
  · rintro r k - (⟨-, he, -, ha⟩ | ⟨⟨e, rfl⟩, hl, -⟩)
    · exact ⟨hnew k he, fun _ => ⟨he.at_self, ha.of_leads (hnew k he).keeps.backups⟩⟩
    · exact ⟨h.littered hd hl, fun hc => by cases hc⟩

theorem saveCheckpoint_meets_intact {c : Checkpoint} (h : Intact g s b held fs) (hid : Plain c.id)
    (hc : c.Regular) (hnodup : c.transactionIds.Nodup) :
    Meets (s.saveCheckpoint c) fs (Intact g s b held) fun _ => Intact g s b held := by
  have hd : g.checkpoints ∈ g.folders := by simp [Grounds.folders]
  have hmeets : Meets (s.saveCheckpoint c) fs
      (Files.Writing fs s.checkpointsDirectory g.checkpoints (documentName c.id)
        (Utf8.encode c.toText)) _ :=
    save_meets h.keeps hd h.keeps.firm_checkpoints (isName_documentName hid)
  have hstage : ∀ k, Files.Writing fs s.checkpointsDirectory g.checkpoints (documentName c.id)
      (Utf8.encode c.toText) k → Intact g s b held k := by
    rintro k (hl | ⟨he, -⟩)
    · exact h.littered hd hl
    · refine h.choose he (isName_documentName hid) (by simp) fun m content x hx hread => ?_
      obtain ⟨-, rfl⟩ := Entry.file.inj (Option.some.inj hx)
      rw [Utf8.decode?_encode, Option.bind_some, Checkpoint.ofText?_toText hc] at hread
      split at hread
      · exact Option.some.inj hread ▸ ⟨hnodup, hid⟩
      · cases hread
  exact hmeets.mono hstage fun _ k hk _ => hstage k hk

theorem deleteCheckpoint_meets_intact (h : Intact g s b held fs) (hid : Plain id) :
    Meets (s.deleteCheckpoint id) fs (Intact g s b held) fun _ => Intact g s b held := by
  have hstage : ∀ k, k = fs ∨ Edit fs (documentName id :: g.checkpoints) none k →
      Intact g s b held k := by
    rintro k (rfl | he)
    · exact h
    · exact h.choose he (isName_documentName hid) (by simp) nofun
  exact (Files.removeIfPresent_meets h.keeps.sound h.keeps.checkpoints
    (isName_documentName hid)).mono hstage fun _ k hk _ => hstage k hk

end Retrace
