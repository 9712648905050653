import Retrace.Proofs.Atomic
import Retrace.Proofs.Pruning
import Retrace.Proofs.RoundTrip

/-!
Requests that fail. One that should have recorded something leaves all that is kept, in memory and on
disk (`Request.Fails.undone`), and the transaction under way with its operations; a later attempt to
complete it that goes well stores just these (`failure_leaves_state`).
-/
namespace Retrace

open FileSystem Script
open Rollback (Options Result Pending)

variable {m m' m'' : Manager} {fs fs' : FileSystem} {t : Transaction} {r : Request} {e : Error}
  {now : Instant} {options : Options}

namespace Request

/-- A request to record something is answered with an error. -/
def Fails (m : Manager) (fs : FileSystem) : Request → Prop
  | add id now kind p details => ((m.add id now kind p details).run fs).1.1.isOk = false
  | complete => (m.complete.run fs).1.1.isOk = false
  | abort => (m.abort.run fs).1.1.isOk = false
  | createCheckpoint id now name description transactionIds metadata =>
    ((m.createCheckpoint id now name description transactionIds metadata).run fs).1.1.isOk = false
  | _ => False

/-- A request that neither adds to the transaction under way nor ends it. -/
def Holds (m : Manager) (fs : FileSystem) (r : Request) : Prop :=
  match r with
  | add .. | complete | abort => r.Fails m fs
  | _ => True

end Request

/-! ### Documents that could not be written -/

theorem Files.Written.widened {p : Path} {content : Bytes} {e : OsError}
    (h : Files.Written fs p content fs' (.error e)) : Widened fs fs' := by
  cases h with
  | failed target made => exact made.mono fun _ _ h => h.2

namespace Store

variable {s : Store} {entity : Entity} {id : String} {p : Path} {text : Option String}

theorem save_written (hs : fs.Sound) (hp : p.isAbsolute = true) {x : Except Error Unit}
    (h : (save entity id p text).run fs = (x, fs')) :
    (∃ e, x = .error e) ∧ Widened fs fs' ∨
      x = .ok () ∧ ∃ content, text = some content ∧
        Files.Written fs p (Utf8.encode content) fs' (.ok ()) := by
  cases text with
  | none =>
    obtain ⟨rfl, rfl⟩ := Prod.mk.inj h
    exact .inl ⟨⟨_, rfl⟩, .refl hs⟩
  | some content =>
    have hwritten := Files.writeAtomic_written hs hp (Utf8.encode content)
    simp only [save, run_bind] at h
    generalize (Files.writeAtomic p (Utf8.encode content)).run.run fs = out at h hwritten
    obtain ⟨y, fs₁⟩ := out
    cases y with
    | ok u =>
      obtain ⟨rfl, rfl⟩ := Prod.mk.inj h
      exact .inr ⟨rfl, content, rfl, hwritten⟩
    | error e =>
      obtain ⟨rfl, rfl⟩ := Prod.mk.inj h
      exact .inl ⟨⟨_, rfl⟩, hwritten.widened⟩

theorem saveTransaction_written (hs : fs.Sound) (hroot : s.root.isAbsolute = true)
    {x : Except Error Unit} (h : (s.saveTransaction t).run fs = (x, fs')) :
    (∃ e, x = .error e) ∧ Widened fs fs' ∨
      x = .ok () ∧ ∃ content, t.toText? = some content ∧
        Files.Written fs (s.transactionPath t.id) (Utf8.encode content) fs' (.ok ()) :=
  save_written hs (Path.isAbsolute_join (Path.isAbsolute_join hroot)) h

theorem saveCheckpoint_written {c : Checkpoint} (hs : fs.Sound) (hroot : s.root.isAbsolute = true)
    {x : Except Error Unit} (h : (s.saveCheckpoint c).run fs = (x, fs')) :
    (∃ e, x = .error e) ∧ Widened fs fs' ∨
      x = .ok () ∧ ∃ content, some c.toText = some content ∧
        Files.Written fs (s.checkpointPath c.id) (Utf8.encode content) fs' (.ok ()) :=
  save_written hs (Path.isAbsolute_join (Path.isAbsolute_join hroot)) h

end Store

namespace Manager

def Alongside (m m' : Manager) : Prop :=
  m' = { m with
    events := m'.events, counters := m'.counters, history := m'.history, checkpoints := m'.checkpoints }

theorem Alongside.refl (m : Manager) : Alongside m m := rfl

theorem Alongside.trans (h : Alongside m m') (h' : Alongside m' m'') : Alongside m m'' := by
  rw [Alongside, h', h]

theorem Fewer.alongside (h : Fewer m m') : Alongside m m' := by rw [Alongside, h.others]

theorem settle_alongside (m : Manager) (options : Options) (r : Result) :
    Alongside m (m.settle options r).2 := rfl

theorem markRolledBack_alongside (m : Manager) (now : Instant) (id : String) (fs : FileSystem) :
    Alongside m ((m.markRolledBack now id).run fs).1.2 := by
  rw [markRolledBack]
  split
  · exact .refl m
  · rw [run_bind]
    split <;> exact rfl

theorem finalize_alongside (m : Manager) (now : Instant) (options : Options) (p : Pending)
    (fs : FileSystem) : Alongside m ((m.finalize now options p).run fs).1.2 := by
  rw [finalize]
  split
  · exact settle_alongside m options _
  · rw [run_bind]
    have hmark := markRolledBack_alongside m now p.result.transactionId fs
    generalize (m.markRolledBack now p.result.transactionId).run fs = out at hmark
    obtain ⟨⟨x, m₁⟩, fs₁⟩ := out
    cases x with
    | error e => exact hmark.trans (settle_alongside m₁ options _)
    | ok u =>
      dsimp only
      split
      · exact hmark.trans (settle_alongside m₁ options _)
      · rw [run_bind]
        exact hmark.trans (settle_alongside m₁ options _)

theorem rollback_alongside (m : Manager) (now : Instant) (options : Options) (id : String)
    (fs : FileSystem) : Alongside m ((m.rollback now options id).run fs).1.2 := by
  rw [rollback]
  dsimp only
  split
  · rfl
  · next t _ =>
    rw [run_bind]
    have hfirst : Alongside m (m.attempted.publish (.rollbackStarted t.id)) := rfl
    exact hfirst.trans (finalize_alongside _ _ _ _ _)

theorem rollbackInTurn_alongside (m : Manager) (now : Instant) (options : Options)
    (ts : List Transaction) (fs : FileSystem) :
    Alongside m ((m.rollbackInTurn now options ts).run fs).1.2 := by
  induction ts generalizing m fs with
  | nil => exact .refl m
  | cons t ts ih =>
    have hfirst := rollback_alongside m now options t.id fs
    rw [rollbackInTurn, run_bind]
    dsimp only
    split
    · exact hfirst
    · rw [run_bind]
      exact hfirst.trans (ih _ _)

theorem finalizeEach_alongside (m : Manager) (now : Instant) (options : Options) (ps : List Pending)
    (fs : FileSystem) : Alongside m ((m.finalizeEach now options ps).run fs).1.2 := by
  induction ps generalizing m fs with
  | nil => exact .refl m
  | cons p ps ih =>
    rw [finalizeEach, run_bind, run_bind]
    exact (finalize_alongside m now options p fs).trans (ih _ _)

theorem rollbackCheckpoint_alongside (m : Manager) (now : Instant) (options : Options) (id : String)
    (fs : FileSystem) : Alongside m ((m.rollbackCheckpoint now options id).run fs).1.2 := by
  rw [rollbackCheckpoint]
  split
  · exact .refl m
  · next c _ =>
    split
    · rw [run_bind, rollbackTogether, run_bind]
      have hcalled := announce_eq m (m.membersOf c)
      generalize (m.membersOf c).foldl _ m = m₁ at hcalled
      have hfirst : Alongside m m₁ := by rw [Alongside, hcalled]
      exact hfirst.trans (finalizeEach_alongside _ _ _ _ _)
    · rw [run_bind]
      exact rollbackInTurn_alongside m now options _ fs

/-! ### Requests that fail -/

variable {id : String}

theorem isAbsolute_pathFor (hroot : m.store.root.isAbsolute = true) (id : String) :
    (m.backups.pathFor id).isAbsolute = true := Path.isAbsolute_join (Path.isAbsolute_join hroot)

theorem backUp_error {op : Operation} {previous : Option Bytes} (hs : fs.Sound)
    (hroot : m.store.root.isAbsolute = true) (h : (m.backUp op previous).run fs = (.error e, fs')) :
    Widened fs fs' := by
  cases previous with
  | none => cases (Prod.mk.inj h).1
  | some b =>
    rw [backUp] at h
    split at h
    · have hwritten := Files.writeAtomic_written hs (isAbsolute_pathFor hroot op.id) b
      rw [Backups.write, run_bind] at h
      generalize (Files.writeAtomic (m.backups.pathFor op.id) b).run.run fs = out at h hwritten
      obtain ⟨x, fs₁⟩ := out
      cases x with
      | ok u => cases (Prod.mk.inj h).1
      | error e =>
        rw [← (Prod.mk.inj h).2]
        exact hwritten.widened
    · cases (Prod.mk.inj h).1

theorem add_error {kind : Operation.Kind} {p : Path} {details : Operation.Details} (hs : fs.Sound)
    (hroot : m.store.root.isAbsolute = true)
    (h : ((m.add id now kind p details).run fs).1.1.isOk = false) :
    ((m.add id now kind p details).run fs).1.2 = m ∧
      Widened fs ((m.add id now kind p details).run fs).2 := by
  rw [add] at h ⊢
  cases hc : m.current with
  | none => exact ⟨rfl, .refl hs⟩
  | some t =>
    simp only [hc] at h ⊢
    split at h
    · next hstatus =>
      rw [if_pos hstatus]
      exact ⟨rfl, .refl hs⟩
    · next hstatus =>
      rw [if_neg hstatus]
      rw [run_bind, (looks_previousBytes _ _).run fs] at h ⊢
      generalize ((previousBytes (m.root.normalize p) details.previousContent).run fs).1 = found at h ⊢
      cases found with
      | error e => exact ⟨rfl, .refl hs⟩
      | ok previous =>
        simp only [run_bind] at h ⊢
        generalize hout : (m.backUp (m.operationOf id now kind p details previous) previous).run fs = out
          at h ⊢
        obtain ⟨x, fs₁⟩ := out
        cases x with
        | error e => exact ⟨rfl, backUp_error hs hroot hout⟩
        | ok u => cases h

theorem complete_error (hs : fs.Sound) (hroot : m.store.root.isAbsolute = true)
    (h : (m.complete.run fs).1.1.isOk = false) :
    Widened fs (m.complete.run fs).2 ∧
      (m.current = none ∧ (m.complete.run fs).1.2 = m ∨
        ∃ t e, m.current = some t ∧
          ((m.store.saveTransaction { t with status := .completed }).run fs).1 = .error e ∧
          (m.complete.run fs).1.2 = m.markFailed { t with status := .completed } e) := by
  rw [complete] at h ⊢
  cases hc : m.current with
  | none => exact ⟨.refl hs, .inl ⟨rfl, rfl⟩⟩
  | some t =>
    simp only [hc, run_bind] at h ⊢
    generalize hout : (m.store.saveTransaction { t with status := .completed }).run fs = out at h ⊢
    obtain ⟨x, fs₁⟩ := out
    cases x with
    | ok u => simp [Except.isOk, Except.toBool] at h
    | error e =>
      rcases Store.saveTransaction_written hs hroot hout with ⟨-, hwide⟩ | ⟨hok, -⟩
      · exact ⟨hwide, .inr ⟨t, e, rfl, by rw [hout], rfl⟩⟩
      · cases hok

theorem abort_error (h : (m.abort.run fs).1.1.isOk = false) :
    (m.abort.run fs).1.2 = m ∧ (m.abort.run fs).2 = fs := by
  rw [abort] at h ⊢
  cases hc : m.current with
  | none => exact ⟨rfl, rfl⟩
  | some t =>
    simp only [hc, run_bind, Store.deleteTransaction, Files.removeIfPresent_eq] at h ⊢
    cases hremove : fs.removeFile (m.store.transactionPath t.id) with
    | ok fs' => simp [hremove, Except.isOk, Except.toBool] at h
    | error e =>
      simp only [hremove] at h ⊢
      by_cases hnf : e.isNotFound = true
      · simp [hnf, Except.isOk, Except.toBool] at h
      · simp [hnf]

theorem createCheckpoint_error {name description : String} {ids : Option (List String)}
    {metadata : Metadata} (hs : fs.Sound) (hroot : m.store.root.isAbsolute = true)
    (h : ((m.createCheckpoint id now name description ids metadata).run fs).1.1.isOk = false) :
    ((m.createCheckpoint id now name description ids metadata).run fs).1.2 = m ∧
      Widened fs ((m.createCheckpoint id now name description ids metadata).run fs).2 := by
  rw [createCheckpoint] at h ⊢
  split at h
  · next herror =>
    exact ⟨rfl, .refl hs⟩
  · next chosen _ =>
    simp only [run_bind] at h ⊢
    generalize hout : (m.store.saveCheckpoint _).run fs = out at h ⊢
    obtain ⟨x, fs₁⟩ := out
    cases x with
    | ok u => simp [Except.isOk, Except.toBool] at h
    | error e =>
      rcases Store.saveCheckpoint_written hs hroot hout with ⟨-, hwide⟩ | ⟨hok, -⟩
      · exact ⟨rfl, hwide⟩
      · cases hok

end Manager

/-- What a request that failed has left: all that was kept, and the transaction under way, which is
marked as failed at most where it could not be saved. On disk there are new directories at most. -/
structure Turn.Undone (s : Turn) : Prop where
  manager : s.after = { s.before with
    events := s.after.events, counters := s.after.counters, current := s.after.current }
  current : s.after.current = s.before.current ∨
    s.request = .complete ∧ ∃ t e, s.before.current = some t ∧
      ((s.before.store.saveTransaction { t with status := .completed }).run s.tree).1 = .error e ∧
      s.after.current = some { t with status := .failed }
  files : Widened s.tree s.left

theorem Turn.undone_of_same {s : Turn} (hm : s.after = s.before) (hfiles : Widened s.tree s.left) :
    s.Undone := ⟨by rw [hm], .inl (by rw [hm]), hfiles⟩

theorem Request.Fails.undone (h : r.Fails m fs) (hs : fs.Sound) (hroot : m.store.root.isAbsolute = true) :
    (r.turn m fs).Undone := by
  cases r with
  | add id now kind p details =>
    obtain ⟨hm, hfiles⟩ := Manager.add_error hs hroot h
    refine Turn.undone_of_same ?_ ?_ <;> simpa only [turn, perform, run_bind, run_pure]
  | complete =>
    obtain ⟨hfiles, ⟨-, hm⟩ | ⟨t, e, ht, hsave, hm⟩⟩ := Manager.complete_error hs hroot h
    · refine Turn.undone_of_same ?_ ?_ <;> simpa only [turn, perform, run_bind, run_pure]
    · have hafter : (complete.turn m fs).after = m.markFailed { t with status := .completed } e := by
        simpa only [turn, perform, run_bind, run_pure] using hm
      exact ⟨by rw [hafter]; rfl, .inr ⟨rfl, t, e, ht, hsave, by rw [hafter]; rfl⟩,
        by simpa only [turn, perform, run_bind, run_pure] using hfiles⟩
  | abort =>
    obtain ⟨hm, hfiles⟩ := Manager.abort_error h
    refine Turn.undone_of_same ?_ ?_ <;> simp only [turn, perform, run_bind, run_pure]
    · exact hm
    · rw [hfiles]
      exact .refl hs
  | createCheckpoint id now name description ids metadata =>
    obtain ⟨hm, hfiles⟩ := Manager.createCheckpoint_error hs hroot h
    refine Turn.undone_of_same ?_ ?_ <;> simpa only [turn, perform, run_bind, run_pure]
  | start | rollback | deleteCheckpoint | rollbackCheckpoint | clear => exact h.elim

/-! ### The transaction under way -/

structure Manager.Holding (m : Manager) (t : Transaction) (m' : Manager) : Prop where
  store : m'.store = m.store
  current : m'.current = some t ∨ m'.current = some { t with status := .failed }

namespace Manager

theorem Holding.refl (h : m.current = some t) : Holding m t m := ⟨rfl, .inl h⟩

theorem Alongside.holding (h : Alongside m m') (hc : m.current = some t) : Holding m t m' := by
  have hcurrent : m'.current = m.current := by rw [h]
  exact ⟨by rw [h], .inl (hcurrent.trans hc)⟩

theorem Holding.trans (h : Holding m t m')
    (h' : ∀ u, m'.current = some u → Holding m' u m'') : Holding m t m'' := by
  rcases h.current with hc | hc
  · exact ⟨(h' _ hc).store.trans h.store, (h' _ hc).current⟩
  · exact ⟨(h' _ hc).store.trans h.store, .inr ((h' _ hc).current.elim id id)⟩

end Manager

theorem Turn.Undone.holding {s : Turn} (h : s.Undone) (hc : s.before.current = some t) :
    s.before.Holding t s.after := by
  refine ⟨by rw [h.manager], ?_⟩
  rcases h.current with hsame | ⟨-, u, e, hu, -, hfailed⟩
  · exact .inl (hsame.trans hc)
  · obtain rfl := Option.some.inj (hu.symm.trans hc)
    exact .inr hfailed

/-- A request that holds the transaction under way leaves it there. -/
theorem Request.Holds.holding (h : r.Holds m fs) (hs : fs.Sound)
    (hroot : m.store.root.isAbsolute = true) (hc : m.current = some t) :
    m.Holding t (r.turn m fs).after := by
  have hfails : r.Fails m fs → m.Holding t (r.turn m fs).after := fun h =>
    (h.undone hs hroot).holding hc
  cases r with
  | add | complete | abort => exact hfails h
  | createCheckpoint id now name description ids metadata =>
    simp only [turn, perform, run_bind, run_pure]
    rcases Manager.createCheckpoint_cases m fs id now name description ids metadata with hm | ⟨c, -, hm⟩
    · rw [hm]
      exact .refl hc
    · rw [hm]
      exact ⟨rfl, .inl hc⟩
  | start id now name description command metadata =>
    simp only [turn, perform, run_pure, Manager.start, hc]
    exact .refl hc
  | rollback now options id =>
    simp only [turn, perform, run_bind, run_pure]
    exact (Manager.rollback_alongside m now options id fs).holding hc
  | deleteCheckpoint id =>
    simp only [turn, perform, run_bind, run_pure]
    rcases Manager.deleteCheckpoint_cases m fs id with hm | hm
    · rw [hm]
      exact .refl hc
    · rw [hm]
      exact ⟨rfl, .inl hc⟩
  | rollbackCheckpoint now options id =>
    simp only [turn, perform, run_bind, run_pure]
    exact (Manager.rollbackCheckpoint_alongside m now options id fs).holding hc
  | clear now days =>
    rw [turn, perform]
    cases hclear : m.clear? now days with
    | none => exact .refl hc
    | some x =>
      simp only [run_bind, run_pure]
      exact (Manager.clear_fewer fs hclear).alongside.holding hc

theorem Run.holding {turns : List Turn}
    (h : Run (fun m fs r => fs.Sound ∧ r.Holds m fs) (fun _ _ _ => True) m fs turns m' fs')
    (hroot : m.store.root.isAbsolute = true) (hc : m.current = some t) : m.Holding t m' := by
  refine h.invariant (fun _ m' _ => m.Holding t m') (.refl hc) (fun _ _ _ _ h _ => h)
    fun _ m' fs r hm ⟨hs, hr⟩ => hm.trans fun u hu => ?_
  exact hr.holding hs (by rw [hm.store]; exact hroot) hu

namespace Manager

theorem purgeEach_kept {id : String} {ids : List String} (h : id ∉ ids) (m : Manager) (fs : FileSystem) :
    ((m.purgeEach ids).run fs).1.2.transaction? id = m.transaction? id := by
  induction ids generalizing m fs with
  | nil => rfl
  | cons i ids ih =>
    simp only [List.mem_cons, not_or] at h
    simp only [purgeEach, run_bind, run_pure]
    rw [ih h.2, purge]
    split
    · rfl
    · rw [run_bind]
      split
      · rfl
      · rw [run_bind]
        exact (transaction?_remove m i id).trans (if_neg h.1)

/-- A completed transaction is stored: its document is written whole and says what the transaction is.
It is kept unless it is one of the `older` ones, beyond the number that is kept, and after the document
was written only files of these are removed. -/
structure Stored (m : Manager) (t : Transaction) (older : List Transaction) (removed : List Path)
    (fs fs₁ : FileSystem) (m' : Manager) (fs' : FileSystem) : Prop where
  document : ∃ text, t.toText? = some text ∧
    Files.Written fs (m.store.transactionPath t.id) (Utf8.encode text) fs₁ (.ok ()) ∧
    (t.Regular → (∀ j ∈ t.toJson?, Json.nesting j ≤ Json.greatestDepth) → Transaction.ofText? text = some t)
  current : m'.current = none
  kept : m'.transaction? t.id = some t ∨ m'.transaction? t.id = none ∧ ∃ u ∈ older, u.id = t.id
  others : ∀ id ≠ t.id, m'.transaction? id = m.transaction? id ∨
    m'.transaction? id = none ∧ ∃ u ∈ older, u.id = id
  excess : ∃ newer, (older ++ newer).Perm (m.history.put t.id t).values ∧
    (older ++ newer).Pairwise (fun t u => olderFirst t u = true) ∧
    newer.length = min m.settings.maxTransactions (m.history.put t.id t).length
  removal : ∀ p ∈ removed, ∃ u ∈ older, ∃ v, (m.history.put t.id t).get? u.id = some v ∧
    (p = m.store.transactionPath u.id ∨
      ∃ op ∈ v.operations, op.requiresBackup = true ∧ p = m.backups.pathFor op.id)
  tree : fs' = fs₁.removing removed

/-- The transaction is stored as completed, with the operations that it has. -/
def Stores (m : Manager) (t : Transaction) (fs : FileSystem) (m' : Manager) (fs' : FileSystem) : Prop :=
  ∃ older removed fs₁, m.Stored { t with status := .completed } older removed fs fs₁ m' fs'

theorem complete_run (hc : m.current = some t) {fs₁ : FileSystem}
    (h : (m.store.saveTransaction { t with status := .completed }).run fs = (.ok (), fs₁)) :
    m.complete.run fs = ((.ok t.id, ((m.keep { t with status := .completed }).enforceLimit.run fs₁).1.publish
      (.transactionCompleted t.id t.operations.length)),
      ((m.keep { t with status := .completed }).enforceLimit.run fs₁).2) := by
  simp only [complete, hc, run_bind, h, run_pure]

theorem complete_saved {id : String} (hc : m.current = some t)
    (h : m.complete.run fs = ((.ok id, m'), fs')) :
    ∃ fs₁, (m.store.saveTransaction { t with status := .completed }).run fs = (.ok (), fs₁) ∧ id = t.id ∧
      m' = ((m.keep { t with status := .completed }).enforceLimit.run fs₁).1.publish
        (.transactionCompleted t.id t.operations.length) ∧
      fs' = ((m.keep { t with status := .completed }).enforceLimit.run fs₁).2 := by
  simp only [complete, hc, run_bind] at h
  generalize (m.store.saveTransaction { t with status := .completed }).run fs = out at h
  obtain ⟨x, fs₁⟩ := out
  cases x with
  | error e => cases (Prod.mk.inj (Prod.mk.inj h).1).1
  | ok u =>
    simp only [run_bind, run_pure] at h
    obtain ⟨⟨hid, rfl⟩, rfl⟩ := h
    exact ⟨fs₁, rfl, rfl, rfl, rfl⟩

theorem enforceLimit_transaction? (m : Manager) (fs : FileSystem) (id : String) :
    ((m.enforceLimit).run fs).1.transaction? id = m.transaction? id ∨
      ((m.enforceLimit).run fs).1.transaction? id = none ∧ id ∈ m.excess := by
  have hfewer : Fewer m ((m.enforceLimit).run fs).1 := enforceLimit_fewer _
  cases hx : ((m.enforceLimit).run fs).1.transaction? id with
  | some u => exact .inl (hfewer.kept id u hx).symm
  | none =>
    by_cases hmem : id ∈ m.excess
    · exact .inr ⟨rfl, hmem⟩
    · simp only [enforceLimit, run_bind, run_pure] at hx
      exact .inl (hx.symm.trans (purgeEach_kept hmem m fs))

theorem complete_stores {id : String} (hs : fs.Sound) (hroot : m.store.root.isAbsolute = true)
    (hc : m.current = some t) (h : m.complete.run fs = ((.ok id, m'), fs')) :
    id = t.id ∧ m.Stores t fs m' fs' := by
  obtain ⟨fs₁, hout, rfl, rfl, rfl⟩ := complete_saved hc h
  obtain ⟨⟨e, he⟩, -⟩ | ⟨-, content, htext, hwritten⟩ := Store.saveTransaction_written hs hroot hout
  · cases he
  obtain ⟨older, newer, hexcess, hperm, hsorted, hlength⟩ :=
    exists_excess (m.keep { t with status := .completed })
  obtain ⟨removed, htree, howns⟩ := purgeEach_removing (m.keep { t with status := .completed })
    (m.keep { t with status := .completed }).excess fs₁
  have hfewer : Fewer (m.keep { t with status := .completed })
      ((m.keep { t with status := .completed }).enforceLimit.run fs₁).1 := enforceLimit_fewer _
  have hafter := enforceLimit_transaction? (m.keep { t with status := .completed }) fs₁
  have hold : ∀ {id}, id ∈ (m.keep { t with status := .completed }).excess → ∃ u ∈ older, u.id = id := by
    rw [hexcess]
    exact fun h => List.mem_map.1 h
  refine ⟨rfl, older, removed, fs₁, ⟨⟨content, htext, hwritten, fun hregular hdepth => ?_⟩, ?_, ?_,
    fun i hi => ?_, ⟨newer, hperm, hsorted, hlength⟩, fun p hp => ?_, ?_⟩⟩
  · rw [Transaction.ofText?_toText? hregular htext]
    obtain ⟨j, hj, -⟩ := Option.map_eq_some_iff.1 htext
    rw [if_pos (Transaction.isReadable_of_nesting hregular hj (hdepth j hj))]
  · change ((m.keep { t with status := .completed }).enforceLimit.run fs₁).1.current = none
    rw [hfewer.others]
    rfl
  · have hkeep : (m.keep { t with status := .completed }).transaction? t.id =
        some { t with status := .completed } := (transaction?_keep _ _ _).trans (if_pos rfl)
    exact (hafter t.id).imp (·.trans hkeep) fun h => ⟨h.1, hold h.2⟩
  · have hkeep : (m.keep { t with status := .completed }).transaction? i = m.transaction? i :=
      (transaction?_keep _ _ _).trans (if_neg hi)
    exact (hafter i).imp (·.trans hkeep) fun h => ⟨h.1, hold h.2⟩
  · obtain ⟨i, hi, v, hv, hfile⟩ := howns p hp
    obtain ⟨u, hu, rfl⟩ := hold hi
    exact ⟨u, hu, v, hv, hfile⟩
  · simpa only [enforceLimit, run_bind, run_pure] using htree

end Manager

/-- Adding an operation, completing, aborting or making a checkpoint that fails leaves the history, the
checkpoints and the operations of the transaction under way, and nothing but new directories on disk.
Whatever else is asked for in the meantime, and whatever happens to the files, as long as no operation
is added and the transaction is not ended, completing it later stores exactly its operations. -/
theorem failure_leaves_state {m : Manager} {fs : FileSystem} {r : Request} (hs : fs.Sound)
    (hroot : m.store.root.isAbsolute = true) (hfail : r.Fails m fs) :
    (r.turn m fs).Undone ∧
    ∀ t, m.current = some t → ∀ turns m₁ fs₁, fs₁.Sound →
      Run (fun m fs r => fs.Sound ∧ r.Holds m fs) (fun _ _ _ => True)
        (r.turn m fs).after (r.turn m fs).left turns m₁ fs₁ →
      ∀ id m₂ fs₂, m₁.complete.run fs₁ = ((.ok id, m₂), fs₂) → id = t.id ∧ m₁.Stores t fs₁ m₂ fs₂ := by
  have hundone := hfail.undone hs hroot
  refine ⟨hundone, fun t ht turns m₁ fs₁ hs₁ hrun id m₂ fs₂ hcomplete => ?_⟩
  have hfirst : m.Holding t (r.turn m fs).after := hundone.holding ht
  have hlast : m.Holding t m₁ := hfirst.trans fun u hu =>
    hrun.holding (by rw [hfirst.store]; exact hroot) hu
  have hroot₁ : m₁.store.root.isAbsolute = true := by rw [hlast.store]; exact hroot
  rcases hlast.current with hc | hc
  · exact Manager.complete_stores hs₁ hroot₁ hc hcomplete
  · obtain ⟨hid, hstores⟩ := Manager.complete_stores hs₁ hroot₁ hc hcomplete
    exact ⟨hid, hstores⟩

namespace Sample

def closed : FileSystem := adding.left.insert grounds.transactions (.directory 0o555)

def shut : Turn := Request.complete.turn adding.after closed

end Sample

theorem failure_leaves_state_of_closed :
    Request.complete.Fails Sample.adding.after Sample.closed ∧ Sample.shut.Undone ∧
      ∃ t id m₂ fs₂, Sample.adding.after.current = some t ∧
        Sample.shut.after.complete.run Sample.adding.left = ((.ok id, m₂), fs₂) ∧
        id = t.id ∧ Sample.shut.after.Stores t Sample.adding.left m₂ fs₂ := by
  have hs : Sample.closed.Sound := by decide +kernel
  have hroot : Sample.adding.after.store.root.isAbsolute = true := by decide +kernel
  have hfails : Request.complete.Fails Sample.adding.after Sample.closed := by
    change (Sample.adding.after.complete.run Sample.closed).1.1.isOk = false
    decide +kernel
  obtain ⟨hundone, hlater⟩ := failure_leaves_state hs hroot hfails
  have hcurrent : Sample.adding.after.current.isSome = true := by decide +kernel
  obtain ⟨t, ht⟩ := Option.isSome_iff_exists.1 hcurrent
  have hgoes : (Sample.shut.after.complete.run Sample.adding.left).1.1.toOption.isSome = true := by
    decide +kernel
  have hopen : Sample.adding.left.Sound := by decide +kernel
  generalize hout : Sample.shut.after.complete.run Sample.adding.left = out at hgoes
  obtain ⟨⟨_ | id, m₂⟩, fs₂⟩ := out
  · cases hgoes
  · obtain ⟨hid, hstores⟩ := hlater t ht [] Sample.shut.after Sample.adding.left hopen
      (.wait .nil trivial) id m₂ fs₂ hout
    exact ⟨hfails, hundone, t, id, m₂, fs₂, ht, rfl, hid, hstores⟩

end Retrace
