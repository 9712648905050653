import Mathlib.Algebra.GroupWithZero.Nat
import Retrace.Manager.Basic

/-!
What events tell. The events of a manager are kept latest first, so that the past of an event is what
comes after it in the list. Counters follow events (`Counters.Follows`), rollbacks that have begun have
ended (`Paired`), and operations are told of the transaction that was started last (`Chronicle`).
-/
namespace Retrace

/-! ### Events -/

namespace Event

/-- The id of a transaction that starts. -/
def started? : Event → Option String
  | .transactionStarted id .. => some id
  | _ => none

/-- The id of the transaction that an operation is added to. -/
def executed? : Event → Option String
  | .operationExecuted id .. => some id
  | _ => none

/-- The id of a transaction that is completed, and how many operations it has. -/
def completed? : Event → Option (String × Nat)
  | .transactionCompleted id n => some (id, n)
  | _ => none

def failed? : Event → Option String
  | .transactionFailed id _ => some id
  | _ => none

def rollbackStarted? : Event → Option String
  | .rollbackStarted id => some id
  | _ => none

def rollbackCompleted? : Event → Option String
  | .rollbackCompleted id .. => some id
  | _ => none

/-- Whether a rollback was a success, and how many operations it reverted. -/
def outcome? : Event → Option (Bool × Nat)
  | .rollbackCompleted _ success n => some (success, n)
  | _ => none

def ofRollback (e : Event) : Bool := e.rollbackStarted?.isSome || e.rollbackCompleted?.isSome

end Event

/-- The operations that rollbacks have reverted. -/
def reverted (es : List Event) : Nat := ((es.filterMap Event.outcome?).map (·.2)).sum

@[simp]
theorem reverted_append (es es' : List Event) : reverted (es ++ es') = reverted es + reverted es' := by
  simp [reverted]

/-- The counters after an event; dry runs revert nothing. -/
def Counters.after (dry : Bool) (c : Counters) : Event → Counters
  | .transactionStarted .. => { c with transactionsStarted := c.transactionsStarted + 1 }
  | .operationExecuted .. => { c with operationsRecorded := c.operationsRecorded + 1 }
  | .transactionCompleted .. => { c with transactionsCompleted := c.transactionsCompleted + 1 }
  | .transactionFailed .. => { c with transactionsFailed := c.transactionsFailed + 1 }
  | .rollbackStarted _ => { c with rollbacksAttempted := c.rollbacksAttempted + 1 }
  | .rollbackCompleted _ success n => { c with
      rollbacksSucceeded := c.rollbacksSucceeded + success.toNat
      operationsRolledBack := c.operationsRolledBack + if dry then 0 else n }

/-- The counters are ahead by what the events tell, and by some rollbacks that no event tells of. -/
structure Counters.Follows (c c' : Counters) (dry : Bool) (es : List Event) (missed : Nat) : Prop where
  started : c'.transactionsStarted = c.transactionsStarted + (es.filterMap Event.started?).length
  completed :
    c'.transactionsCompleted = c.transactionsCompleted + (es.filterMap Event.completed?).length
  failed : c'.transactionsFailed = c.transactionsFailed + (es.filterMap Event.failed?).length
  recorded : c'.operationsRecorded = c.operationsRecorded + (es.filterMap Event.executed?).length
  attempted : c'.rollbacksAttempted =
    c.rollbacksAttempted + (es.filterMap Event.rollbackStarted?).length + missed
  succeeded : c'.rollbacksSucceeded =
    c.rollbacksSucceeded + (es.filterMap Event.outcome?).countP (·.1)
  rolledBack : c'.operationsRolledBack = c.operationsRolledBack + if dry then 0 else reverted es

theorem Counters.follows_after (c : Counters) (dry : Bool) (e : Event) :
    c.Follows (c.after dry e) dry [e] 0 := by
  cases e with
  | rollbackCompleted id success n =>
    constructor <;> cases success <;> simp [Counters.after, Event.started?, Event.completed?,
      Event.failed?, Event.executed?, Event.rollbackStarted?, Event.outcome?, reverted]
  | _ =>
    constructor <;> simp [Counters.after, Event.started?, Event.completed?, Event.failed?,
      Event.executed?, Event.rollbackStarted?, Event.outcome?, reverted, List.filterMap_cons]

theorem Counters.Follows.trans {c c' c'' : Counters} {dry : Bool} {es es' : List Event} {n n' : Nat}
    (h : c.Follows c' dry es n) (h' : c'.Follows c'' dry es' n') :
    c.Follows c'' dry (es' ++ es) (n + n') where
  started := by rw [h'.started, h.started, List.filterMap_append, List.length_append]; omega
  completed := by rw [h'.completed, h.completed, List.filterMap_append, List.length_append]; omega
  failed := by rw [h'.failed, h.failed, List.filterMap_append, List.length_append]; omega
  recorded := by rw [h'.recorded, h.recorded, List.filterMap_append, List.length_append]; omega
  attempted := by rw [h'.attempted, h.attempted, List.filterMap_append, List.length_append]; omega
  succeeded := by rw [h'.succeeded, h.succeeded, List.filterMap_append, List.countP_append]; omega
  rolledBack := by rw [h'.rolledBack, h.rolledBack, reverted_append]; split <;> omega

/-! ### Rollbacks that are under way -/

def begun (id : String) (es : List Event) : Nat := (es.filterMap Event.rollbackStarted?).count id

def ended (id : String) (es : List Event) : Nat := (es.filterMap Event.rollbackCompleted?).count id

@[simp]
theorem begun_append (id : String) (es es' : List Event) :
    begun id (es ++ es') = begun id es + begun id es' := by simp [begun]

@[simp]
theorem ended_append (id : String) (es es' : List Event) :
    ended id (es ++ es') = ended id es + ended id es' := by simp [ended]

theorem suffix_append_iff {α : Type} {xs ys zs : List α} :
    xs <:+ ys ++ zs ↔ xs <:+ zs ∨ ∃ ws, ws <:+ ys ∧ xs = ws ++ zs := by
  induction ys with
  | nil =>
    refine ⟨.inl, ?_⟩
    rintro (h | ⟨ws, h, rfl⟩)
    · exact h
    · obtain rfl := List.suffix_nil.1 h
      exact List.suffix_rfl
  | cons y ys ih =>
    rw [List.cons_append, List.suffix_cons_iff, ih]
    refine ⟨?_, ?_⟩
    · rintro (rfl | h | ⟨ws, h, rfl⟩)
      · exact .inr ⟨y :: ys, List.suffix_rfl, rfl⟩
      · exact .inl h
      · exact .inr ⟨ws, h.trans (List.suffix_cons _ _), rfl⟩
    · rintro (h | ⟨ws, h, rfl⟩)
      · exact .inr (.inl h)
      · rcases List.suffix_cons_iff.1 h with rfl | h
        · exact .inl rfl
        · exact .inr (.inr ⟨ws, h, rfl⟩)

/-- Every rollback that has begun has ended, and none has ended before it began. -/
structure Paired (es : List Event) : Prop where
  ahead : ∀ past, past <:+ es → ∀ id, ended id past ≤ begun id past
  level : ∀ id, begun id es = ended id es

theorem Paired.nil : Paired [] where
  ahead past h id := by
    obtain rfl := List.suffix_nil.1 h
    exact Nat.le_refl _
  level _ := rfl

theorem Paired.single {e : Event} (h : e.ofRollback = false) : Paired [e] := by
  obtain ⟨hs, he⟩ : e.rollbackStarted? = none ∧ e.rollbackCompleted? = none := by
    simpa [Event.ofRollback] using h
  have hlevel : ∀ id, begun id [e] = 0 ∧ ended id [e] = 0 := by simp [begun, ended, hs, he]
  refine ⟨fun past hpast id => ?_, fun id => by rw [(hlevel id).1, (hlevel id).2]⟩
  rcases List.suffix_cons_iff.1 hpast with rfl | hpast
  · rw [(hlevel id).2]
    exact Nat.zero_le _
  · obtain rfl := List.suffix_nil.1 hpast
    exact Nat.le_refl _

theorem Paired.append {es es' : List Event} (h' : Paired es') (h : Paired es) :
    Paired (es' ++ es) where
  ahead past hpast id := by
    rcases suffix_append_iff.1 hpast with hpast | ⟨new, hnew, rfl⟩
    · exact h.ahead past hpast id
    · rw [ended_append, begun_append, h.level id]
      exact Nat.add_le_add_right (h'.ahead new hnew id) _
  level id := by rw [begun_append, ended_append, h.level, h'.level]

theorem Paired.of_halves {starts ends : List Event} (hstarts : ∀ id, ended id starts = 0)
    (hends : ∀ id, begun id ends = 0) (hlevel : ∀ id, begun id starts = ended id ends) :
    Paired (ends ++ starts) where
  ahead past hpast id := by
    rcases suffix_append_iff.1 hpast with ⟨older, rfl⟩ | ⟨new, ⟨older, rfl⟩, rfl⟩
    · have h := hstarts id
      rw [ended_append] at h
      omega
    · have h := hlevel id
      rw [ended_append] at h
      rw [ended_append, begun_append, hstarts]
      omega
  level id := by rw [begun_append, ended_append, hends, hstarts, hlevel]; omega

/-! ### Operations in events -/

def startedIds (es : List Event) : List String := es.filterMap Event.started?

def executions (id : String) (es : List Event) : Nat := (es.filterMap Event.executed?).count id

/-- What the events tell of operations, and of the transaction under way. The number of its operations
is right where no two transactions have started under one id. -/
structure Chronicle (es : List Event) (current : Option Transaction) : Prop where
  executed : ∀ e past, e :: past <:+ es → ∀ id, e.executed? = some id → (startedIds past).head? = some id
  latest : ∀ t ∈ current, (startedIds es).head? = some t.id
  length : (startedIds es).Nodup → ∀ t ∈ current, t.operations.length = executions t.id es
  completed : (startedIds es).Nodup → ∀ c ∈ es.filterMap Event.completed?,
    c.2 = executions c.1 es ∧ c.1 ∈ startedIds es ∧ ∀ t ∈ current, t.id ≠ c.1

namespace Chronicle

variable {es new : List Event} {current current' : Option Transaction} {e : Event}

theorem nil : Chronicle [] none where
  executed e past h := by cases List.suffix_nil.1 h
  latest t ht := nomatch ht
  length _ t ht := nomatch ht
  completed _ c hc := nomatch hc

theorem mem_startedIds (h : Chronicle es current) {id : String} (hid : 0 < executions id es) :
    id ∈ startedIds es := by
  obtain ⟨e, he, heid⟩ := List.mem_filterMap.1 (List.count_pos_iff.1 hid)
  obtain ⟨older, past, rfl⟩ := List.append_of_mem he
  have hhead := h.executed e past (List.suffix_append _ _) id heid
  rw [startedIds, List.filterMap_append, List.filterMap_cons]
  refine List.mem_append_right _ ?_
  have hmem : id ∈ startedIds past := List.mem_of_mem_head? hhead
  split
  · exact hmem
  · exact List.mem_cons_of_mem _ hmem

theorem executed_cons (h : Chronicle es current)
    (he : ∀ id, e.executed? = some id → (startedIds es).head? = some id) :
    ∀ d past, d :: past <:+ e :: es → ∀ id, d.executed? = some id → (startedIds past).head? = some id := by
  intro d past hpast
  rcases List.suffix_cons_iff.1 hpast with heq | hpast
  · obtain ⟨rfl, rfl⟩ := List.cons.inj heq
    exact he
  · exact h.executed d past hpast

/-- Events that tell of no transaction but its failure. -/
theorem silent (h : Chronicle es current)
    (hnew : ∀ e ∈ new, e.started? = none ∧ e.executed? = none ∧ e.completed? = none)
    (hcurrent : ∀ t' ∈ current', ∃ t ∈ current, t.id = t'.id ∧ t.operations = t'.operations) :
    Chronicle (new ++ es) current' := by
  have hstarted : startedIds (new ++ es) = startedIds es := by
    rw [startedIds, List.filterMap_append, List.filterMap_eq_nil_iff.2 fun e he => (hnew e he).1]
    rfl
  have hexecuted : ∀ id, executions id (new ++ es) = executions id es := by
    intro id
    rw [executions, List.filterMap_append, List.filterMap_eq_nil_iff.2 fun e he => (hnew e he).2.1]
    rfl
  have hcompleted : (new ++ es).filterMap Event.completed? = es.filterMap Event.completed? := by
    rw [List.filterMap_append, List.filterMap_eq_nil_iff.2 fun e he => (hnew e he).2.2]
    rfl
  refine ⟨fun e past hpast id hid => ?_, fun t' ht' => ?_, fun hnodup t' ht' => ?_,
    fun hnodup c hc => ?_⟩
  · rcases suffix_append_iff.1 hpast with hpast | ⟨ws, hws, heq⟩
    · exact h.executed e past hpast id hid
    · -- the event is no new one
      cases ws with
      | nil => exact h.executed e past (heq ▸ List.suffix_rfl) id hid
      | cons d ws =>
        obtain ⟨rfl, -⟩ := List.cons.inj heq
        rw [(hnew e (hws.mem List.mem_cons_self)).2.1] at hid
        cases hid
  · obtain ⟨t, ht, hid, -⟩ := hcurrent t' ht'
    rw [hstarted, ← hid]
    exact h.latest t ht
  · obtain ⟨t, ht, hid, hops⟩ := hcurrent t' ht'
    rw [hexecuted, ← hid, ← hops]
    exact h.length (hstarted ▸ hnodup) t ht
  · rw [hcompleted] at hc
    obtain ⟨hcount, hmem, hother⟩ := h.completed (hstarted ▸ hnodup) c hc
    refine ⟨by rw [hexecuted]; exact hcount, hstarted ▸ hmem, fun t' ht' => ?_⟩
    obtain ⟨t, ht, hid, -⟩ := hcurrent t' ht'
    rw [← hid]
    exact hother t ht

theorem start {t : Transaction} {name command : String} (h : Chronicle es none)
    (hops : t.operations = []) : Chronicle (.transactionStarted t.id name command :: es) (some t) where
  executed := h.executed_cons fun id hid => nomatch hid
  latest u hu := by cases hu; rfl
  length hnodup u hu := by
    cases hu
    obtain ⟨hnew, -⟩ := List.nodup_cons.1 (show (t.id :: startedIds es).Nodup from hnodup)
    rw [hops]
    exact (Nat.eq_zero_of_not_pos fun hpos => hnew (h.mem_startedIds hpos)).symm
  completed hnodup c hc := by
    obtain ⟨hnew, hnodup⟩ := List.nodup_cons.1 (show (t.id :: startedIds es).Nodup from hnodup)
    obtain ⟨hcount, hmem, -⟩ := h.completed hnodup c hc
    exact ⟨hcount, List.mem_cons_of_mem _ hmem, fun u hu heq => by cases hu; exact hnew (heq ▸ hmem)⟩

theorem execute {t : Transaction} {op : Operation} (h : Chronicle es (some t)) :
    Chronicle (.operationExecuted t.id op.id op.kind op.path :: es)
      (some { t with operations := t.operations ++ [op] }) where
  executed := h.executed_cons fun id hid => by cases hid; exact h.latest t rfl
  latest u hu := by cases hu; exact h.latest t rfl
  length hnodup u hu := by
    cases hu
    have hlength := h.length hnodup t rfl
    rw [executions] at hlength
    rw [List.length_append, hlength, executions]
    exact (List.count_cons_self).symm
  completed hnodup c hc := by
    obtain ⟨hcount, hmem, hother⟩ := h.completed hnodup c hc
    refine ⟨?_, hmem, fun u hu => by cases hu; exact hother t rfl⟩
    rw [executions] at hcount
    rw [hcount, executions]
    exact (List.count_cons_of_ne (hother t rfl)).symm

theorem abort (h : Chronicle es current) : Chronicle es none where
  executed := h.executed
  latest t ht := nomatch ht
  length _ t ht := nomatch ht
  completed hnodup c hc :=
    ⟨(h.completed hnodup c hc).1, (h.completed hnodup c hc).2.1, fun t ht => nomatch ht⟩

theorem complete {t : Transaction} (h : Chronicle es (some t)) :
    Chronicle (.transactionCompleted t.id t.operations.length :: es) none where
  executed := h.executed_cons fun id hid => nomatch hid
  latest u hu := nomatch hu
  length _ u hu := nomatch hu
  completed hnodup c hc := by
    rcases List.mem_cons.1 (show c ∈ (t.id, t.operations.length) :: es.filterMap Event.completed? from hc)
      with rfl | hc
    · exact ⟨h.length hnodup t rfl, List.mem_of_mem_head? (h.latest t rfl), fun u hu => nomatch hu⟩
    · obtain ⟨hcount, hmem, -⟩ := h.completed hnodup c hc
      exact ⟨hcount, hmem, fun u hu => nomatch hu⟩

end Chronicle

end Retrace
