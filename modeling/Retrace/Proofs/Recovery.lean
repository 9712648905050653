import Retrace.Proofs.Intact

/-!
What requests do to a store that holds a book. At every stage of recording, rolling back and letting
go the store holds a book that lies between the one before and the one afterwards (`complete_holds`,
`rollback_holds`, `purge_holds`), so whatever call is the last one before everything stops, no document
and no backup that is needed is lost.
-/
namespace Retrace

open FileSystem Retrace.Path Script
open Rollback (Options Result Pending)

/-! ### From one book to another -/

namespace Book

variable {b b' b'' x : Book} {now : Instant} {held : List Operation} {t : Transaction} {id : String}

def Between (b b' x : Book) : Prop := ∀ id, x id = b id ∨ x id = b' id

theorem Between.first : Between b b' b := fun _ => .inl rfl

theorem Between.last : Between b b' b' := fun _ => .inr rfl

theorem Between.early (h : Between b b'' b') (hx : Between b b' x) : Between b b'' x := fun id =>
  (hx id).elim .inl fun heq => (h id).imp heq.trans heq.trans

theorem Between.late (h : Between b b'' b') (hx : Between b' b'' x) : Between b b'' x := fun id =>
  (hx id).elim (fun heq => (h id).imp heq.trans heq.trans) .inr

def Unwinds (now : Instant) (b b' : Book) : Prop :=
  ∀ id, b' id = b id ∨ ∃ t, b id = some t ∧ t.status = .completed ∧ b' id = some (t.reverted now)

theorem Unwinds.refl : Unwinds now b b := fun _ => .inl rfl

theorem Unwinds.of_put (ht : b t.id = some t) (hs : t.status = .completed) :
    Unwinds now b (b.put (t.reverted now)) := by
  intro id
  rw [Book.put]
  split
  · next hid => exact .inr ⟨t, by rw [hid]; exact ht, hs, rfl⟩
  · exact .inl rfl

theorem Unwinds.between (h : Unwinds now b b') (h' : Unwinds now b' b'') : Between b b'' b' := by
  intro id
  rcases h id with heq | ⟨t, -, -, ht⟩
  · exact .inl heq
  · rcases h' id with heq | ⟨u, hu, hs, -⟩
    · exact .inr heq.symm
    · rw [ht, Option.some.injEq] at hu
      rw [← hu] at hs
      cases hs

theorem Unwinds.trans (h : Unwinds now b b') (h' : Unwinds now b' b'') : Unwinds now b b'' := by
  intro id
  rcases h' id with heq | ⟨u, hu, hs, hu'⟩
  · rw [heq]; exact h id
  · rcases h id with heq | ⟨t, -, -, ht⟩
    · exact .inr ⟨u, heq ▸ hu, hs, hu'⟩
    · rw [ht, Option.some.injEq] at hu
      rw [← hu] at hs
      cases hs

def Loses (b b' : Book) : Prop := ∀ id, b' id = b id ∨ b' id = none

theorem Loses.refl : Loses b b := fun _ => .inl rfl

theorem Loses.between (h : Loses b b') (h' : Loses b' b'') : Between b b'' b' := by
  intro id
  rcases h id with heq | hnone
  · exact .inl heq
  · rcases h' id with heq | heq
    · exact .inr heq.symm
    · exact .inr (hnone.trans heq.symm)

theorem Loses.trans (h : Loses b b') (h' : Loses b' b'') : Loses b b'' := fun id =>
  (h' id).elim (fun heq => (h id).imp heq.trans heq.trans) .inr

theorem Loses.strike (b : Book) (id : String) : Loses b (b.strike id) := by
  intro j
  rw [Book.strike]
  split
  · exact .inr rfl
  · exact .inl rfl

def Aloof (g : Grounds) (b : Book) (fs : FileSystem) : Prop :=
  ∀ id t, b id = some t → ∀ op ∈ t.operations, op.Outlying g fs

theorem Aloof.unwinds {g : Grounds} {fs : FileSystem} (h : Aloof g b fs) (hr : Unwinds now b b') :
    Aloof g b' fs := by
  intro id t ht
  rcases hr id with heq | ⟨u, hu, -, hu'⟩
  · exact h id t (heq ▸ ht)
  · rw [ht, Option.some.injEq] at hu'
    subst hu'
    exact h id u hu

/-- A completed transaction that is rolled back. -/
theorem Ordered.revert (h : Ordered b held) (ht : b t.id = some t) (hnow : now.Regular) :
    Ordered (b.put (t.reverted now)) held := by
  have hregular := h.regular t.id t ht
  refine h.put (List.Subset.refl _) ?_ nofun (h.plain t.id t ht)
    (fun id u hu hne op hop op' hop' => h.apart t.id id t u ht hu (Ne.symm hne) op hop op' hop')
    (h.held_apart t.id t ht)
  exact ⟨hregular.operations, hregular.timestamp, fun _ h => Option.some.inj h ▸ hnow, hregular.metadata⟩

theorem Needs.of_revert {op : Operation} (h : Needs (b.put (t.reverted now)) held op) :
    Needs b held op := by
  refine ⟨h.1, h.2.imp_right ?_⟩
  rintro ⟨id, u, hu, hs, hop⟩
  rcases put_eq_some.1 hu with ⟨-, rfl⟩ | ⟨-, hu⟩
  · cases hs
  · exact ⟨id, u, hu, hs, hop⟩

theorem Needs.foreign {op op' : Operation} (h : Needs b held op) (hb : b.Ordered held)
    (ht : b t.id = some t) (hs : t.status ≠ .completed) (hop' : op' ∈ t.operations) :
    op.id ≠ op'.id := by
  rcases h.2 with hop | ⟨id, u, hu, hus, hop⟩
  · exact (hb.held_apart t.id t ht op' hop' op hop).symm
  · refine hb.apart id t.id u t hu ht (fun heq => hs ?_) op hop op' hop'
    rw [heq, ht, Option.some.injEq] at hu
    exact hu ▸ hus

end Book

open Book (Between Unwinds Loses)

def HoldsSome (g : Grounds) (s : Store) (P : Book → Prop) (fs : FileSystem) : Prop :=
  ∃ b, P b ∧ Intact g s b [] fs

theorem Intact.holdsSome {g : Grounds} {s : Store} {b : Book} {held : List Operation}
    {fs : FileSystem} {P : Book → Prop} (h : Intact g s b held fs) (hb : P b) : HoldsSome g s P fs :=
  ⟨b, hb, h.mono (List.nil_subset _)⟩

theorem HoldsSome.mono {g : Grounds} {s : Store} {fs : FileSystem} {P P' : Book → Prop}
    (h : HoldsSome g s P fs) (hP : ∀ b, P b → P' b) : HoldsSome g s P' fs := by
  obtain ⟨b, hb, hi⟩ := h
  exact ⟨b, hP b hb, hi⟩

namespace Manager

/-- A manager whose store holds what it keeps. -/
structure Holds (g : Grounds) (s : Store) (b : Book) (held : List Operation) (m : Manager)
    (fs : FileSystem) : Prop where
  store : m.store = s
  book : m.transaction? = b
  intact : Intact g s b held fs

variable {g : Grounds} {s : Store} {b b' : Book} {held : List Operation} {m m' : Manager}
  {fs fs' : FileSystem} {t : Transaction} {p : Pending} {ps : List Pending} {ts : List Transaction}
  {now : Instant} {options : Options} {id : String} {C : Call → FileSystem → Prop}
  {K : FileSystem → Prop} {P : Book → Prop}

theorem Holds.keyed (h : Holds g s b held m fs) : Keyed m := by
  intro id t ht
  exact h.intact.ordered.keyed id t (h.book ▸ ht)

theorem Holds.counted (h : Holds g s b held m fs)
    (hm : m' = { m with events := m'.events, counters := m'.counters }) : Holds g s b held m' fs where
  store := by rw [hm]; exact h.store
  book := by rw [hm]; exact h.book
  intact := h.intact

theorem Holds.change (h : Holds g s b held m fs) (hi : Intact g s b held fs') :
    Holds g s b held m fs' := ⟨h.store, h.book, hi⟩

theorem book_put (m : Manager) (t : Transaction) :
    ({ m with history := m.history.put t.id t } : Manager).transaction? = Book.put m.transaction? t :=
  funext fun _ => transaction?_put _ _ _ _

theorem restored_self (hs : t.status = .completed) (hr : t.rollbackTimestamp = none) :
    restored t = t := by
  obtain ⟨id, name, description, command, operations, timestamp, status, reverted, metadata⟩ := t
  obtain rfl : status = .completed := hs
  obtain rfl : reverted = none := hr
  rfl

theorem markRolledBack_known (ht : m.transaction? t.id = some t) (now : Instant) :
    m.markRolledBack now t.id = (do
      match ← m.store.saveTransaction (t.reverted now) with
      | .ok () => return (.ok (), { m with history := m.history.put t.id (t.reverted now) })
      | .error e => return (.error e, { m with history := m.history.put t.id (restored t) })) := by
  rw [markRolledBack, ht]
  rfl

/-- Recording a rollback: the document is written before backups go. -/
theorem finalize_holds (h : Holds g s b held m fs) (ht : b t.id = some t) (hready : Ready m p)
    (howes : Owes t options p) (hnow : now.Regular) :
    ∃ b', Unwinds now b b' ∧ (∀ id, id ≠ t.id → b' id = b id) ∧
      Meets (m.finalize now options p) fs (HoldsSome g s (Between b b'))
        fun out k => out.2.Holds g s b' held k := by
  obtain ⟨rfl, rfl, hi⟩ := h
  have hid : p.result.transactionId = t.id := howes.id
  have hquiet : ∀ r k, Intact g m.store m.transaction? held k →
      Meets (pure (m.settle options r) : Script (Result × Manager)) k
        (HoldsSome g m.store (Between m.transaction? m.transaction?))
        fun out k => out.2.Holds g m.store m.transaction? held k := fun r k hk =>
    Meets.pure (hk.holdsSome .first) ⟨rfl, rfl, hk⟩
  rw [finalize]
  split
  · exact ⟨m.transaction?, .refl, fun _ _ => rfl, hquiet _ fs hi⟩
  next hgo =>
  simp only [Bool.or_eq_true, not_or, Bool.not_eq_true, Bool.not_eq_false',
    List.isEmpty_iff] at hgo
  obtain ⟨⟨hsuccess, herrors⟩, -⟩ := hgo
  have hs : t.status = .completed := by
    obtain ⟨u, hu, -, hopen⟩ := hready
    rw [hid, ht, Option.some.injEq] at hu
    exact hu ▸ hopen hsuccess herrors
  obtain ⟨hstages, hend⟩ := saveTransaction_intact (t := t.reverted now) hi (hi.filed.proper _ _ ht)
    (hi.ordered.revert ht hnow) fun op hop => hi.backed op hop.of_revert
  rw [hid, markRolledBack_known ht, LawfulMonad.bind_assoc]
  rcases hend with ⟨hok, hwritten⟩ | ⟨⟨e, herr⟩, hkept⟩
  · -- the document says that the transaction is rolled back
    refine ⟨_, .of_put ht hs, fun id hne => if_neg hne,
      Meets.bind_run (Q := fun _ _ => True) ⟨fun k hk => ?_, trivial⟩ ?_⟩
    · rcases hstages k hk with hk | ⟨-, hk⟩
      · exact hk.holdsSome .first
      · exact hk.holdsSome .last
    rw [hok]
    have hdone : ∀ r k, Intact g m.store (Book.put m.transaction? (t.reverted now)) held k →
        Meets (pure (({ m with history := m.history.put t.id (t.reverted now) } : Manager).settle
            options r) : Script (Result × Manager)) k
          (HoldsSome g m.store (Between m.transaction? (Book.put m.transaction? (t.reverted now))))
          fun out k => out.2.Holds g m.store (Book.put m.transaction? (t.reverted now)) held k :=
      fun r k hk => Meets.pure (hk.holdsSome .last) ⟨rfl, book_put m (t.reverted now), hk⟩
    simp only [pure_bind]
    split
    · exact hdone _ _ hwritten
    · have hids : ∀ i ∈ p.consumedBackups, Plain i := fun i hi' => by
        obtain ⟨op, hop, -, rfl⟩ := howes.used i hi'
        exact hi.ordered.plain t.id t ht op hop
      have hremove := removeBackups_meets_intact hwritten hids fun op hop hmem => ?_
      · exact (hremove.mono (fun k hk => hk.holdsSome .last) fun _ _ _ h => h).bind
          fun _ k _ hk => hdone _ k hk
      · obtain ⟨op', hop', -, heq⟩ := howes.used _ hmem
        refine hop.foreign (t := t.reverted now) hwritten.ordered (by simp [Book.put])
          (fun h => by cases h) hop' heq
  · -- nothing was recorded, and in memory the transaction is as before
    have hbook : ({ m with history := m.history.put t.id (restored t) } : Manager).transaction? =
        m.transaction? := by
      rw [restored_self hs (hi.ordered.unreverted _ _ ht hs), book_put, Book.put_self ht]
    refine ⟨_, .refl, fun _ _ => rfl,
      Meets.bind_run (Q := fun _ _ => True) ⟨fun k hk => ?_, trivial⟩ ?_⟩
    · rcases hstages k hk with hk | ⟨hok, -⟩
      · exact hk.holdsSome .first
      · rw [herr] at hok; cases hok
    rw [herr]
    simp only [pure_bind]
    exact Meets.pure (hkept.holdsSome .first) ⟨rfl, hbook, hkept⟩

theorem execute_intact (h : Holds g s b held m fs) (ht : b t.id = some t)
    (hout : ∀ k, K k → b.Aloof g k) (hgo : Goes C K (m.execute options t) fs) :
    ∀ k ∈ (m.execute options t).stages fs, Intact g s b held k :=
  fun k hk => h.intact.untouched (h.store ▸ execute_untouched (h.store.symm ▸ h.intact.keeps) hgo
    (fun k hk op hop => hout k hk t.id t ht op hop) k hk)

theorem rollback_holds (h : Holds g s b held m fs) (hnow : now.Regular)
    (hout : ∀ k, K k → b.Aloof g k) (hgo : Goes C K (m.rollback now options id) fs) :
    ∃ b', Unwinds now b b' ∧ Meets (m.rollback now options id) fs (HoldsSome g s (Between b b'))
      fun out k => out.2.Holds g s b' held k := by
  have hcalled : Holds g s b held m.attempted fs := h.counted rfl
  rw [rollback] at hgo ⊢
  cases ht : m.attempted.transaction? id with
  | none => exact ⟨b, .refl, Meets.pure (h.intact.holdsSome .first) hcalled⟩
  | some t =>
    simp only [ht] at hgo
    obtain rfl := hcalled.keyed id t ht
    have hget : b t.id = some t := by rw [← hcalled.book, ht]
    have hstarted : Holds g s b held (m.attempted.publish (.rollbackStarted t.id)) fs := h.counted rfl
    have hready : Ready (m.attempted.publish (.rollbackStarted t.id))
      (((m.attempted.publish (.rollbackStarted t.id)).execute options t).run fs).1 := execute_ready ht
    have hstages := execute_intact hstarted hget hout hgo.bind.1
    have hexecuted := hstarted.change (hstages _ (mem_stages_run _ fs))
    obtain ⟨b', hb', -, hmeets⟩ := finalize_holds hexecuted hget hready (execute_owes _ _ _ _) hnow
    exact ⟨b', hb', Meets.bind_run (Q := fun _ _ => True)
      ⟨fun k hk => (hstages k hk).holdsSome .first, trivial⟩ hmeets⟩

theorem rollbackInTurn_holds (h : Holds g s b held m fs) (hnow : now.Regular)
    (hout : ∀ k, K k → b.Aloof g k) (hgo : Goes C K (m.rollbackInTurn now options ts) fs) :
    ∃ b', Unwinds now b b' ∧
      Meets (m.rollbackInTurn now options ts) fs (HoldsSome g s (Between b b'))
        fun out k => out.2.Holds g s b' held k := by
  induction ts generalizing m fs b with
  | nil => exact ⟨b, .refl, Meets.pure (h.intact.holdsSome .first) h⟩
  | cons t ts ih =>
    rw [rollbackInTurn] at hgo ⊢
    obtain ⟨hgo₁, hgo₂⟩ := hgo.bind
    obtain ⟨b₁, hb₁, hfirst⟩ := rollback_holds h hnow hout hgo₁
    have hresult := hfirst.result
    generalize hrun : (m.rollback now options t.id).run fs = out at hgo₂ hresult
    obtain ⟨⟨r, m₁⟩, fs₁⟩ := out
    dsimp only at hgo₂ hresult
    split at hgo₂
    · next hstop =>
      refine ⟨b₁, hb₁, hfirst.bind_run ?_⟩
      rw [hrun]
      dsimp only
      rw [if_pos hstop]
      exact Meets.pure (hresult.intact.holdsSome .last) hresult
    · next hon =>
      obtain ⟨b₂, hb₂, hrest⟩ := ih hresult (fun k hk => (hout k hk).unwinds hb₁) hgo₂.bind.1
      have hbetween := hb₁.between hb₂
      refine ⟨b₂, hb₁.trans hb₂, (hfirst.mono (fun k hk => hk.mono fun _ => hbetween.early)
        fun _ _ _ h => h).bind_run ?_⟩
      rw [hrun]
      dsimp only
      rw [if_neg hon]
      exact (hrest.mono (fun k hk => hk.mono fun _ => hbetween.late) fun _ _ _ h => h).bind
        fun out k hk hout => Meets.pure hk hout

theorem executeEach_intact (h : Holds g s b held m fs) (hts : ∀ t ∈ ts, b t.id = some t)
    (hout : ∀ k, K k → b.Aloof g k) (hgo : Goes C K (m.executeEach options ts) fs) :
    ∀ k ∈ (m.executeEach options ts).stages fs, Intact g s b held k := by
  induction ts generalizing fs with
  | nil =>
    intro k hk
    rw [List.mem_singleton.1 hk]
    exact h.intact
  | cons t ts ih =>
    rw [executeEach] at hgo ⊢
    obtain ⟨hgo₁, hgo₂⟩ := hgo.bind
    have hfirst := execute_intact h (hts t List.mem_cons_self) hout hgo₁
    have hrest := ih (h.change (hfirst _ (mem_stages_run _ fs)))
      (fun u hu => hts u (List.mem_cons_of_mem _ hu)) hgo₂.bind.1
    intro k hk
    rcases (mem_stages_bind _ _ _ _).1 hk with hk | hk
    · exact hfirst k hk
    rcases (mem_stages_bind _ _ _ _).1 hk with hk | hk
    · exact hrest k hk
    · rw [List.mem_singleton.1 hk]
      exact hrest _ (mem_stages_run _ _)

theorem finalizeEach_holds (h : Holds g s b held m fs) (hnow : now.Regular)
    (hts : ∀ t ∈ ts, b t.id = some t) (hids : (ts.map (·.id)).Nodup)
    (howes : List.Forall₂ (fun t p => Owes t options p) ts ps) (hready : ∀ p ∈ ps, Ready m p) :
    ∃ b', Unwinds now b b' ∧ Meets (m.finalizeEach now options ps) fs (HoldsSome g s (Between b b'))
      fun out k => out.2.Holds g s b' held k := by
  induction howes generalizing m fs b with
  | nil => exact ⟨b, .refl, Meets.pure (h.intact.holdsSome .first) h⟩
  | @cons t p ts ps ho howes ih =>
    rw [finalizeEach]
    have hp := hready p List.mem_cons_self
    obtain ⟨b₁, hb₁, hothers, hfirst⟩ := finalize_holds h (hts t List.mem_cons_self) hp ho hnow
    have hone : ((m.finalize now options p).run fs).1.1.transactionId = p.result.transactionId ∧
        Rolled m options.dryRun [((m.finalize now options p).run fs).1.1]
          ((m.finalize now options p).run fs).1.2 := finalize_rolled hp
    obtain ⟨hid, hrolled⟩ := hone
    have hresult := hfirst.result
    generalize hrun : (m.finalize now options p).run fs = out at hresult hid hrolled
    obtain ⟨⟨r, m₁⟩, fs₁⟩ := out
    rw [List.map_cons, List.nodup_cons] at hids
    -- the others are as they were
    have hts' : ∀ u ∈ ts, b₁ u.id = some u := fun u hu => by
      rw [hothers u.id fun heq => hids.1 (heq ▸ List.mem_map_of_mem hu)]
      exact hts u (List.mem_cons_of_mem _ hu)
    obtain ⟨b₂, hb₂, hrest⟩ := ih hresult hts' hids.2 fun q hq =>
      (hready q (List.mem_cons_of_mem _ hq)).of_rolled hrolled fun heq => hids.1 (by
        rw [← ids_of_owes howes, ← ho.id, ← hid, heq]
        exact List.mem_map_of_mem hq)
    have hbetween := hb₁.between hb₂
    refine ⟨b₂, hb₁.trans hb₂, (hfirst.mono (fun k hk => hk.mono fun _ => hbetween.early)
      fun _ _ _ h => h).bind_run ?_⟩
    rw [hrun]
    exact (hrest.mono (fun k hk => hk.mono fun _ => hbetween.late) fun _ _ _ h => h).bind
      fun out k hk hout => Meets.pure hk hout

theorem executeEach_owes (m : Manager) (options : Options) (ts : List Transaction)
    (fs : FileSystem) :
    List.Forall₂ (fun t p => Owes t options p) ts ((m.executeEach options ts).run fs).1 := by
  induction ts generalizing fs with
  | nil => exact .nil
  | cons t ts ih =>
    simp only [executeEach, run_bind, run_pure]
    exact .cons (execute_owes m options t fs) (ih _)

theorem rollbackCheckpoint_holds (h : Holds g s b held m fs) (hnow : now.Regular)
    (hc : ∀ c, m.checkpoint? id = some c → c.transactionIds.Nodup)
    (hout : ∀ k, K k → b.Aloof g k) (hgo : Goes C K (m.rollbackCheckpoint now options id) fs) :
    ∃ b', Unwinds now b b' ∧
      Meets (m.rollbackCheckpoint now options id) fs (HoldsSome g s (Between b b'))
        fun out k => out.2.Holds g s b' held k := by
  rw [rollbackCheckpoint] at hgo ⊢
  cases hcp : m.checkpoint? id with
  | none => exact ⟨b, .refl, Meets.pure (h.intact.holdsSome .first) h⟩
  | some c =>
    simp only [hcp] at hgo
    have hmembers : ∀ t ∈ m.membersOf c, m.transaction? t.id = some t := fun t ht =>
      h.keyed.transaction?_of_member ht
    dsimp only
    split at hgo
    · next htogether =>
      rw [if_pos htogether]
      obtain ⟨hgo₁, -⟩ := hgo.bind
      rw [rollbackTogether] at hgo₁ ⊢
      have hcalled := announce_eq m (m.membersOf c)
      generalize (m.membersOf c).foldl (fun m t => m.attempted.publish (.rollbackStarted t.id)) m = m₁
        at hcalled hgo₁ ⊢
      obtain ⟨hgo₂, hgo₃⟩ := hgo₁.bind
      have h₁ : Holds g s b held m₁ fs := h.counted hcalled
      have hmembers₁ : ∀ t ∈ m.membersOf c, m₁.transaction? t.id = some t := fun t ht => by
        rw [h₁.book, ← h.book]; exact hmembers t ht
      have hmembers₂ : ∀ t ∈ m.membersOf c, b t.id = some t := fun t ht => by
        rw [← h.book]; exact hmembers t ht
      have hstages := executeEach_intact h₁ hmembers₂ hout hgo₂
      obtain ⟨-, hready⟩ := executeEach_ready options fs hmembers₁
      obtain ⟨b', hb', hmeets⟩ := finalizeEach_holds
        (h₁.change (hstages _ (mem_stages_run _ fs))) hnow hmembers₂
        (nodup_membersOf h.keyed (hc c hcp)) (executeEach_owes m₁ options _ fs) hready
      exact ⟨b', hb', (Meets.bind_run (Q := fun _ _ => True)
        ⟨fun k hk => (hstages k hk).holdsSome .first, trivial⟩ hmeets).bind
          fun out k hk hout => Meets.pure hk hout⟩
    · next hturns =>
      rw [if_neg hturns]
      obtain ⟨b', hb', hmeets⟩ := rollbackInTurn_holds h hnow hout hgo.bind.1
      exact ⟨b', hb', hmeets.bind fun out k hk hout => Meets.pure hk hout⟩

/-! ### Letting go -/

/-- The document of a transaction goes before its backups. -/
theorem purge_holds (h : Holds g s b held m fs) (id : String) :
    ∃ b', Loses b b' ∧ Meets (m.purge id) fs (HoldsSome g s (Between b b'))
      fun out k => out.2.Holds g s b' held k := by
  rw [purge]
  cases ht : m.transaction? id with
  | none => exact ⟨b, .refl, Meets.pure (h.intact.holdsSome .first) h⟩
  | some t =>
    obtain ⟨rfl, rfl, hi⟩ := h
    obtain ⟨hstages, hend⟩ := deleteTransaction_intact hi (hi.filed.proper id t ht).1
    rcases hend with ⟨⟨found, hok⟩, hgone⟩ | ⟨⟨e, herr⟩, hkept⟩
    · refine ⟨_, .strike _ id, Meets.bind_run (Q := fun _ _ => True) ⟨fun k hk => ?_, trivial⟩ ?_⟩
      · exact (hstages k hk).elim (·.holdsSome .first) (·.2.holdsSome .last)
      have hremove := removeFor_meets_intact (t := t) hgone (hi.ordered.plain id t ht) ?_
      · rw [hok]
        exact (hremove.mono (fun k hk => hk.holdsSome .last) fun _ _ _ h => h).bind fun _ k hk hi' =>
          Meets.pure hk ⟨rfl, funext fun j => transaction?_remove m id j, hi'⟩
      · intro op hop op' hop'
        rcases hop.2 with hheld | ⟨j, u, hu, -, hu'⟩
        · exact (hi.ordered.held_apart id t ht op' hop' op hheld).symm
        · obtain ⟨hne, hu⟩ := Book.eq_some_of_strike hu
          exact hi.ordered.apart j id u t hu ht hne op hu' op' hop'
    · refine ⟨m.transaction?, .refl, Meets.bind_run (Q := fun _ _ => True)
        ⟨fun k hk => ?_, trivial⟩ ?_⟩
      · rcases hstages k hk with hk | ⟨⟨found, hok⟩, -⟩
        · exact hk.holdsSome .first
        · rw [herr] at hok; cases hok
      · rw [herr]
        exact Meets.pure (hkept.holdsSome .first) ⟨rfl, rfl, hkept⟩

theorem purgeEach_holds (h : Holds g s b held m fs) (ids : List String) :
    ∃ b', Loses b b' ∧ Meets (m.purgeEach ids) fs (HoldsSome g s (Between b b'))
      fun out k => out.2.Holds g s b' held k := by
  induction ids generalizing m fs b with
  | nil => exact ⟨b, .refl, Meets.pure (h.intact.holdsSome .first) h⟩
  | cons id ids ih =>
    rw [purgeEach]
    obtain ⟨b₁, hb₁, hfirst⟩ := purge_holds h id
    obtain ⟨b₂, hb₂, hrest⟩ := ih hfirst.result
    have hbetween := hb₁.between hb₂
    refine ⟨b₂, hb₁.trans hb₂, (hfirst.mono (fun k hk => hk.mono fun _ => hbetween.early)
      fun _ _ _ h => h).bind_run ?_⟩
    exact (hrest.mono (fun k hk => hk.mono fun _ => hbetween.late) fun _ _ _ h => h).bind
      fun out k hk hout => Meets.pure hk hout

theorem enforceLimit_holds (h : Holds g s b held m fs) :
    ∃ b', Loses b b' ∧ Meets m.enforceLimit fs (HoldsSome g s (Between b b'))
      fun m' k => m'.Holds g s b' held k := by
  obtain ⟨b', hb', hmeets⟩ := purgeEach_holds h m.excess
  exact ⟨b', hb', hmeets.bind fun out k hk hout => Meets.pure hk hout⟩

theorem clear_holds {days : Option Nat} {x : Script (Nat × Manager)} (h : Holds g s b held m fs)
    (hx : m.clear? now days = some x) :
    ∃ b', Loses b b' ∧ Meets x fs (HoldsSome g s (Between b b'))
      fun out k => out.2.Holds g s b' held k := by
  cases days with
  | none =>
    obtain rfl := Option.some.inj hx
    exact purgeEach_holds h _
  | some days =>
    obtain ⟨cutoff, -, rfl⟩ := Option.map_eq_some_iff.1 hx
    exact purgeEach_holds h _

/-! ### Recording -/

structure Recordable (b : Book) (t : Transaction) : Prop where
  proper : Proper t.id
  new : b t.id = none
  regular : t.Regular
  unreverted : t.rollbackTimestamp = none

def underway (m : Manager) : List Operation := (m.current.map (·.operations)).getD []

theorem underway_of_current (h : m.current = some t) : m.underway = t.operations := by
  rw [underway, h]; rfl

/-- A completed transaction is written before others go, and may have to go at once itself. -/
theorem complete_holds (h : Holds g s b t.operations m fs) (hc : m.current = some t)
    (ht : Recordable b t) :
    ∃ b', Meets m.complete fs
      (HoldsSome g s fun x => ∀ id, x id = b id ∨ x id = b' id ∨
        id = t.id ∧ b' id = none ∧ x id = some { t with status := .completed })
      fun out k => out.2.Holds g s b' out.2.underway k := by
  obtain ⟨rfl, rfl, hi⟩ := h
  let done : Transaction := { t with status := .completed }
  have hordered : (Book.put m.transaction? done).Ordered [] :=
    hi.ordered.put (List.nil_subset _)
      ⟨ht.regular.operations, ht.regular.timestamp, ht.regular.rollbackTimestamp, ht.regular.metadata⟩
      (fun _ => ht.unreverted) hi.ordered.held_plain
      (fun id u hu _ op hop op' hop' => (hi.ordered.held_apart id u hu op' hop' op hop).symm)
      fun _ _ _ h => nomatch h
  obtain ⟨hstages, hend⟩ := saveTransaction_intact (t := done) hi ht.proper hordered
    fun op hop => hi.backed op hop.of_put
  -- with the new transaction in it, the book lies between, unless that goes at once
  have hput : ∀ b', Loses (Book.put m.transaction? done) b' → ∀ id,
      Book.put m.transaction? done id = m.transaction? id ∨ Book.put m.transaction? done id = b' id ∨
        id = t.id ∧ b' id = none ∧ Book.put m.transaction? done id = some done := by
    intro b' hloses id
    by_cases hid : id = t.id
    · exact .inr ((hloses id).imp Eq.symm fun hnone => ⟨hid, hnone, if_pos hid⟩)
    · exact .inl (if_neg hid)
  rw [complete]
  simp only [hc]
  rcases hend with ⟨hok, hwritten⟩ | ⟨⟨e, herr⟩, hkept⟩
  · have hkeep : Holds g m.store (Book.put m.transaction? done) [] (m.keep done)
        ((m.store.saveTransaction done).run fs).2 :=
      ⟨rfl, funext fun _ => transaction?_keep m done _, hwritten⟩
    obtain ⟨b', hloses, hmeets⟩ := enforceLimit_holds hkeep
    have hfewer : Fewer (m.keep done)
        ((m.keep done).enforceLimit.run ((m.store.saveTransaction done).run fs).2).1 :=
      enforceLimit_fewer _
    refine ⟨b', Meets.bind_run (Q := fun _ _ => True) ⟨fun k hk => ?_, trivial⟩ ?_⟩
    · rcases hstages k hk with hk | ⟨-, hk⟩
      · exact hk.holdsSome fun _ => .inl rfl
      · exact hk.holdsSome (hput b' hloses)
    rw [hok]
    refine (hmeets.mono (fun k hk => hk.mono fun x hx id => ?_) fun _ _ _ h => h).bind_run ?_
    · rcases hx id with heq | heq
      · rw [heq]; exact hput b' hloses id
      · exact .inr (.inl heq)
    · have hresult := hmeets.result
      generalize (m.keep done).enforceLimit.run ((m.store.saveTransaction done).run fs).2 = out
        at hfewer hresult ⊢
      have hleft : Intact g m.store b' out.1.underway out.2 := by
        have hnone : out.1.underway = [] := by rw [underway, hfewer.others]; rfl
        rw [hnone]
        exact hresult.intact
      exact Meets.pure (hleft.holdsSome fun _ => .inr (.inl rfl)) ⟨hresult.store, hresult.book, hleft⟩
  · refine ⟨m.transaction?, Meets.bind_run (Q := fun _ _ => True) ⟨fun k hk => ?_, trivial⟩ ?_⟩
    · rcases hstages k hk with hk | ⟨hok, -⟩
      · exact hk.holdsSome fun _ => .inl rfl
      · rw [herr] at hok; cases hok
    rw [herr]
    exact Meets.pure (hkept.holdsSome fun _ => .inl rfl) ⟨rfl, rfl, hkept⟩

/-- A transaction that is given up has no document, and nothing kept needs its backups. -/
theorem abort_holds (h : Holds g s b t.operations m fs) (hc : m.current = some t)
    (ht : Recordable b t) :
    Meets m.abort fs (HoldsSome g s (Between b b)) fun out k => out.2.Holds g s b out.2.underway k := by
  obtain ⟨rfl, rfl, hi⟩ := h
  obtain ⟨hstages, hend⟩ := deleteTransaction_intact hi ht.proper.1
  rw [Book.strike_self ht.new] at hstages hend
  rw [abort]
  simp only [hc]
  refine Meets.bind_run (Q := fun _ _ => True) ⟨fun k hk => ?_, trivial⟩ ?_
  · exact (hstages k hk).elim (·.holdsSome .first) (·.2.holdsSome .first)
  rcases hend with ⟨⟨found, hok⟩, hgone⟩ | ⟨⟨e, herr⟩, hkept⟩
  · rw [hok]
    have hremove := removeFor_meets_intact (t := t) (hgone.mono (List.nil_subset _))
      hgone.ordered.held_plain ?_
    · exact (hremove.mono (fun k hk => hk.holdsSome .first) fun _ _ _ h => h).bind fun _ k hk hi' =>
        Meets.pure hk ⟨rfl, rfl, hi'⟩
    · intro op hop op' hop'
      rcases hop.2 with hheld | ⟨id, u, hu, -, hu'⟩
      · cases hheld
      · exact hgone.ordered.held_apart id u hu op hu' op' hop'
  · rw [herr]
    refine Meets.pure (hkept.holdsSome .first) ⟨rfl, rfl, ?_⟩
    rw [underway_of_current hc]
    exact hkept

/-- An operation that was added under a new id has its backup. -/
theorem add_holds {kind : Operation.Kind} {path : Path} {details : Operation.Details}
    (h : Holds g s b m.underway m fs) (hid : Plain id)
    (hbook : ∀ j u, b j = some u → ∀ op ∈ u.operations, op.id ≠ id)
    (hheld : ∀ op ∈ m.underway, op.id ≠ id) :
    Meets (m.add id now kind path details) fs (HoldsSome g s (Between b b))
      fun out k => out.2.Holds g s b out.2.underway k := by
  obtain ⟨rfl, rfl, hi⟩ := h
  have hstay : ∀ (r : Except Error String) k, Intact g m.store m.transaction? m.underway k →
      Meets (pure (r, m) : Script (Except Error String × Manager)) k
        (HoldsSome g m.store (Between m.transaction? m.transaction?))
        fun out k => out.2.Holds g m.store m.transaction? out.2.underway k := fun r k hk =>
    Meets.pure (hk.holdsSome .first) ⟨rfl, rfl, hk⟩
  have hfree : ∀ op, Book.Needs m.transaction? m.underway op → op.id ≠ id := by
    rintro op ⟨-, hop | ⟨j, u, hu, -, hop⟩⟩
    · exact hheld op hop
    · exact hbook j u hu op hop
  rw [add]
  cases hc : m.current with
  | none => exact hstay _ fs hi
  | some t =>
    dsimp only
    split
    · exact hstay _ fs hi
    have hlooks := looks_previousBytes (m.root.normalize path) details.previousContent
    refine Meets.bind_run (Q := fun _ _ => True) ⟨fun k hk => ?_, trivial⟩ ?_
    · rw [hlooks fs k hk]
      exact hi.holdsSome .first
    rw [hlooks.run fs]
    cases ((previousBytes (m.root.normalize path) details.previousContent).run fs).1 with
    | error e => exact hstay _ fs hi
    | ok previous =>
      dsimp only
      -- where the operation needs no backup, or has it, it can be added
      have hadd : ∀ k, Intact g m.store m.transaction? m.underway k →
          ((m.operationOf id now kind path details previous).requiresBackup = true →
            BackedUp g m.store k (m.operationOf id now kind path details previous)) →
          Meets (pure (.ok id, m.append t (m.operationOf id now kind path details previous)) :
              Script (Except Error String × Manager)) k
            (HoldsSome g m.store (Between m.transaction? m.transaction?))
            fun out k => out.2.Holds g m.store m.transaction? out.2.underway k := by
        intro k hk hbacked
        refine Meets.pure (hk.holdsSome .first) ⟨rfl, rfl, ?_⟩
        rw [underway_of_current hc] at hk
        exact hk.hold hid hbook hbacked
      cases previous with
      | none =>
        refine Meets.bind_run (Q := fun _ _ => True) ⟨fun k hk => ?_, trivial⟩ ?_
        · rw [List.mem_singleton.1 hk]
          exact hi.holdsSome .first
        · exact hadd fs hi fun hreq => by simp [requiresBackup_operationOf] at hreq
      | some content =>
        rw [backUp]
        split
        · next hreq =>
          refine ((write_meets_intact hi hid hfree).mono (fun k hk => hk.holdsSome .first)
            fun _ _ _ h => h).bind fun r k hk hr => ?_
          cases r with
          | error e => exact hstay _ k hr.1
          | ok u =>
            obtain ⟨hat, ha⟩ := hr.2 rfl
            exact hadd k hr.1 fun _ => ⟨content, hat, rfl, ha⟩
        · next hreq =>
          exact hadd fs hi fun hc => absurd hc hreq

/-! ### Checkpoints -/

theorem createCheckpoint_holds {name description : String} {chosen : Option (List String)}
    {metadata : Metadata} (h : Holds g s b m.underway m fs) (hid : Plain id) (hnow : now.Regular)
    (hmetadata : metadata.Exact) :
    Meets (m.createCheckpoint id now name description chosen metadata) fs (HoldsSome g s (Between b b))
      fun out k => out.2.Holds g s b out.2.underway k := by
  obtain ⟨rfl, rfl, hi⟩ := h
  rw [createCheckpoint]
  cases hs : m.selection chosen with
  | error e => exact Meets.pure (hi.holdsSome .first) ⟨rfl, rfl, hi⟩
  | ok ids =>
    have hsave := saveCheckpoint_meets_intact
      (c := Checkpoint.create id now name description ids metadata) hi hid ⟨hnow, hmetadata⟩
      (Checkpoint.nodup_firsts _ _)
    refine (hsave.mono (fun k hk => hk.holdsSome .first) fun _ _ _ h => h).bind fun r k hk hi' => ?_
    cases r with
    | error e => exact Meets.pure hk ⟨rfl, rfl, hi'⟩
    | ok _ => exact Meets.pure hk ⟨rfl, rfl, hi'⟩

theorem deleteCheckpoint_holds (h : Holds g s b m.underway m fs)
    (hplain : ∀ c, m.checkpoint? id = some c → Plain id) :
    Meets (m.deleteCheckpoint id) fs (HoldsSome g s (Between b b))
      fun out k => out.2.Holds g s b out.2.underway k := by
  obtain ⟨rfl, rfl, hi⟩ := h
  rw [deleteCheckpoint]
  split
  · next hhas =>
    obtain ⟨c, hc⟩ := Option.isSome_iff_exists.1 hhas
    have hdelete := deleteCheckpoint_meets_intact hi (hplain c hc)
    refine (hdelete.mono (fun k hk => hk.holdsSome .first) fun _ _ _ h => h).bind fun r k hk hi' => ?_
    cases r with
    | error e => exact Meets.pure hk ⟨rfl, rfl, hi'⟩
    | ok _ => exact Meets.pure hk ⟨rfl, rfl, hi'⟩
  · exact Meets.pure (hi.holdsSome .first) ⟨rfl, rfl, hi⟩

end Manager
end Retrace
