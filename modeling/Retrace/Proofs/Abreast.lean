import Retrace.Proofs.Recovery

/-!
Managers whose store holds what they keep (`Abreast`), and the requests they meet. Whatever a request
does, it leaves such a manager so, and at every stage of it the store holds each transaction as before
or as afterwards (`turn_abreast`).
-/
namespace Retrace

open FileSystem Retrace.Path Script
open Rollback (Options Result)
open Book (Between)

namespace Request

/-- A request whose times can be written, and whose metadata have no reals in them. -/
def Regular : Request → Prop
  | start _ now _ _ _ metadata => now.Regular ∧ metadata.Exact
  | add _ now _ _ details =>
    now.Regular ∧ (∀ n ∈ details.previousMode, n < 2 ^ 32) ∧ details.metadata.Exact
  | rollback now _ _ | rollbackCheckpoint now _ _ => now.Regular
  | createCheckpoint _ now _ _ _ metadata => now.Regular ∧ metadata.Exact
  | _ => True

/-- The request completes a transaction that has to make room at once. -/
def Passes (r : Request) (m : Manager) (b' : Book) (id : String) (t? : Option Transaction) : Prop :=
  r = .complete ∧ ∃ t, m.current = some t ∧ id = t.id ∧ b' id = none ∧
    t? = some { t with status := .completed }

/-- Each transaction is as before a request or as in what it leaves, or passes. -/
def Leaves (r : Request) (m : Manager) (b' x : Book) : Prop :=
  ∀ id, x id = m.transaction? id ∨ x id = b' id ∨ r.Passes m b' id (x id)

/-- A request that gives out a new id, if any, while no recorded path leads into the store. -/
structure Fair (g : Grounds) (ids : List String) (m : Manager) (fs : FileSystem) (r : Request) :
    Prop where
  regular : r.Regular
  new : ∀ i ∈ r.newId?, i ∉ ids ∧ Proper i
  aloof : ∀ k ∈ (r.perform m).stages fs, Book.Aloof g m.transaction? k

end Request

namespace Manager

variable {g : Grounds} {ids : List String} {m m' : Manager} {fs fs' : FileSystem} {r : Request}
  {t t' : Transaction} {b b' : Book} {now : Instant} {id : String}

/-- The store holds what a manager keeps, and what is under way can be told by a document. -/
structure Abreast (g : Grounds) (ids : List String) (m : Manager) (fs : FileSystem) : Prop where
  orderly : Orderly m
  intact : Intact g m.store m.transaction? m.underway fs
  current : ∀ t, m.current = some t → Recordable m.transaction? t
  known : ∀ t, m.Records t → t.id ∈ ids ∧ ∀ op ∈ t.operations, op.id ∈ ids
  checkpoints : ∀ id c, m.checkpoint? id = some c → Plain id

theorem Abreast.holds (h : Abreast g ids m fs) :
    Holds g m.store m.transaction? m.underway m fs := ⟨rfl, rfl, h.intact⟩

theorem Abreast.holds_current (h : Abreast g ids m fs) (hc : m.current = some t) :
    Holds g m.store m.transaction? t.operations m fs := by
  rw [← underway_of_current hc]
  exact h.holds

theorem Abreast.fresh (h : Abreast g ids m fs) (hnew : ∀ i ∈ r.newId?, i ∉ ids) : r.Fresh m :=
  h.orderly.keyed.fresh (fun id t ht => (h.known t (.inr ⟨id, ht⟩)).1) hnew

def Weathers (g : Grounds) (m : Manager) (fs : FileSystem) (r : Request) : Prop :=
  ∃ b', Meets (r.perform m) fs (HoldsSome g m.store (r.Leaves m b'))
    fun out k => out.2.Holds g m.store b' out.2.underway k

section

variable {b' : Book} {k : FileSystem} {id name description command : String} {metadata : Metadata}
  {kind : Operation.Kind} {p : Path} {details : Operation.Details} {options : Options}
  {chosen : Option (List String)} {days : Option Nat}

theorem HoldsSome.leaves (r : Request) (h : HoldsSome g m.store (Between m.transaction? b') k) :
    HoldsSome g m.store (r.Leaves m b') k :=
  h.mono fun _ hx id => (hx id).imp_right .inl

theorem weathers_idle (h : Abreast g ids m fs) (hr : r.perform m = pure (rs, m)) : Weathers g m fs r := by
  refine ⟨m.transaction?, ?_⟩
  rw [hr]
  exact Meets.pure (h.intact.holdsSome fun _ => .inl rfl) h.holds

theorem weathers_bind {α : Type} {s : Script (α × Manager)} (f : α → List Result)
    (hs : Meets s fs (HoldsSome g m.store (r.Leaves m b'))
      fun out k => out.2.Holds g m.store b' out.2.underway k)
    (hr : r.perform m = s >>= fun out => pure (f out.1, out.2)) : Weathers g m fs r := by
  refine ⟨b', ?_⟩
  rw [hr]
  exact hs.bind fun out k hk hout => Meets.pure hk hout

theorem weathers_still {α : Type} {s : Script (α × Manager)} (f : α → List Result)
    (hs : Meets s fs (HoldsSome g m.store (Between m.transaction? b'))
      fun out k => out.2.Holds g m.store b' m.underway k)
    (hsame : (s.run fs).1.2.underway = m.underway)
    (hr : r.perform m = s >>= fun out => pure (f out.1, out.2)) : Weathers g m fs r := by
  refine ⟨b', ?_⟩
  rw [hr]
  exact (hs.mono (fun _ => HoldsSome.leaves r) fun _ _ _ h => h).bind_run
    (Meets.pure (HoldsSome.leaves r (hs.stages _ (mem_stages_run _ fs))) (hsame ▸ hs.result))

theorem start_weathers (h : Abreast g ids m fs) :
    Weathers g m fs (.start id now name description command metadata) := by
  cases hc : m.current with
  | some t => exact weathers_idle h (by rw [Request.perform, start, hc])
  | none =>
    refine ⟨m.transaction?, ?_⟩
    rw [Request.perform, start, hc]
    refine Meets.pure (h.intact.holdsSome fun _ => .inl rfl) ⟨rfl, rfl, ?_⟩
    exact h.intact.mono (List.nil_subset _)

theorem add_weathers (h : Abreast g ids m fs) (hr : Request.Fair g ids m fs (.add id now kind p details)) :
    Weathers g m fs (.add id now kind p details) := by
  have hfree : ∀ t, m.Records t → ∀ op ∈ t.operations, op.id ≠ id := fun t ht op hop heq =>
    (hr.new id rfl).1 (heq ▸ (h.known t ht).2 op hop)
  have hheld : ∀ op ∈ m.underway, op.id ≠ id := fun op hop => by
    cases hc : m.current with
    | none => rw [underway, hc] at hop; cases hop
    | some t => exact hfree t (.inl hc) op (underway_of_current hc ▸ hop)
  have hadd : Meets (m.add id now kind p details) fs
      (HoldsSome g m.store (Between m.transaction? m.transaction?))
      fun out k => out.2.Holds g m.store m.transaction? out.2.underway k :=
    add_holds h.holds (hr.new id rfl).2.1 (fun j u hu => hfree u (.inr ⟨j, hu⟩)) hheld
  exact weathers_bind (fun _ => []) (hadd.mono (fun _ => HoldsSome.leaves _) fun _ _ _ h => h) rfl

theorem complete_weathers (h : Abreast g ids m fs) : Weathers g m fs .complete := by
  cases hc : m.current with
  | none => exact weathers_idle h (by rw [Request.perform, complete, hc]; rfl)
  | some t =>
    obtain ⟨b', hmeets⟩ := complete_holds (h.holds_current hc) hc (h.current t hc)
    refine weathers_bind (fun _ => []) (hmeets.mono (fun k hk => hk.mono fun x hx id => ?_) fun _ _ _ h => h) rfl
    exact (hx id).imp_right (.imp_right fun hpass => ⟨rfl, t, hc, hpass⟩)

theorem abort_weathers (h : Abreast g ids m fs) : Weathers g m fs .abort := by
  cases hc : m.current with
  | none => exact weathers_idle h (by rw [Request.perform, abort, hc]; rfl)
  | some t =>
    have habort := abort_holds (h.holds_current hc) hc (h.current t hc)
    exact weathers_bind (fun _ => []) (habort.mono (fun _ => HoldsSome.leaves _) fun _ _ _ h => h) rfl

theorem rollback_weathers (h : Abreast g ids m fs) (hr : Request.Fair g ids m fs (.rollback now options id)) :
    Weathers g m fs (.rollback now options id) := by
  have hgo : Goes (fun _ _ => True) (Book.Aloof g m.transaction?)
      (Request.perform m (.rollback now options id)) fs := ⟨fun _ _ => trivial, hr.aloof⟩
  obtain ⟨b', -, hmeets⟩ := rollback_holds h.holds hr.regular (fun _ h => h) hgo.bind.1
  have hrolled : Rolled m options.dryRun [((m.rollback now options id).run fs).1.1]
      ((m.rollback now options id).run fs).1.2 := rollback_rolled (h.orderly.keyed id)
  exact weathers_still (fun r => [r]) hmeets (by rw [underway, hrolled.others]; rfl) rfl

theorem createCheckpoint_weathers (h : Abreast g ids m fs)
    (hr : Request.Fair g ids m fs (.createCheckpoint id now name description chosen metadata)) :
    Weathers g m fs (.createCheckpoint id now name description chosen metadata) := by
  have hcreate : Meets (m.createCheckpoint id now name description chosen metadata) fs
      (HoldsSome g m.store (Between m.transaction? m.transaction?))
      fun out k => out.2.Holds g m.store m.transaction? out.2.underway k :=
    createCheckpoint_holds h.holds (hr.new id rfl).2.1 hr.regular.1 hr.regular.2
  exact weathers_bind (fun _ => []) (hcreate.mono (fun _ => HoldsSome.leaves _) fun _ _ _ h => h) rfl

theorem deleteCheckpoint_weathers (h : Abreast g ids m fs) : Weathers g m fs (.deleteCheckpoint id) :=
  weathers_bind (fun _ => []) ((deleteCheckpoint_holds h.holds (h.checkpoints id)).mono
    (fun _ => HoldsSome.leaves _) fun _ _ _ h => h) rfl

theorem rollbackCheckpoint_weathers (h : Abreast g ids m fs)
    (hr : Request.Fair g ids m fs (.rollbackCheckpoint now options id)) :
    Weathers g m fs (.rollbackCheckpoint now options id) := by
  have hgo : Goes (fun _ _ => True) (Book.Aloof g m.transaction?)
      (Request.perform m (.rollbackCheckpoint now options id)) fs := ⟨fun _ _ => trivial, hr.aloof⟩
  obtain ⟨b', -, hmeets⟩ := rollbackCheckpoint_holds h.holds hr.regular (h.orderly.checkpoints id)
    (fun _ h => h) hgo.bind.1
  have hrolled : Rolled m options.dryRun
      (((m.rollbackCheckpoint now options id).run fs).1.1.toOption.getD [])
      ((m.rollbackCheckpoint now options id).run fs).1.2 :=
    rollbackCheckpoint_rolled h.orderly.keyed (h.orderly.checkpoints id)
  exact weathers_still (fun r => r.toOption.getD []) hmeets (by rw [underway, hrolled.others]; rfl) rfl

theorem clear_weathers (h : Abreast g ids m fs) : Weathers g m fs (.clear now days) := by
  cases hx : m.clear? now days with
  | none => exact weathers_idle h (by rw [Request.perform, hx])
  | some x =>
    obtain ⟨b', -, hmeets⟩ := clear_holds h.holds hx
    exact weathers_still (fun _ => []) hmeets (by rw [underway, (clear_fewer fs hx).others]; rfl)
      (by rw [Request.perform, hx])

end

theorem perform_meets (h : Abreast g ids m fs) (hr : r.Fair g ids m fs) :
    ∃ b', Meets (r.perform m) fs
      (HoldsSome g m.store (r.Leaves m b'))
      fun out k => out.2.Holds g m.store b' out.2.underway k :=
  match r, hr with
  | .start .., _ => start_weathers h
  | .add .., hr => add_weathers h hr
  | .complete, _ => complete_weathers h
  | .abort, _ => abort_weathers h
  | .rollback .., hr => rollback_weathers h hr
  | .createCheckpoint .., hr => createCheckpoint_weathers h hr
  | .deleteCheckpoint .., _ => deleteCheckpoint_weathers h
  | .rollbackCheckpoint .., hr => rollbackCheckpoint_weathers h hr
  | .clear .., _ => clear_weathers h

/-- What is recorded after a turn that neither opens a transaction nor adds to one was recorded
before. -/
theorem records_of_lawful {s : Turn} (h : s.Lawful)
    (hc : ∀ t', s.after.current = some t' →
      ∃ t, s.before.current = some t ∧ t' = { t with status := t'.status })
    (ht' : s.after.Records t') :
    ∃ t, s.before.Records t ∧ t.id = t'.id ∧ t.operations = t'.operations := by
  rcases ht' with ht' | ⟨id, ht'⟩
  · obtain ⟨t, ht, heq⟩ := hc t' ht'
    exact ⟨t, .inl ht, by rw [heq], by rw [heq]⟩
  · cases ht : s.before.transaction? id with
    | none =>
      obtain ⟨t, htc, rfl, -⟩ := h.entered id t' ht ht'
      exact ⟨t, .inl htc, rfl, rfl⟩
    | some t =>
      have hrecord := (h.kept id t t' ht ht').1.record
      exact ⟨t, .inr ⟨id, ht⟩, by rw [hrecord], by rw [hrecord]⟩

theorem Recordable.goesOn (h : Recordable b t) (heq : t' = { t with status := t'.status })
    (hnew : b' t'.id = none) : Recordable b' t' := by
  rw [heq] at hnew ⊢
  exact ⟨h.proper, hnew,
    ⟨h.regular.operations, h.regular.timestamp, h.regular.rollbackTimestamp, h.regular.metadata⟩,
    h.unreverted⟩

theorem Recordable.start {name description command : String} {metadata : Metadata} (hid : Proper id)
    (hnew : b id = none) (hnow : now.Regular) (hmetadata : metadata.Exact) :
    Recordable b (.start id now name description command metadata) where
  proper := hid
  new := hnew
  regular := ⟨by simp [Transaction.start], hnow, nofun, hmetadata⟩
  unreverted := rfl

theorem Recordable.append {kind : Operation.Kind} {p : Path} {details : Operation.Details}
    {previous : Option Bytes} (h : Recordable b t) (hnow : now.Regular)
    (hmode : ∀ n ∈ details.previousMode, n < 2 ^ 32) (hmetadata : details.metadata.Exact) :
    Recordable b { t with
      operations := t.operations ++ [m.operationOf id now kind p details previous] } := by
  have hexact : (m.operationOf id now kind p details previous).metadata.Exact := by
    dsimp only [operationOf]
    split
    · exact hmetadata.set _ fun _ => by simp [Json.isReadable]
    · exact hmetadata
  refine ⟨h.proper, h.new,
    ⟨fun op hop => ?_, h.regular.timestamp, h.regular.rollbackTimestamp, h.regular.metadata⟩,
    h.unreverted⟩
  rcases List.mem_append.1 hop with hop | hop
  · exact h.regular.operations op hop
  · rw [List.mem_singleton.1 hop]
    exact ⟨hmode, hnow, hexact⟩

/-- A turn that neither opens a transaction nor adds to one. -/
theorem Abreast.turned (h : Abreast g ids m fs) (hr : r.Fair g ids m fs)
    (hafter : (r.turn m fs).after = m')
    (hc : ∀ t', m'.current = some t' → ∃ t, m.current = some t ∧ t' = { t with status := t'.status })
    (hcheckpoints : ∀ id c, m'.checkpoint? id = some c → Plain id) :
    Abreast g (ids ++ r.newId?.toList) (r.turn m fs).after (r.turn m fs).left := by
  have hfresh := h.fresh fun i hi => (hr.new i hi).1
  obtain ⟨hlawful, ho⟩ := turn_lawful h.orderly hfresh fs
  obtain ⟨b', hmeets⟩ := perform_meets h hr
  obtain ⟨hstore, rfl, hi⟩ := hmeets.result
  change (r.turn m fs).after.store = m.store at hstore
  rw [← hafter] at hc hcheckpoints
  refine
    { orderly := ho
      intact := by rw [hstore]; exact hi
      current := fun t' ht' => ?_
      known := fun t' ht' => ?_
      checkpoints := hcheckpoints }
  · obtain ⟨t, ht, heq⟩ := hc t' ht'
    exact (h.current t ht).goesOn heq (ho.current t' ht').2
  · obtain ⟨t, ht, hid, hops⟩ := records_of_lawful hlawful hc ht'
    obtain ⟨hknown, hknown'⟩ := h.known t ht
    exact ⟨List.mem_append_left _ (hid ▸ hknown),
      fun op hop => List.mem_append_left _ (hknown' op (hops ▸ hop))⟩

theorem Abreast.turned_still (h : Abreast g ids m fs) (hr : r.Fair g ids m fs)
    (hafter : (r.turn m fs).after = m') (hc : m'.current = m.current)
    (hcheckpoints : m'.checkpoints = m.checkpoints) :
    Abreast g (ids ++ r.newId?.toList) (r.turn m fs).after (r.turn m fs).left :=
  h.turned hr hafter (fun t ht => ⟨t, hc ▸ ht, rfl⟩) fun id c hcp =>
    h.checkpoints id c (by rw [checkpoint?, ← hcheckpoints]; exact hcp)

theorem start_abreast {name description command : String} {metadata : Metadata}
    (h : Abreast g ids m fs)
    (hr : (Request.start id now name description command metadata).Fair g ids m fs) :
    let turn := (Request.start id now name description command metadata).turn m fs
    Abreast g (ids ++ [id]) turn.after turn.left := by
  intro turn
  cases hc : m.current with
  | some t =>
    have hafter : turn.after = m := by
      simp only [turn, Request.turn, Request.perform, run_pure, start, hc]
    exact h.turned_still hr hafter rfl rfl
  | none =>
    have hfresh := h.fresh fun i hi => (hr.new i hi).1
    obtain ⟨-, ho⟩ := turn_lawful h.orderly hfresh fs
    obtain ⟨b', hmeets⟩ := perform_meets h hr
    have hresult := hmeets.result
    obtain ⟨⟨hnow, hmetadata⟩, hnew, -⟩ := hr
    simp only [turn, Request.turn, Request.perform, run_pure, start, hc] at ho hresult ⊢
    obtain ⟨-, rfl, hi⟩ := hresult
    refine
      { orderly := ho, intact := hi
        current := fun t ht => ?_
        known := fun t ht => ?_
        checkpoints := h.checkpoints }
    · obtain rfl := Option.some.inj ht
      exact .start (hnew id rfl).2 hfresh hnow hmetadata
    · rcases ht with ht | ⟨j, ht⟩
      · obtain rfl := Option.some.inj ht
        exact ⟨by simp [Transaction.start], by simp [Transaction.start]⟩
      · obtain ⟨hknown, hknown'⟩ := h.known t (.inr ⟨j, ht⟩)
        exact ⟨List.mem_append_left _ hknown, fun op hop => List.mem_append_left _ (hknown' op hop)⟩

theorem add_abreast {kind : Operation.Kind} {p : Path} {details : Operation.Details}
    (h : Abreast g ids m fs) (hr : (Request.add id now kind p details).Fair g ids m fs) :
    let turn := (Request.add id now kind p details).turn m fs
    Abreast g (ids ++ [id]) turn.after turn.left := by
  intro turn
  have hafter : turn.after = ((m.add id now kind p details).run fs).1.2 := by
    simp only [turn, Request.turn, Request.perform, run_bind, run_pure]
  rcases add_cases m fs id now kind p details with hstay | ⟨t, previous, hc, -, happend⟩
  · exact h.turned_still hr (hafter.trans hstay) rfl rfl
  · rw [happend] at hafter
    obtain ⟨-, ho⟩ := turn_lawful h.orderly (h.fresh fun i hi => (hr.new i hi).1) fs
    obtain ⟨b', hmeets⟩ := perform_meets h hr
    obtain ⟨hstore, hbook, hi⟩ := hmeets.result
    obtain ⟨⟨hnow, hmode, hmetadata⟩, -, -⟩ := hr
    change Orderly turn.after at ho
    change turn.after.store = m.store at hstore
    change turn.after.transaction? = b' at hbook
    change Intact g m.store b' turn.after.underway turn.left at hi
    rw [← hstore, ← hbook] at hi
    rw [hafter] at ho hi ⊢
    refine
      { orderly := ho, intact := hi
        current := fun u hu => ?_
        known := fun u hu => ?_
        checkpoints := h.checkpoints }
    · obtain rfl := Option.some.inj hu
      exact (h.current t hc).append hnow hmode hmetadata
    · rcases hu with hu | ⟨j, hu⟩
      · obtain rfl := Option.some.inj hu
        obtain ⟨hknown, hknown'⟩ := h.known t (.inl hc)
        refine ⟨List.mem_append_left _ hknown, fun op hop => ?_⟩
        rcases List.mem_append.1 hop with hop | hop
        · exact List.mem_append_left _ (hknown' op hop)
        · rw [List.mem_singleton.1 hop]
          exact List.mem_append_right _ List.mem_cons_self
      · obtain ⟨hknown, hknown'⟩ := h.known u (.inr ⟨j, hu⟩)
        exact ⟨List.mem_append_left _ hknown, fun op hop => List.mem_append_left _ (hknown' op hop)⟩

/-- A fair request leaves the store as it is told to, at every stage of it. -/
theorem turn_abreast (h : Abreast g ids m fs) (hr : r.Fair g ids m fs) :
    Abreast g (ids ++ r.newId?.toList) (r.turn m fs).after (r.turn m fs).left ∧
      ∀ k ∈ (r.perform m).stages fs,
        HoldsSome g m.store (r.Leaves m (r.turn m fs).after.transaction?) k := by
  obtain ⟨b', hmeets⟩ := perform_meets h hr
  have hbook : (r.turn m fs).after.transaction? = b' := hmeets.result.book
  refine ⟨?_, fun k hk => by rw [← hbook] at hmeets; exact hmeets.stages k hk⟩
  have hafter : (r.turn m fs).after = ((r.perform m).run fs).1.2 := rfl
  cases r with
  | start => exact start_abreast h hr
  | add => exact add_abreast h hr
  | complete =>
    rw [Request.perform, run_bind, run_pure] at hafter
    rcases complete_cases m fs with heq | ⟨t, hc, ⟨e, heq⟩ | ⟨m₁, hfewer, heq⟩⟩
    · exact h.turned_still hr (hafter.trans heq) rfl rfl
    · exact h.turned hr (hafter.trans heq)
        (fun t' ht' => ⟨t, hc, by rw [← Option.some.inj ht']⟩) h.checkpoints
    · rw [hfewer.others] at heq
      exact h.turned hr (hafter.trans heq) (fun t' ht' => by cases ht') h.checkpoints
  | abort =>
    rw [Request.perform, run_bind, run_pure] at hafter
    rcases abort_cases m fs with heq | heq
    · exact h.turned_still hr (hafter.trans heq) rfl rfl
    · exact h.turned hr (hafter.trans heq) (fun t' ht' => by cases ht') h.checkpoints
  | rollback now options id =>
    rw [Request.perform, run_bind, run_pure] at hafter
    exact h.turned_still hr (hafter.trans (rollback_rolled (h.orderly.keyed id)).others) rfl rfl
  | createCheckpoint id now name description chosen metadata =>
    rw [Request.perform, run_bind, run_pure] at hafter
    rcases createCheckpoint_cases m fs id now name description chosen metadata with heq | ⟨c, -, heq⟩
    · exact h.turned_still hr (hafter.trans heq) rfl rfl
    · refine h.turned hr (hafter.trans heq) (fun t ht => ⟨t, ht, rfl⟩) fun j d hd => ?_
      have hget : (m.checkpoints.put id c).get? j = some d := hd
      rw [Index.get?_put] at hget
      split at hget
      · next hj => rw [hj]; exact (hr.new id rfl).2.1
      · exact h.checkpoints j d hget
  | deleteCheckpoint id =>
    rw [Request.perform, run_bind, run_pure] at hafter
    rcases deleteCheckpoint_cases m fs id with heq | heq
    · exact h.turned_still hr (hafter.trans heq) rfl rfl
    · refine h.turned hr (hafter.trans heq) (fun t ht => ⟨t, ht, rfl⟩) fun j d hd => ?_
      have hget : (m.checkpoints.remove id).get? j = some d := hd
      rw [Index.get?_remove] at hget
      split at hget
      · cases hget
      · exact h.checkpoints j d hget
  | rollbackCheckpoint now options id =>
    rw [Request.perform, run_bind, run_pure] at hafter
    exact h.turned_still hr (hafter.trans (rollbackCheckpoint_rolled h.orderly.keyed
      (h.orderly.checkpoints id)).others) rfl rfl
  | clear now days =>
    rw [Request.perform] at hafter
    cases hx : m.clear? now days with
    | none => exact h.turned_still hr (hafter.trans (by rw [hx, run_pure])) rfl rfl
    | some x =>
      simp only [hx, run_bind, run_pure] at hafter
      exact h.turned_still hr (hafter.trans (clear_fewer fs hx).others) rfl rfl

end Manager
end Retrace
