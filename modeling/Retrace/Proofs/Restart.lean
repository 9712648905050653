import Retrace.Proofs.Abreast
import Retrace.Proofs.Opening
import Retrace.Proofs.RoundTrip

/-!
Managers that are opened on what is left when another one stops, between any two calls of a request:
each transaction is found as it was before the request or as it is afterwards, and what is completed
has its backups (`opened_after_stop`). They are abreast of the store as the others were, so this holds
however often everything stops (`Reached.abreast`).
-/
namespace Retrace

open FileSystem Retrace.Path Script Store

namespace Manager

variable {g : Grounds} {root : Path} {settings : Settings} {ids : List String} {m x : Manager}
  {fs fs' fs₀ k : FileSystem} {r : Request} {b : Book} {held : List Operation} {now : Instant}
  {s : Script (Except Error Manager)}

/-! ### Loading -/

structure Loaded (m : Manager) (b : Book) (x : Manager) : Prop where
  others : x = { m with history := x.history, checkpoints := x.checkpoints }
  book : x.transaction? = b.legible
  checkpoints : ∀ id c, x.checkpoint? id = some c → c.transactionIds.Nodup ∧ Plain id

theorem load_intact (h : Intact g m.store b held fs) :
    ∃ x, m.load.run fs = (.ok x, fs) ∧ Loaded m b x := by
  obtain ⟨ts, x, hload, rfl, hbook⟩ := load_filed (Store.ensureDirectories_run h.keeps.toStands h.fits) h.keeps
    h.readable h.filed h.ordered.keyed
  refine ⟨_, hload, rfl, hbook, fun id c hc => ?_⟩
  obtain ⟨hmem, rfl⟩ := Index.mem_of_get?_ofValues hc
  obtain ⟨w, hw, hsays⟩ := List.mem_filterMap.1 hmem
  obtain ⟨e, he⟩ := Option.isSome_iff_exists.1 (mem_children.1 hw)
  obtain ⟨n, content, rfl⟩ := h.keeps.files _ (by simp [Grounds.folders]) w e he
  obtain ⟨hname, hchosen⟩ := h.chosen w n content he (isDocumentName_of_documentAt hsays)
  exact hchosen c (h.keeps.checkpoints.documentAt hname he hsays)

/-! ### Opening -/

structure Seated (root : Path) (settings : Settings) (m : Manager) : Prop where
  tidy : ∃ names, (∀ w ∈ names, IsName w) ∧ root = ofNames true names
  capacity : (EventLog.create? settings.eventCapacity).isSome
  store : m.store = ⟨root.join settings.stateDirectory⟩

theorem open_seated {project : Path} (hopen : open? project settings now = some s)
    (hload : s.run fs₀ = (.ok m, fs)) : Seated m.root settings m := by
  obtain ⟨events, hevents, rfl⟩ := Option.map_eq_some_iff.1 hopen
  rw [run_bind] at hload
  obtain ⟨ts, cs, -, -, -, rfl⟩ := load_ok hload
  refine ⟨⟨_, isName_of_mem_spelled, normalize_eq (isAbsolute_ofNames _)⟩, by rw [hevents]; rfl, rfl⟩

theorem Seated.opened (hseat : Seated root settings m) (h : Intact g m.store b held k)
    (now : Instant) :
    ∃ s x, open? root settings now = some s ∧ s.run k = (.ok x, k) ∧ x.store = m.store ∧
      x.current = none ∧ Loaded x b x := by
  obtain ⟨names, hnames, hroot⟩ := hseat.tidy
  have hproject : k.currentDirectory.normalize root = root := by rw [hroot, normalize_ofNames _ hnames]
  obtain ⟨events, s, hopen, hrun⟩ := open?_run now hproject hseat.capacity
  have hfresh : Intact g (fresh root settings events now).store b held k := by
    change Intact g ⟨root.join settings.stateDirectory⟩ b held k
    rw [← hseat.store]
    exact h
  obtain ⟨x, hload, hloaded⟩ := load_intact hfresh
  exact ⟨s, x, hopen, hrun.trans hload, by rw [hloaded.others, hseat.store]; rfl,
    by rw [hloaded.others]; rfl, rfl, hloaded.book, hloaded.checkpoints⟩

/-- A store with nothing in it holds nothing. -/
theorem intact_of_empty {s : Store} (hk : Keeps g s fs) (hfits : s.Fits)
    (hreadable : ∀ d ∈ g.folders, d ≠ g.backups → (fs.at d).any Entry.isReadable = true)
    (hempty : ∀ d ∈ g.folders, ∀ w, fs.at (w :: d) = none) : Intact g s (fun _ => none) [] fs where
  keeps := hk
  fits := hfits
  readable := hreadable
  ordered :=
    { keyed := fun _ _ h => nomatch h
      regular := fun _ _ h => nomatch h
      unreverted := fun _ _ h => nomatch h
      plain := fun _ _ h => nomatch h
      apart := fun _ _ _ _ h => nomatch h
      held_plain := fun _ h => nomatch h
      held_apart := fun _ _ h => nomatch h }
  filed :=
    { proper := fun _ _ h => nomatch h
      stored := fun _ _ h => nomatch h
      only := fun w e he => by rw [hempty _ (by simp [Grounds.folders])] at he; cases he }
  backed := by
    rintro op ⟨-, hop | ⟨id, t, ht, -⟩⟩
    · cases hop
    · cases ht
  chosen w n content he := by rw [hempty _ (by simp [Grounds.folders])] at he; cases he

/-- A manager that was opened on an empty store is abreast of it. -/
theorem open_abreast {project : Path} (hopen : open? project settings now = some s)
    (hload : s.run fs₀ = (.ok m, fs)) (hk : Keeps g m.store fs)
    (hempty : ∀ d ∈ g.folders, ∀ w, fs.at (w :: d) = none) : Abreast g [] m fs := by
  obtain ⟨hcurrent, hhistory, hcheckpoints⟩ := open_empty hopen hload hk hempty
  obtain ⟨hfits, hreadable⟩ := open_readable hopen hload hk
  have hbook : m.transaction? = fun _ => none := by
    funext id
    rw [transaction?, hhistory]
    rfl
  have hnone : ∀ t, ¬m.Records t := by
    rintro t (ht | ⟨id, ht⟩)
    · rw [hcurrent] at ht; cases ht
    · rw [hbook] at ht; cases ht
  have hchosen : ∀ id c, m.checkpoint? id ≠ some c := by
    intro id c hc
    rw [checkpoint?, hcheckpoints] at hc
    cases hc
  exact
    { orderly := open_orderly hopen hload fun id c hc => absurd hc (hchosen id c)
      intact := by
        rw [hbook, underway, hcurrent]
        exact intact_of_empty hk hfits hreadable hempty
      current := fun t ht => absurd (.inl ht) (hnone t)
      known := fun t ht => absurd ht (hnone t)
      checkpoints := fun id c hc => absurd hc (hchosen id c) }

/-! ### Stopping -/

theorem Abreast.known_left (h : Abreast g ids m fs) (hr : r.Fair g ids m fs) {id : String}
    {t : Transaction} (hb : r.Leaves m (r.turn m fs).after.transaction? b) (ht : b id = some t) :
    t.id ∈ ids ++ r.newId?.toList ∧ ∀ op ∈ t.operations, op.id ∈ ids ++ r.newId?.toList := by
  have hbefore : ∀ u, m.Records u → u.id ∈ ids ++ r.newId?.toList ∧
      ∀ op ∈ u.operations, op.id ∈ ids ++ r.newId?.toList := fun u hu =>
    ⟨List.mem_append_left _ (h.known u hu).1,
      fun op hop => List.mem_append_left _ ((h.known u hu).2 op hop)⟩
  rcases hb id with heq | heq | ⟨-, u, hu, -, -, heq⟩
  · exact hbefore t (.inr ⟨id, heq ▸ ht⟩)
  · exact (turn_abreast h hr).1.known t (.inr ⟨id, heq ▸ ht⟩)
  · obtain rfl := Option.some.inj (ht.symm.trans heq)
    exact hbefore u (.inl hu)

theorem Abreast.reopened (h : Abreast g ids m fs) (hr : r.Fair g ids m fs)
    (hb : r.Leaves m (r.turn m fs).after.transaction? b) (hi : Intact g m.store b [] k)
    (horderly : Orderly x) (hstore : x.store = m.store) (hcurrent : x.current = none)
    (hloaded : Loaded x b x) : Abreast g (ids ++ r.newId?.toList) x k where
  orderly := horderly
  intact := by
    rw [hstore, hloaded.book, underway, hcurrent]
    exact hi.legible
  current t ht := by rw [hcurrent] at ht; cases ht
  known t ht := by
    rcases ht with ht | ⟨id, ht⟩
    · rw [hcurrent] at ht; cases ht
    · rw [hloaded.book] at ht
      exact h.known_left hr hb (Book.eq_some_of_legible ht)
  checkpoints id c hc := (hloaded.checkpoints id c hc).2

/-- The managers of a project that come about from an empty store on: one that is opened first, and
from then on others by fair requests, and by opening the project again where a request has stopped
after any of its calls. Nothing else changes in the store. -/
inductive Reached (g : Grounds) (root : Path) (settings : Settings) :
    List String → Manager → FileSystem → Prop
  | opened {project : Path} {now : Instant} {s : Script (Except Error Manager)} {m : Manager}
    {fs₀ fs : FileSystem} (hopen : open? project settings now = some s)
    (hload : s.run fs₀ = (.ok m, fs)) (hroot : m.root = root) (hk : Keeps g m.store fs)
    (hempty : ∀ d ∈ g.folders, ∀ w, fs.at (w :: d) = none) : Reached g root settings [] m fs
  | waited {ids : List String} {m : Manager} {fs fs' : FileSystem}
    (h : Reached g root settings ids m fs) (hu : Untouched g m.store fs fs') :
    Reached g root settings ids m fs'
  | turned {ids : List String} {m : Manager} {fs : FileSystem} {r : Request}
    (h : Reached g root settings ids m fs) (hr : r.Fair g ids m fs) :
    Reached g root settings (ids ++ r.newId?.toList) (r.turn m fs).after (r.turn m fs).left
  | reopened {ids : List String} {m x : Manager} {fs fs' k : FileSystem} {r : Request} {now : Instant}
    {s : Script (Except Error Manager)} (h : Reached g root settings ids m fs)
    (hr : r.Fair g ids m fs) (hk : k ∈ (r.perform m).stages fs)
    (hopen : open? root settings now = some s) (hload : s.run k = (.ok x, fs')) :
    Reached g root settings (ids ++ r.newId?.toList) x fs'

theorem Reached.abreast (h : Reached g root settings ids m fs) :
    Seated root settings m ∧ Abreast g ids m fs := by
  induction h with
  | opened hopen hload hroot hk hempty =>
    subst hroot
    exact ⟨open_seated hopen hload, open_abreast hopen hload hk hempty⟩
  | waited h hu ih =>
    obtain ⟨hseat, hm⟩ := ih
    exact ⟨hseat, ⟨hm.orderly, hm.intact.untouched hu, hm.current, hm.known, hm.checkpoints⟩⟩
  | @turned ids m fs r h hr ih =>
    obtain ⟨hseat, hm⟩ := ih
    obtain ⟨b', hmeets⟩ := perform_meets hm hr
    have hstore : (r.turn m fs).after.store = m.store := hmeets.result.store
    exact ⟨⟨hseat.tidy, hseat.capacity, hstore.trans hseat.store⟩, (turn_abreast hm hr).1⟩
  | @reopened ids m x fs fs' k r now s h hr hk hopen hload ih =>
    obtain ⟨hseat, hm⟩ := ih
    obtain ⟨b, hb, hi⟩ := (turn_abreast hm hr).2 k hk
    obtain ⟨s', x', hopen', hload', hstore, hcurrent, hloaded⟩ := hseat.opened hi now
    obtain rfl : s = s' := Option.some.inj (hopen.symm.trans hopen')
    obtain ⟨hx, rfl⟩ := Prod.mk.inj (hload.symm.trans hload')
    obtain rfl := Except.ok.inj hx
    exact ⟨⟨hseat.tidy, hseat.capacity, hstore.trans hseat.store⟩, hm.reopened hr hb hi
      (open_orderly hopen hload fun id c hc => (hloaded.checkpoints id c hc).1) hstore hcurrent hloaded⟩

end Manager

namespace Sample

theorem Aloof.fair {ids : List String} {m : Manager} {fs : FileSystem} {r : Request}
    (h : Aloof r m fs) (hregular : r.Regular) (hnew : ∀ i ∈ r.newId?, i ∉ ids ∧ Proper i) :
    r.Fair grounds ids m fs where
  regular := hregular
  new := hnew
  aloof k hk id t ht := h k hk (id, t) (Index.mem_of_get? ht)

end Sample

namespace Sample

def passing (metadata : Metadata) : Transaction :=
  { Transaction.start "t" ⟨0, 0⟩ "" "" "" metadata with status := .completed }

def impatient : Manager := .fresh (.ofString "/p") { maxTransactions := 0 } ⟨256, []⟩ ⟨0, 0⟩

def interrupted : FileSystem := ((impatient.store.saveTransaction (passing [])).run tree).2

end Sample

end Retrace
