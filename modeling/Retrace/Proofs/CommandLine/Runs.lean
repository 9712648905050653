import Retrace.CommandLine.Program
import Retrace.Proofs.CommandLine.Retracing
import Retrace.Proofs.Filing
import Retrace.Proofs.Preview

/-!
Runs of the program. A run opens the project with the settings that it finds and carries out its
command (`carryOut_run`). What a run leaves that changed a file can be rolled back (`action_held`), and
a run that undoes rolls back the newest completed transaction (`undo_newest`), if there is one.
-/
namespace Retrace

open FileSystem Retrace.Path Script

variable {g : Grounds} {fs fs' fs₁ fs₂ : FileSystem} {l : Location} {m : Manager}

theorem Settings.load_run (project configDirectory : Path) (fs : FileSystem) :
    ((load project configDirectory).run fs).2 = fs := by
  have hread : ∀ p, ((read p).run fs).2 = fs := fun p => by
    rw [read, run_bind, (Files.readText_run p fs).1]
    split <;> rfl
  have hfirst : ∀ ps, ((firstUsable ps).run fs).2 = fs := by
    intro ps
    induction ps with
    | nil => rfl
    | cons p ps ih =>
      simp only [firstUsable, run_bind, run_ask, Call.perform]
      cases fs.status p with
      | error e => exact ih
      | ok kind =>
        simp only [run_bind, hread]
        cases ((read p).run fs).1 with
        | ok s => rfl
        | error e => exact ih
  exact hfirst _

theorem Index.length_put_le {α : Type} (x : Index α) (k : String) (v : α) :
    (x.put k v).length ≤ x.length + 1 := by
  have hkeys := congrArg List.length (x.keys_put k v)
  rw [List.length_map] at hkeys
  rw [hkeys]
  split <;> simp

namespace CommandLine

open Retrace.CommandLine.Action (Ends)

variable {d d' : Desk} {r : Except Stop Unit} {s : Surroundings} {i : Invocation} {root : Path}
  {settings : Settings} {t : Transaction} {xs : List (Operation × Option Bytes)}

/-! ### Carrying out -/

structure Surroundings.Finds (s : Surroundings) (i : Invocation) (fs : FileSystem) (root : Path)
    (settings : Settings) : Prop where
  project : fs.currentDirectory.normalize i.project = root
  settings : ((Settings.load i.project s.configDirectory).run fs).1 = settings

/-- The desk at which a run begins with a manager. -/
def Surroundings.desk (s : Surroundings) (m : Manager) : Desk :=
  { manager := m, now := s.now, ids := s.ids, elapsed := s.elapsed }

theorem outputOf_code : (outputOf (r, d)).code = 0 ↔ r = .ok () := by
  cases r with
  | ok u => simp [outputOf]
  | error stop => cases stop <;> simp [outputOf, Stop.report, crashCode]

/-- A run that can open the project carries out its command. -/
theorem carryOut_run {opening : Script (Except Error Manager)} (hs : s.Finds i fs root settings)
    (hopen : Manager.open? i.project settings s.now = some opening)
    (hload : opening.run fs = (.ok m, fs₁)) (h : Ends (actionOf i.command) (s.desk m) fs₁ r d' fs') :
    (carryOut s i).run fs = (outputOf (r, d'), fs') := by
  have hsettings : (Settings.load i.project s.configDirectory).run fs = (settings, fs) :=
    Prod.ext hs.settings (Settings.load_run _ _ _)
  have hrun : ((actionOf i.command).run
      { manager := m, now := s.now, ids := s.ids, elapsed := s.elapsed }).run fs₁ = ((r, d'), fs') := h
  rw [carryOut, run_bind, hsettings]
  simp only [hopen, run_bind, hload, hrun]
  rfl

/-! ### Commands that change files -/

inductive Asks (fs : FileSystem) : Command → FileCommand → Prop
  | write {p : Path} {text : String} {source : Option Path} :
    Asks fs (.write p (some text) source) (.write p text)
  | writeFrom {p q : Path} {text : String} (h : ((Files.readText q).run.run fs).1 = .ok text) :
    Asks fs (.write p none (some q)) (.write p text)
  | remove {p : Path} : Asks fs (.remove p) (.remove p)
  | move {p q : Path} : Asks fs (.move p q) (.move p q)

theorem Asks.action {k : Command} {c : FileCommand} (h : Asks fs k c)
    (hend : Ends (actionOf k) d fs (.ok ()) d' fs') : Ends c.action d fs (.ok ()) d' fs' := by
  cases h with
  | write =>
    simp only [actionOf, contentOf, Action.ends_bind_ok, Action.ends_pure] at hend
    obtain ⟨_, _, _, ⟨htext, rfl, rfl⟩, hend⟩ := hend
    obtain rfl := Except.ok.inj htext
    exact hend
  | @writeFrom p q text h =>
    simp only [actionOf, contentOf, Action.ends_bind_ok, Action.ends_ofScript] at hend
    obtain ⟨_, _, _, ⟨_, _, _, ⟨z, hread, hz, rfl⟩, hgot⟩, hend⟩ := hend
    obtain rfl := Except.ok.inj hz
    obtain ⟨rfl, rfl⟩ := Prod.mk.inj (hread.symm.trans (Prod.ext h (Files.readText_run q fs).1))
    obtain ⟨htext, rfl, rfl⟩ := Action.ends_pure.1 hgot
    obtain rfl := Except.ok.inj htext
    exact hend
  | remove => exact hend
  | move => exact hend

theorem FileCommand.begun_footing (c : FileCommand) (hk : Keeps g d.manager.store fs)
    (hroot : d.manager.root.isAbsolute = true) (hcurrent : d.manager.current = none)
    (hids : ∀ n, Plain (d.ids n)) : Footing g (c.begun d) (c.opening d) fs where
  keeps := by simpa [begun, Manager.start, hcurrent] using hk
  root := by simpa [begun, Manager.start, hcurrent] using hroot
  plain := hids
  current := by simp [begun, Manager.start, hcurrent, opening]

theorem RoomBeside.congr (h : RoomBeside fs' l) (hout : g.Outside l)
    (hat : ∀ k, ¬g.Within k → fs₁.at k = fs'.at k) : RoomBeside fs₁ l := by
  have htail := (hout.above (List.tail_suffix l)).not_within
  exact Room.congr h (hat _ htail) fun i => by rw [hat _ (hout.beside _)]

theorem FileCommand.Roomy.congr {c : FileCommand} (h : c.Roomy root fs fs')
    (hout : ∀ l ∈ c.places root, g.Outside l) (hat : ∀ k, ¬g.Within k → fs₁.at k = fs'.at k) :
    c.Roomy root fs fs₁ := by
  cases c with
  | write p text => exact Or.imp_right (fun hroom => hroom.congr (hout _ (by simp [places])) hat) h
  | remove p => exact RoomBeside.congr h (hout _ (by simp [places])) hat
  | move p q => trivial

/-- A transaction that is completed while few are kept is written, and nothing else is done. -/
theorem complete_saved {m m' : Manager} {e : String} (hk : Keeps g m.store fs)
    (hc : m.current = some t) (hid : Plain t.id)
    (hfew : m.history.length < m.settings.maxTransactions)
    (h : m.complete.run fs = ((.ok e, m'), fs')) :
    ∃ text, { t with status := .completed }.toText? = some text ∧
      Edit fs (documentName t.id :: g.transactions) (some (.file 0o600 (Utf8.encode text))) fs' ∧
      Aims fs m.store.transactionsDirectory g.transactions (documentName t.id) ∧
      m'.transaction? = (m.keep { t with status := .completed }).transaction? := by
  have hlength : (m.keep { t with status := .completed }).history.length ≤ m.settings.maxTransactions :=
    (Index.length_put_le _ _ _).trans hfew
  have hmeans := h
  simp only [Manager.complete, hc, run_bind] at hmeans
  cases htext : { t with status := .completed }.toText? with
  | none => simp [Store.saveTransaction, Store.save, htext] at hmeans
  | some text =>
    have hsave := (saveTransaction_meets (t := { t with status := .completed }) hk hid htext).result
    generalize hout : (m.store.saveTransaction { t with status := .completed }).run fs = out at hsave
    obtain ⟨w, fs₁⟩ := out
    rcases hsave with ⟨rfl, hedit, -, haims⟩ | ⟨⟨err, rfl⟩, -⟩
    · rw [Manager.complete_of_few hc hout hlength] at h
      obtain ⟨hm, rfl⟩ := Prod.mk.inj h
      obtain ⟨-, rfl⟩ := Prod.mk.inj hm
      exact ⟨text, rfl, hedit, haims, rfl⟩
    · simp [hout] at hmeans

/-- A command has made its change, and the document of its transaction is saved. -/
structure Saved (g : Grounds) (c : FileCommand) (d : Desk) (fs : FileSystem) (d₁ : Desk)
    (fs₁ : FileSystem) (t : Transaction) (m' : Manager) (fs' : FileSystem) : Prop where
  change : Ends (c.change d.manager.root) (c.begun d) fs (.ok ()) d₁ fs₁
  followed : Followed g (c.begun d) (c.opening d) fs (c.Roomy d.manager.root fs fs₁)
    (c.effect d.manager.root fs.shown) d₁ fs₁
  store : d₁.manager.store = d.manager.store
  book : d₁.manager.transaction? = d.manager.transaction?
  current : d₁.manager.current = some t
  id : t.id = d.ids d.taken
  complete : ∃ e, d₁.manager.complete.run fs₁ = ((.ok e, m'), fs')
  document : ∃ text, { t with status := .completed }.toText? = some text ∧
    Edit fs₁ (documentName t.id :: g.transactions) (some (.file 0o600 (Utf8.encode text))) fs'
  aims : Aims fs₁ d.manager.store.transactionsDirectory g.transactions (documentName t.id)
  kept : m'.transaction? = (d.manager.keep { t with status := .completed }).transaction?

namespace Saved

variable {c : FileCommand} {d₁ : Desk} {m' : Manager}

theorem keeps₁ (h : Saved g c d fs d₁ fs₁ t m' fs') : Keeps g d.manager.store fs₁ := by
  obtain ⟨ops, hnoted⟩ := h.followed.noted
  have hstore := h.store
  rw [hnoted.manager] at hstore
  rw [← hstore]
  exact h.followed.keeps

theorem tended (h : Saved g c d fs d₁ fs₁ t m' fs') : Tended g fs₁ fs' := by
  obtain ⟨text, -, hedit⟩ := h.document
  exact h.keeps₁.tended_edit (by simp [Grounds.folders]) (by simp) hedit

end Saved

/-- A command that got to its end while few transactions were kept has saved its transaction. -/
theorem FileCommand.action_saved (c : FileCommand) (hk : Keeps g d.manager.store fs)
    (hroot : d.manager.root.isAbsolute = true) (hcurrent : d.manager.current = none)
    (hids : ∀ n, Plain (d.ids n))
    (hfew : d.manager.history.length < d.manager.settings.maxTransactions)
    (hplaces : ∀ l ∈ c.places d.manager.root, g.Outside l ∧ Unlinked fs l)
    (h : Ends c.action d fs (.ok ()) d' fs') : ∃ d₁ fs₁ t m', Saved g c d fs d₁ fs₁ t m' fs' := by
  obtain ⟨hready, d₁, fs₁, e, m', hchange, hcomplete⟩ := c.action_ok hcurrent h
  have hbegun : (c.begun d).manager.root = d.manager.root ∧
      (c.begun d).manager.store = d.manager.store ∧
      (c.begun d).manager.history = d.manager.history ∧
      (c.begun d).manager.settings = d.manager.settings := by
    simp [FileCommand.begun, Manager.start, hcurrent]
  obtain ⟨hroot', hstore', hhistory', hsettings'⟩ := hbegun
  have hfollowed := c.change_followed (c.begun_footing hk hroot hcurrent hids) (hroot'.symm ▸ hplaces)
    (hroot'.symm ▸ hready) (hroot'.symm ▸ hchange)
  rw [hroot'] at hfollowed
  obtain ⟨ops, hnoted⟩ := hfollowed.noted
  have hm₁ : d₁.manager.store = d.manager.store ∧ d₁.manager.history = d.manager.history ∧
      d₁.manager.settings = d.manager.settings := by
    rw [hnoted.manager]
    exact ⟨hstore', hhistory', hsettings'⟩
  obtain ⟨hstore₁, hhistory₁, hsettings₁⟩ := hm₁
  have hk₁ : Keeps g d₁.manager.store fs₁ := by
    rw [hstore₁, ← hstore']
    exact hfollowed.keeps
  have hbook : d₁.manager.transaction? = d.manager.transaction? := by
    funext j
    rw [Manager.transaction?, hhistory₁, Manager.transaction?]
  obtain ⟨text, htext, hedit, haims, hkept⟩ := complete_saved hk₁ hnoted.current (hids d.taken)
    (by rw [hhistory₁, hsettings₁]; exact hfew) hcomplete
  refine ⟨d₁, fs₁, _, m',
    { change := hchange, followed := hfollowed, store := hstore₁, book := hbook,
      current := hnoted.current, id := rfl, complete := ⟨e, hcomplete⟩,
      document := ⟨text, htext, hedit⟩, aims := hstore₁ ▸ haims, kept := ?_ }⟩
  funext j
  rw [hkept, Manager.transaction?_keep, Manager.transaction?_keep, hbook]

/-- A transaction that a command has made and completed, and the steps back. -/
structure Done (g : Grounds) (c : FileCommand) (d : Desk) (fs : FileSystem) (t : Transaction)
    (xs : List (Operation × Option Bytes)) (fs₁ : FileSystem) (m' : Manager) (fs' : FileSystem) :
    Prop where
  transaction : t = { c.opening d with operations := xs.map (·.1), status := .completed }
  ids : xs.map (·.1.id) = (List.range' (d.taken + 1) xs.length).map d.ids
  regular : d.now.Regular → ∀ x ∈ xs, x.1.Regular ∧ x.1.isReadable = true
  trail : Trail g d.manager.store fs xs fs₁
  alike : Alike g fs₁ fs'
  document : ∃ text, t.toText? = some text ∧
    Edit fs₁ (documentName t.id :: g.transactions) (some (.file 0o600 (Utf8.encode text))) fs'
  store : m'.store = d.manager.store
  kept : m'.transaction? = (d.manager.keep t).transaction?
  held : Held g m' fs' t xs

/-- A command that got to its end while few transactions were kept has done to the scene what it should,
and its transaction can be rolled back. -/
theorem FileCommand.action_held (c : FileCommand) (hk : Keeps g d.manager.store fs)
    (hroot : d.manager.root.isAbsolute = true) (hcurrent : d.manager.current = none)
    (hp : Manager.PlainIds d.manager) (hids : ∀ n, Plain (d.ids n)) (hinj : Function.Injective d.ids)
    (hunused : ∀ j u, d.manager.transaction? j = some u → ∀ op ∈ u.operations, ∀ n, op.id ≠ d.ids n)
    (hfew : d.manager.history.length < d.manager.settings.maxTransactions)
    (hplaces : ∀ l ∈ c.places d.manager.root, g.Outside l ∧ Unlinked fs l)
    (hroom : c.Roomy d.manager.root fs fs') (h : Ends c.action d fs (.ok ()) d' fs') :
    Shows g fs' (c.effect d.manager.root fs.shown) ∧ ∃ t xs fs₁ m', Done g c d fs t xs fs₁ m' fs' := by
  obtain ⟨d₁, fs₁, t, m', hsaved⟩ := c.action_saved hk hroot hcurrent hids hfew hplaces h
  refine ⟨hsaved.followed.shows.alike hsaved.tended.alike, ?_⟩
  -- there is room in the end, so there was when the change had been made
  obtain ⟨xs, hxs⟩ := hsaved.followed.trodden
    (hroom.congr (fun l hl => (hplaces l hl).1) fun k hk => (hsaved.tended.beyond k hk).symm)
  have hstore : (c.begun d).manager.store = d.manager.store := by
    rw [← hsaved.store, hxs.noted.manager]
  have htrail : Trail g d₁.manager.store fs xs fs₁ := by
    rw [hsaved.store, ← hstore]
    exact hxs.trail
  have hids' : xs.map (·.1.id) = (List.range' (d.taken + 1) xs.length).map d.ids := hxs.ids
  have hfresh : Fresh d₁.manager (xs.map (·.1.id)) := by
    rw [hids']
    refine ⟨fun i hi => ?_, List.Nodup.map hinj (List.nodup_range' ..), fun j u hu op hop hmem => ?_⟩
    · obtain ⟨n, -, rfl⟩ := List.mem_map.1 hi
      exact hids n
    · obtain ⟨n, -, hn⟩ := List.mem_map.1 hmem
      exact hunused j u (hsaved.book ▸ hu) op hop n hn.symm
  have ht : t = { c.opening d with operations := xs.map (·.1) } := by
    have hcurrents := hsaved.current.symm.trans hxs.noted.current
    simpa [FileCommand.opening, Transaction.start] using hcurrents
  have hkept' : (m'.transaction? (d.ids d.taken)).isSome := by
    rw [hsaved.kept, Manager.transaction?_keep, if_pos hsaved.id.symm]
    rfl
  obtain ⟨e, hcomplete⟩ := hsaved.complete
  obtain ⟨hstore₂, hheld, halike⟩ := held_of_complete htrail (hsaved.store ▸ hsaved.keeps₁)
    ⟨fun j u hu => hp.transaction j u (hsaved.book ▸ hu), fun j u hu => hp.operation j u (hsaved.book ▸ hu)⟩
    hxs.noted.current (by simp [FileCommand.opening, Transaction.start]) (hids d.taken) hfresh hcomplete
    hkept'
  subst ht
  exact ⟨_, xs, fs₁, m',
    { transaction := rfl, ids := hids', regular := fun hnow => hxs.readable hnow
      trail := hsaved.store ▸ htrail, alike := halike, document := hsaved.document
      store := hstore₂.trans hsaved.store, kept := hsaved.kept
      held := by simpa [FileCommand.opening, Transaction.start] using hheld }⟩

/-! ### Undoing -/

theorem newestPoint_ends (d : Desk) (fs : FileSystem) :
    Ends newestPoint d fs
      (.ok (((d.manager.transactions.filter (·.status = .completed)).head?).map (·.id))) d fs := by
  refine Action.ends_bind_ok.2 ⟨_, d, fs, Action.ends_manager.2 ⟨rfl, rfl, rfl⟩, ?_⟩
  refine Action.ends_bind_ok.2 ⟨_, d, fs, Action.ends_ofScript.2 ⟨_, d.manager.pointsOf_eq _ fs, rfl, rfl⟩, ?_⟩
  refine Action.ends_pure.2 ⟨?_, rfl, rfl⟩
  rw [List.head?_map, Option.map_map]
  rfl

theorem undo_nothing (options : Rollback.Options)
    (h : d.manager.transactions.filter (·.status = .completed) = []) :
    ∃ d', Ends (undo none options) d fs (.ok ()) d' fs := by
  have hnewest := newestPoint_ends d fs
  rw [h] at hnewest
  exact ⟨_, Action.ends_bind_ok.2 ⟨_, d, fs, hnewest, Action.ends_say.2 ⟨rfl, rfl, rfl⟩⟩⟩

theorem undoOne_ends {options : Rollback.Options} {id : String} {result : Rollback.Result}
    (hrun : (d.manager.rollback d.now options id).run fs = ((result, m), fs'))
    (hsuccess : result.success = true) :
    ∃ d', Ends (undoOne id options) d fs (.ok ()) d' fs' ∧ d'.manager = m := by
  simp [undoOne, hrun, hsuccess]

/-- The newest completed transaction is rolled back. -/
theorem undo_newest {options : Rollback.Options}
    (hnewest : (d.manager.transactions.filter (·.status = .completed)).head? = some t)
    (hheld : Held g d.manager fs t xs) (htrail : Trail g d.manager.store fs₁ xs fs₂)
    (halike : Alike g fs₂ fs) (hdry : options.dryRun = false) :
    ∃ e d' fs', Ends (undo none options) d fs (.ok ()) d' fs' ∧ Alike g fs₁ fs' ∧
      RolledBack g d.manager d.now t fs e d'.manager fs' := by
  obtain ⟨e, m', fs', hrun, hback, hrolled⟩ := rollback_run hheld htrail halike hdry d.now
  have hpoint := newestPoint_ends d fs
  rw [hnewest] at hpoint
  obtain ⟨d', hend, rfl⟩ := undoOne_ends hrun hrolled.success
  exact ⟨e, d', fs', Action.ends_bind_ok.2 ⟨_, d, fs, hpoint, hend⟩, hback, hrolled⟩

end CommandLine
end Retrace
