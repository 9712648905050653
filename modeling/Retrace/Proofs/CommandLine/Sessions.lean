import Retrace.Proofs.CommandLine.Layers

/-!
Sessions: runs of the program in a project, one after the other. What the runs find and leave is a stack
of completed transactions (`Settled`). A command that changes files lays a transaction on it
(`Settled.changed`), and undoing takes one away (`Settled.undone`), so the tree looks as the scene of a
machine with a stack does (`session_follows_machine`).
-/
namespace Retrace.CommandLine

open FileSystem Retrace.Path
open Retrace.CommandLine.Action (Ends)

variable {g : Grounds} {away : Location} {root state : Path} {settings : Settings}
  {past : List Surroundings} {s : Surroundings} {args : List Word} {i : Invocation} {q : Machine}
  {c : FileCommand} {fs fs' fs₁ : FileSystem} {out : Output}
  {room : FileCommand → FileSystem → FileSystem → Prop}

/-- A project without a history. To open it makes the directories of the store where they are missing,
which is seen nowhere else, and there are no documents in them. -/
structure Blank (g : Grounds) (away : Location) (s : Store) (fs fs' : FileSystem) : Prop where
  made : s.ensureDirectories.run fs = (.ok (), fs')
  inside : g.Inside away
  elsewhere : Appears away fs' fs.shown
  keeps : Keeps g s fs'
  readable : ∀ d ∈ g.folders, d ≠ g.backups → (fs'.at d).any Entry.isReadable = true
  empty : ∀ w, Store.isDocumentName w = true → fs'.at (w :: g.transactions) = none

/-- The program is called in a project, with settings that name the state directory. -/
structure Surroundings.Calls (s : Surroundings) (args : List Word) (i : Invocation) (fs : FileSystem)
    (root state : Path) (settings : Settings) : Prop where
  parsed : parse args = .ok i
  finds : s.Finds i fs root settings
  state : settings.stateDirectory = state

theorem Surroundings.Calls.run (h : s.Calls args i fs root state settings) :
    runProgram s args = carryOut s i := by
  rw [runProgram, h.parsed]

/-- Runs one after the other from a project without a history on, and a machine that does the same.
Commands that change files succeed, at places outside the state directory and without links on the way
to them, each at a later time than those before and while fewer transactions are kept than may be. What
else is asked of the trees before and after such a command is left open. -/
inductive Session (g : Grounds) (away : Location) (root state : Path)
    (room : FileCommand → FileSystem → FileSystem → Prop) :
    List Surroundings → Machine → FileSystem → Prop
  | start {fs fs' : FileSystem} (hblank : Blank g away ⟨root.join state⟩ fs fs') :
    Session g away root state room [] ⟨fs.shown, []⟩ fs
  | changed {past : List Surroundings} {s : Surroundings} {args : List Word} {i : Invocation}
    {settings : Settings} {q : Machine} {c : FileCommand} {fs fs₁ fs' : FileSystem} {out : Output}
    (h : Session g away root state room past q fs) (hcalls : s.Calls args i fs root state settings)
    (hfair : s.Fair) (hlater : ∀ p ∈ past, s.Later p) (hfew : past.length < settings.maxTransactions)
    (hmade : (Store.mk (root.join state)).ensureDirectories.run fs = (.ok (), fs₁))
    (hasks : Asks fs₁ i.command c) (hplaces : ∀ l ∈ c.places root, ¬away <:+ l ∧ Unlinked fs₁ l)
    (hrun : (runProgram s args).run fs = (out, fs')) (hcode : out.code = 0) (hroom : room c fs₁ fs') :
    Session g away root state room (past ++ [s]) (q.change root c) fs'
  | undone {past : List Surroundings} {s : Surroundings} {args : List Word} {i : Invocation}
    {settings : Settings} {q : Machine} {fs fs' : FileSystem} {out : Output}
    (h : Session g away root state room past q fs) (hcalls : s.Calls args i fs root state settings)
    (hundo : i.command = .undo none false false false) (hnow : s.now.Regular)
    (hevents : (EventLog.create? settings.eventCapacity).isSome)
    (hrun : (runProgram s args).run fs = (out, fs')) :
    Session g away root state room past q.undo fs'

/-! ### Between the runs -/

/-- When a project is opened, its completed transactions lie on top of each other, each above a tree that
looks like a scene of the stack, and the tree itself looks like the scene of the machine. -/
structure Settled (g : Grounds) (away : Location) (root state : Path) (past : List Surroundings)
    (q : Machine) (fs fs' : FileSystem) (m : Manager) (ls : List Layer) : Prop where
  store : m.store = ⟨root.join state⟩
  made : m.store.ensureDirectories.run fs = (.ok (), fs')
  seen : Appears away fs q.scene
  stays : Appears away fs' q.scene
  piled : Stacks g away past m ls q.stack fs'

variable {m : Manager} {ls : List Layer}

theorem Blank.settled (h : Blank g away ⟨root.join state⟩ fs fs') :
    Settled g away root state [] ⟨fs.shown, []⟩ fs fs'
      (.fresh root { stateDirectory := state } ⟨0, []⟩ ⟨0, 0⟩) [] where
  store := rfl
  made := h.made
  seen _ _ := rfl
  stays := h.elsewhere
  piled := .start (Manager.archived_of_empty h.keeps (Store.fits_of_ensureDirectories h.made) h.readable
    h.empty rfl) rfl

namespace Settled

theorem of_stacks (hstore : m.store = ⟨root.join state⟩) (hseen : Appears away fs q.scene)
    (hpiled : Stacks g away past m ls q.stack fs) : Settled g away root state past q fs fs m ls :=
  ⟨hstore, Store.ensureDirectories_run hpiled.keeps.toStands hpiled.fits, hseen, hseen, hpiled⟩

theorem opened (h : Settled g away root state past q fs fs' m ls)
    (hcalls : s.Calls args i fs root state settings)
    (hevents : (EventLog.create? settings.eventCapacity).isSome) :
    ∃ opening x, Manager.open? i.project settings s.now = some opening ∧
      opening.run fs = (.ok x, fs') ∧ Manager.Anew root settings x ∧
      Stacks g away past x ls q.stack fs' := by
  have hstore : m.store = ⟨root.join settings.stateDirectory⟩ := by rw [hcalls.state, h.store]
  obtain ⟨opening, x, hopen, hload, hanew, hbook⟩ :=
    h.piled.toArchived.opened h.made hstore hcalls.finds.project hevents s.now
  exact ⟨opening, x, hopen, hload, hanew, h.piled.congr (hanew.store.trans hstore.symm) hbook⟩

/-- A run that got to its end has opened the project, and its action has got to its end. -/
theorem ended (h : Settled g away root state past q fs fs₁ m ls)
    (hcalls : s.Calls args i fs root state settings) (hrun : (runProgram s args).run fs = (out, fs'))
    (hcode : out.code = 0) :
    ∃ x d', Manager.Anew root settings x ∧ Stacks g away past x ls q.stack fs₁ ∧
      Ends (actionOf i.command) (s.desk x) fs₁ (.ok ()) d' fs' := by
  rw [hcalls.run] at hrun
  have hevents : (EventLog.create? settings.eventCapacity).isSome := by
    by_contra hnone
    have hopen : Manager.open? i.project settings s.now = none := by
      rw [Manager.open?, Option.not_isSome_iff_eq_none.1 hnone, Option.map_none]
    have hload : (Settings.load i.project s.configDirectory).run fs = (settings, fs) :=
      Prod.ext hcalls.finds.settings (Settings.load_run _ _ _)
    simp only [carryOut, Script.run_bind, hload, hopen, Script.run_pure, Prod.mk.injEq] at hrun
    rw [← hrun.1] at hcode
    cases hcode
  obtain ⟨opening, x, hopen, hload, hanew, hpiled⟩ := h.opened hcalls hevents
  generalize hact : ((actionOf i.command).run (s.desk x)).run fs₁ = result
  obtain ⟨⟨r, d'⟩, k⟩ := result
  have hend : Ends (actionOf i.command) (s.desk x) fs₁ r d' k := hact
  obtain ⟨rfl, rfl⟩ := Prod.mk.inj (hrun.symm.trans (carryOut_run hcalls.finds hopen hload hend))
  obtain rfl := outputOf_code.1 hcode
  exact ⟨x, d', hanew, hpiled, hend⟩

/-- A command that changes files and succeeds does to the scene what it should, and can be undone. -/
theorem changed (h : Settled g away root state past q fs fs₁ m ls) (hg : g.Inside away)
    (hcalls : s.Calls args i fs root state settings) (hfair : s.Fair) (hlater : ∀ p ∈ past, s.Later p)
    (hfew : past.length < settings.maxTransactions) (hasks : Asks fs₁ i.command c)
    (hplaces : ∀ l ∈ c.places root, ¬away <:+ l ∧ Unlinked fs₁ l)
    (hrun : (runProgram s args).run fs = (out, fs')) (hcode : out.code = 0)
    (hroom : c.Roomy root fs₁ fs') :
    ∃ m' ls', Settled g away root state (past ++ [s]) (q.change root c) fs' fs' m' ls' := by
  obtain ⟨x, d', hanew, hpiled, hend⟩ := h.ended hcalls hrun hcode
  have hroot : x.root = root := hanew.root
  have habsolute : x.root.isAbsolute = true := by
    rw [hroot, ← hcalls.finds.project]
    exact isAbsolute_normalize (isAbsolute_ofNames _)
  have hunused : ∀ j u, x.transaction? j = some u → ∀ op ∈ u.operations, ∀ n, op.id ≠ s.ids n := by
    intro j u hu op hop n heq
    obtain ⟨p, hp, hstems⟩ := hpiled.known j u hu
    obtain ⟨k, hk⟩ := hstems.ids op hop
    exact (hlater p hp).ids n k (heq.symm.trans hk)
  have hlength : x.history.length < x.settings.maxTransactions := by
    rw [hanew.settings]
    exact (hpiled.length_history_le hanew.nodup).trans_lt hfew
  obtain ⟨hshows, t, xs, fs₂, m', hdone⟩ := c.action_held (d := s.desk x) hpiled.keeps habsolute
    hanew.current hpiled.toArchived.plainIds (fun n => (hfair.proper n).1) hfair.injective hunused hlength
    (fun l hl => ⟨hg.outside (hplaces l (hroot ▸ hl)).1, (hplaces l (hroot ▸ hl)).2⟩) (hroot.symm ▸ hroom)
    (hasks.action hend)
  replace hshows : Shows g fs' (c.effect root fs₁.shown) := hroot ▸ hshows
  have hseen := c.appears_effect h.stays hg (fun l hl => (hplaces l hl).1) hshows
  refine ⟨m', (t, xs) :: ls, of_stacks ?_ hseen (hpiled.done hdone hfair hlater h.stays)⟩
  rw [hdone.store]
  exact hanew.store.trans (by rw [hcalls.state])

/-- Undoing succeeds, and takes the uppermost scene back if there is one. -/
theorem undone (h : Settled g away root state past q fs fs₁ m ls) (hg : g.Inside away)
    (hcalls : s.Calls args i fs root state settings) (hundo : i.command = .undo none false false false)
    (hnow : s.now.Regular) (hevents : (EventLog.create? settings.eventCapacity).isSome) :
    ∃ out fs' m' ls', (runProgram s args).run fs = (out, fs') ∧ out.code = 0 ∧
      Settled g away root state past q.undo fs' fs' m' ls' := by
  obtain ⟨opening, x, hopen, hload, hanew, hpiled⟩ := h.opened hcalls hevents
  have hstore : x.store = ⟨root.join state⟩ := by rw [hanew.store, hcalls.state]
  have haction : actionOf i.command = undo none {} := by rw [hundo]; rfl
  suffices hends : ∃ d' fs' m' ls', Ends (undo none {}) (s.desk x) fs₁ (.ok ()) d' fs' ∧
      Settled g away root state past q.undo fs' fs' m' ls' by
    obtain ⟨d', fs', m', ls', hend, hsettled⟩ := hends
    refine ⟨outputOf (.ok (), d'), fs', m', ls', ?_, outputOf_code.2 rfl, hsettled⟩
    rw [hcalls.run]
    exact carryOut_run hcalls.finds hopen hload (haction ▸ hend)
  obtain ⟨scene, stack⟩ := q
  cases stack with
  | nil =>
    have hnothing : ls = [] := by
      have hpile := hpiled.piled
      cases hpile
      rfl
    have hnone : x.transactions.filter (·.status = .completed) = [] := by
      rw [← List.head?_eq_none_iff, hpiled.head_completed hanew.nodup, hnothing]
      rfl
    obtain ⟨d', hend⟩ : ∃ d', Ends (undo none {}) (s.desk x) fs₁ (.ok ()) d' fs₁ := undo_nothing {} hnone
    exact ⟨d', fs₁, x, ls, hend, of_stacks hstore h.stays hpiled⟩
  | cons b bs =>
    obtain ⟨t, xs, ls', rfl⟩ : ∃ t xs ls', ls = (t, xs) :: ls' := by
      have hpile := hpiled.piled
      cases hpile
      exact ⟨_, _, _, rfl⟩
    obtain ⟨d', fs', hend, hback, hkept, hpiled'⟩ :=
      hpiled.undone (s := s) hg hanew.nodup hnow (show ({} : Rollback.Options).dryRun = false from rfl)
    exact ⟨d', fs', d'.manager, ls', hend, of_stacks (hkept.trans hstore) hback hpiled'⟩

end Settled

namespace Session

theorem inside (h : Session g away root state room past q fs) : g.Inside away := by
  induction h with
  | start hblank => exact hblank.inside
  | changed _ _ _ _ _ _ _ _ _ _ _ ih => exact ih
  | undone _ _ _ _ _ _ ih => exact ih

theorem settled (h : Session g away root state (fun c fs fs' => c.Roomy root fs fs') past q fs) :
    ∃ fs' m ls, Settled g away root state past q fs fs' m ls := by
  have hg := h.inside
  induction h with
  | start hblank => exact ⟨_, _, _, hblank.settled⟩
  | changed _ hcalls hfair hlater hfew hmade hasks hplaces hrun hcode hroom ih =>
    obtain ⟨fs', m, ls, hsettled⟩ := ih
    have hsame := hsettled.made
    rw [hsettled.store] at hsame
    obtain rfl := (Prod.mk.inj (hsame.symm.trans hmade)).2
    exact ⟨_, hsettled.changed hg hcalls hfair hlater hfew hasks hplaces hrun hcode hroom⟩
  | undone _ hcalls hundo hnow hevents hrun ih =>
    obtain ⟨fs', m, ls, hsettled⟩ := ih
    obtain ⟨out, k, m', ls', hrun', -, hsettled'⟩ := hsettled.undone hg hcalls hundo hnow hevents
    obtain rfl := (Prod.mk.inj (hrun.symm.trans hrun')).2
    exact ⟨_, m', ls', hsettled'⟩

end Session

/-- The command line is an undo stack. Take any session from a project without a history on: commands
that write, remove and move files and succeed, mixed with undoing in any order, where what a command
overwrites or removes has room to be put back. The tree then looks as the scene of the machine does,
outside the state directory. Undoing once more succeeds, and takes back the uppermost scene of the
stack, or leaves all as it is where there is none. -/
theorem session_follows_machine
    (h : Session g away root state (fun c fs fs' => c.Roomy root fs fs') past q fs) :
    Appears away fs q.scene ∧
      ∀ (s : Surroundings) (args : List Word) (i : Invocation) (settings : Settings),
        s.Calls args i fs root state settings → i.command = .undo none false false false →
        s.now.Regular → (EventLog.create? settings.eventCapacity).isSome →
        ∃ out fs', (runProgram s args).run fs = (out, fs') ∧ out.code = 0 ∧
          Appears away fs' q.undo.scene := by
  obtain ⟨fs₁, m, ls, hsettled⟩ := h.settled
  refine ⟨hsettled.seen, fun s args i settings hcalls hundo hnow hevents => ?_⟩
  obtain ⟨out, fs', m', ls', hrun, hcode, hsettled'⟩ :=
    hsettled.undone h.inside hcalls hundo hnow hevents
  exact ⟨out, fs', hrun, hcode, hsettled'.seen⟩

namespace Sample

open Retrace.Sample (manager tree grounds keeps folders_empty)

def retreat : Location := [Utf8.encode ".xaheen", Utf8.encode "p"]

theorem blank : Blank grounds retreat ⟨(Path.ofString "/p").join (.ofString ".xaheen")⟩ tree tree where
  made := Store.ensureDirectories_run keeps.toStands
    (show ∀ f ∈ Store.directories ⟨_⟩, f.bytes.length < longestPath by decide +kernel)
  inside := show ∀ d ∈ grounds.folders, retreat <:+ d by decide +kernel
  elsewhere _ _ := rfl
  keeps := keeps
  readable := by decide +kernel
  empty w _ := children_eq_nil.1 (folders_empty grounds.transactions (by simp [Grounds.folders])) w

def sitting : Surroundings where
  configDirectory := .ofString "/c"
  now := ⟨0, 0⟩
  ids n := String.ofList (List.replicate (n + 1) 't')

def later : Surroundings := { sitting with now := ⟨1, 0⟩ }

theorem fair : sitting.Fair where
  regular := by decide
  proper n := by
    have hchars : ∀ c ∈ List.replicate (n + 1) 't', c.toNat < 0x80 := fun c hc => by
      rw [List.eq_of_mem_replicate hc]
      decide
    refine ⟨fun hslash => ?_, fun hempty => ?_⟩
    · rw [sitting, Utf8.encode_ascii _ hchars] at hslash
      obtain ⟨c, hc, heq⟩ := List.mem_map.1 hslash
      rw [List.eq_of_mem_replicate hc] at heq
      exact absurd heq (by decide)
    · have hlength := congrArg (·.toList.length) hempty
      simp [sitting] at hlength
  injective n k h := by
    have hlength := congrArg (·.toList.length) h
    simpa [sitting] using hlength

def words (args : List String) : List Word := args.map Utf8.encode

def moving : List Word := words ["-C", "/p", "mv", "f", "n/g"]

def move : Invocation := ⟨false, .ofString "/p", .move (.ofString "f") (.ofString "n/g")⟩

def moved : Output × FileSystem := (runProgram sitting moving).run tree

def undoing : List Word := words ["-C", "/p", "undo"]

def undoLast : Invocation := ⟨false, .ofString "/p", .undo none false false false⟩

def overwriting : List Word := words ["-C", "/p", "write", "d/f", "--content", "y"]

def overwriteInside : Invocation := ⟨false, .ofString "/p", .write (.ofString "d/f") (some "y") none⟩

theorem words_parsed : parse moving = .ok move ∧ parse undoing = .ok undoLast ∧
    parse overwriting = .ok overwriteInside := by decide +kernel

theorem tree_found : tree.currentDirectory.normalize (.ofString "/p") = .ofString "/p" ∧
    ((Settings.load (.ofString "/p") sitting.configDirectory).run tree).1 = {} := by decide +kernel

theorem moving_calls : sitting.Calls moving move tree (.ofString "/p") (.ofString ".xaheen") {} where
  parsed := words_parsed.1
  finds := ⟨tree_found.1, tree_found.2⟩
  state := rfl

theorem moved_session : Session grounds retreat (.ofString "/p") (.ofString ".xaheen")
    (fun c fs fs' => c.Roomy (.ofString "/p") fs fs') ([] ++ [sitting])
    (Machine.change ⟨tree.shown, []⟩ (.ofString "/p") (.move (.ofString "f") (.ofString "n/g"))) moved.2 := by
  have hplaces : ∀ l ∈ (FileCommand.move (.ofString "f") (.ofString "n/g")).places (.ofString "/p"),
      ¬retreat <:+ l ∧ ∀ k ∈ l.tails, (tree.at k).all (·.kind ≠ .link) := by decide +kernel
  have hasks : Asks tree move.command (.move (.ofString "f") (.ofString "n/g")) := .move
  have hrun : (runProgram sitting moving).run tree = (moved.1, moved.2) := by rw [moved]
  have hcode : moved.1.code = 0 := by decide +kernel
  generalize moved = out at hrun hcode
  exact Session.changed (.start blank) moving_calls fair (fun p hp => by cases hp) (by decide) blank.made
    hasks (fun l hl => ⟨(hplaces l hl).1, unlinked_of_tails (hplaces l hl).2⟩) hrun hcode trivial

end Sample

theorem session_follows_machine_of_one_moved :
    Appears Sample.retreat Sample.moved.2 (Scene.moved Retrace.Sample.tree.shown
        (spelled (.ofString "/p") (.ofString "f")) (spelled (.ofString "/p") (.ofString "n/g"))) ∧
      ∃ out fs', (runProgram Sample.later Sample.undoing).run Sample.moved.2 = (out, fs') ∧
        out.code = 0 ∧ Appears Sample.retreat fs' Retrace.Sample.tree.shown := by
  obtain ⟨hseen, hundo⟩ := session_follows_machine Sample.moved_session
  refine ⟨hseen, hundo Sample.later Sample.undoing Sample.undoLast {} ?_ rfl (by decide) (by decide)⟩
  exact
    { parsed := Sample.words_parsed.2.1
      finds := ⟨by decide +kernel, by decide +kernel⟩
      state := rfl }

namespace Sample

open Retrace.Sample (manager tree grounds keeps opening opened opens opening_still store_opened)

def overwrite : FileCommand := .write (.ofString "d/f") "y"

def overwritten : (Except Stop Unit × Desk) × FileSystem :=
  (overwrite.action.run (sitting.desk opened)).run tree

/-- When the file has been overwritten, and the transaction is still to be completed. -/
def changed : (Except Stop Unit × Desk) × FileSystem :=
  ((overwrite.change (sitting.desk opened).manager.root).run (overwrite.begun (sitting.desk opened))).run tree

def recorded : Transaction := changed.1.2.manager.current.get (by decide +kernel)

def written : Transaction := { recorded with status := .completed }

theorem overwritten_stands : overwritten.1.1 = .ok () ∧
    (overwritten.2.list manager.store.transactionsDirectory = .ok [documentName "t"] ∧
      overwritten.2.list manager.store.checkpointsDirectory = .ok []) ∧
    overwritten.2.currentDirectory.normalize (.ofString "/p") = .ofString "/p" ∧
    ((Settings.load (.ofString "/p") later.configDirectory).run overwritten.2).1 = {} := by
  decide +kernel

theorem overwrite_ends :
    Ends overwrite.action (sitting.desk opened) tree (.ok ()) overwritten.1.2 overwritten.2 := by
  have hok := overwritten_stands.1
  unfold overwritten at hok ⊢
  exact Action.ends_of_result hok

theorem desk_idle : (sitting.desk opened).manager.root = .ofString "/p" ∧
    (sitting.desk opened).manager.current.isNone ∧
    (sitting.desk opened).manager.history.length <
      (sitting.desk opened).manager.settings.maxTransactions := by decide +kernel

theorem overwrite_places : ∀ l ∈ overwrite.places (.ofString "/p"), (∀ d ∈ grounds.folders, ¬d <:+ l) ∧
    ¬retreat <:+ l ∧ ∀ k ∈ l.tails, (tree.at k).all (·.kind ≠ .link) := by decide +kernel

theorem changed_records : changed.1.1 = .ok () ∧ recorded.id = "t" ∧
    (∀ op ∈ written.operations, (∀ n ∈ op.previousMode, n < 2 ^ 32) ∧ op.timestamp.Regular ∧
      op.metadata.fits 0 = true) ∧
    written.timestamp.Regular ∧ (∀ i ∈ written.rollbackTimestamp, i.Regular) ∧
    written.metadata.fits 0 = true ∧ written.isReadable = true := by decide +kernel

theorem opened_loaded : opening.run tree = (.ok opened, tree) := by
  rw [eq_ok_get opens, opening_still]
  rfl

/-- The transaction is saved, and the store is otherwise as it was. -/
theorem overwritten_saved : Keeps grounds manager.store overwritten.2 ∧
    ∃ text, written.toText? = some text ∧
      overwritten.2.at (documentName "t" :: grounds.transactions) =
        some (.file 0o600 (Utf8.encode text)) := by
  have hstore : (sitting.desk opened).manager.store = manager.store := store_opened
  have hkeeps : Keeps grounds (sitting.desk opened).manager.store tree := by
    rw [hstore]
    exact keeps
  obtain ⟨hroot, hcurrent, hfew⟩ := desk_idle
  obtain ⟨hok, hid, -⟩ := changed_records
  obtain ⟨d₁, fs₁, t, m', hsaved⟩ := overwrite.action_saved hkeeps (by rw [hroot]; decide)
    (Option.isNone_iff_eq_none.1 hcurrent) (fun n => (fair.proper n).1) hfew
    (fun l hl => by
      rw [hroot] at hl
      exact ⟨(overwrite_places l hl).1, unlinked_of_tails (overwrite_places l hl).2.2⟩) overwrite_ends
  have hends : Ends (overwrite.change (sitting.desk opened).manager.root)
      (overwrite.begun (sitting.desk opened)) tree (.ok ()) changed.1.2 changed.2 := by
    unfold changed at hok ⊢
    exact Action.ends_of_result hok
  have hrecorded : changed.1.2.manager.current = some recorded := by rw [recorded, Option.some_get]
  obtain ⟨-, hd, -⟩ := hsaved.change.unique hends
  rw [← hd, hsaved.current] at hrecorded
  have ht : t = recorded := Option.some.inj hrecorded
  obtain ⟨text, htext, hedit⟩ := hsaved.document
  rw [ht] at htext hedit
  rw [hid] at hedit
  have hkeeps' := hsaved.tended.keeps hsaved.keeps₁
  rw [hstore] at hkeeps'
  exact ⟨hkeeps', text, htext, hedit.at_self⟩

theorem written_read {text : String} (h : written.toText? = some text) :
    Transaction.ofText? text = some written := by
  obtain ⟨-, -, hops, htime, hrolled, hmetadata, hreadable⟩ := changed_records
  have hregular : written.Regular :=
    { operations := fun op hop => ⟨(hops op hop).1, (hops op hop).2.1, 0, (hops op hop).2.2⟩
      timestamp := htime
      rollbackTimestamp := hrolled
      metadata := ⟨0, hmetadata⟩ }
  rw [Transaction.ofText?_toText? hregular h, if_pos hreadable]

theorem transactions_read :
    manager.store.loadTransactions.run overwritten.2 = (.ok [written], overwritten.2) := by
  have hlist := overwritten_stands.2.1.1
  obtain ⟨hkeeps, text, htext, hat⟩ := overwritten_saved
  have haims : Aims overwritten.2 manager.store.transactionsDirectory grounds.transactions
      (documentName "t") :=
    ⟨hkeeps.transactions, isName_documentName (by decide), by decide, by decide, by decide⟩
  have hread : (Utf8.decode? (Utf8.encode text)).bind Transaction.ofText? = some written := by
    rw [Utf8.decode?_encode, Option.bind_some, written_read htext]
  exact Manager.loadTransactions_only hlist (by decide)
    ⟨haims, _, _, hat, show Nat.testBit 0o600 8 = true by decide, hread⟩

def reopened : Manager :=
  { Manager.fresh (.ofString "/p") {} ⟨256, []⟩ ⟨1, 0⟩ with
    history := Index.ofValues Transaction.id [written]
    checkpoints := Index.ofValues Checkpoint.id [] }

theorem reopens : ∃ s, Manager.open? (.ofString "/p") {} later.now = some s ∧
    s.run overwritten.2 = (.ok reopened, overwritten.2) := by
  obtain ⟨-, ⟨-, hlist⟩, hproject, -⟩ := overwritten_stands
  have hmade : manager.store.ensureDirectories.run overwritten.2 = (.ok (), overwritten.2) :=
    Store.ensureDirectories_run overwritten_saved.1.toStands (Store.fits_of_ensureDirectories blank.made)
  have hcheckpoints : manager.store.loadCheckpoints.run overwritten.2 = (.ok [], overwritten.2) := by
    rw [Store.loadCheckpoints, Store.loadAll_run, hlist]
    rfl
  have hevents : EventLog.create? ({} : Settings).eventCapacity = some ⟨256, []⟩ := rfl
  have htransactions := transactions_read
  rw [reopened]
  -- the tree and the transaction are runs that nothing below may evaluate
  generalize overwritten.2 = fs at *
  generalize written = t at *
  refine ⟨_, by rw [Manager.open?, hevents]; rfl, ?_⟩
  rw [Script.run_bind, Script.run_ask, Call.perform]
  dsimp only
  rw [hproject]
  exact Manager.load_run hmade htransactions hcheckpoints

def failed : (Except Stop Unit × Desk) × FileSystem :=
  ((undoOne "t" {}).run (later.desk reopened)).run overwritten.2

theorem undo_ends : Ends (undo none {}) (later.desk reopened) overwritten.2
    (.error (.failed (.other "Rollback of t failed"))) failed.1.2 failed.2 := by
  have hnewest : (((later.desk reopened).manager.transactions.filter (·.status = .completed)).head?).map
      (·.id) = some "t" := by decide +kernel
  have hpoint := newestPoint_ends (later.desk reopened) overwritten.2
  rw [hnewest] at hpoint
  have hone : Ends (undoOne "t" {}) (later.desk reopened) overwritten.2
      (.error (.failed (.other "Rollback of t failed"))) failed.1.2 failed.2 := by
    unfold failed
    exact Action.ends_of_result (by decide +kernel)
  generalize failed = out at *
  generalize overwritten.2 = fs at *
  generalize later.desk reopened = d at *
  exact Action.ends_bind_error.2 (.inr ⟨_, _, _, hpoint, hone⟩)

theorem overwriting_calls :
    sitting.Calls overwriting overwriteInside tree (.ofString "/p") (.ofString ".xaheen") {} where
  parsed := words_parsed.2.2
  finds := ⟨tree_found.1, tree_found.2⟩
  state := rfl

theorem undoing_calls :
    later.Calls undoing undoLast overwritten.2 (.ofString "/p") (.ofString ".xaheen") {} where
  parsed := words_parsed.2.1
  finds := ⟨overwritten_stands.2.2.1, overwritten_stands.2.2.2⟩
  state := rfl

theorem undoing_fails : ((runProgram later undoing).run overwritten.2).1.code = 1 := by
  obtain ⟨s, hopen, hload⟩ := reopens
  have haction : actionOf undoLast.command = undo none {} := rfl
  have hends := undo_ends
  have hcalls := undoing_calls
  rw [← haction] at hends
  generalize overwritten.2 = fs at *
  generalize reopened = m at *
  generalize failed = out at *
  rw [hcalls.run, carryOut_run hcalls.finds hopen hload hends]
  rfl

theorem overwritten_session : Session grounds retreat (.ofString "/p") (.ofString ".xaheen")
    (fun _ _ _ => True) ([] ++ [sitting])
    (Machine.change ⟨tree.shown, []⟩ (.ofString "/p") overwrite) overwritten.2 := by
  have hasks : Asks tree overwriteInside.command overwrite := .write
  have hopen : Manager.open? (.ofString "/p") {} sitting.now = some opening := (Option.some_get _).symm
  have haction : actionOf overwriteInside.command = overwrite.action := by
    simp only [overwriteInside, actionOf, contentOf, overwrite, FileCommand.action, pure_bind]
  have hends := overwrite_ends
  rw [← haction] at hends
  have hrun : (runProgram sitting overwriting).run tree =
      (outputOf (.ok (), overwritten.1.2), overwritten.2) := by
    rw [overwriting_calls.run]
    exact carryOut_run overwriting_calls.finds hopen opened_loaded hends
  generalize overwritten = out at hrun
  exact Session.changed (.start blank) overwriting_calls fair (fun p hp => by cases hp) (by decide)
    blank.made hasks (fun l hl => ⟨(overwrite_places l hl).2.1,
      unlinked_of_tails (overwrite_places l hl).2.2⟩) hrun rfl trivial

end Sample

/-- Where there is no room to put it back, what a command has overwritten stays overwritten: a file is
written in place, but undoing needs a temporary file beside it, which cannot be made in a closed
directory. -/
theorem undo_in_closed_directory :
    Session Retrace.Sample.grounds Sample.retreat (.ofString "/p") (.ofString ".xaheen") (fun _ _ _ => True)
        [Sample.sitting] ⟨Sample.overwrite.effect (.ofString "/p") Retrace.Sample.tree.shown,
          [Retrace.Sample.tree.shown]⟩ Sample.overwritten.2 ∧
      Sample.later.Calls Sample.undoing Sample.undoLast Sample.overwritten.2 (.ofString "/p")
        (.ofString ".xaheen") {} ∧
      Sample.undoLast.command = .undo none false false false ∧ Sample.later.now.Regular ∧
      ((runProgram Sample.later Sample.undoing).run Sample.overwritten.2).1.code = 1 :=
  ⟨Sample.overwritten_session, Sample.undoing_calls, rfl, by decide, Sample.undoing_fails⟩

end Retrace.CommandLine
