import Retrace.Proofs.Rollback

/-!
Transactions of changes that were each recorded and then made. Rolling one back restores the project
wherever there is room to put back what was overwritten or removed (`rollback_restores`); without
that room it can fail (`rollback_in_closed_directory`).
-/
namespace Retrace

open FileSystem Retrace.Path Script

variable {g : Grounds} {fs fs₁ fs₂ fs₃ fs' : FileSystem} {m m₁ m₂ m₃ m' : Manager} {t : Transaction}
  {cs : List Change} {ok : FileSystem → FileSystem → Change → Prop}

/-- Changes that were recorded in the transaction under way and made, with nothing else in between.
Of the trees around each change something more may be asked. -/
inductive Recorded (g : Grounds) (ok : FileSystem → FileSystem → Change → Prop) (m : Manager)
    (fs : FileSystem) : List Change → Manager → FileSystem → Prop
  | nil : Recorded g ok m fs [] m fs
  | snoc {cs : List Change} {c : Change} {m₁ m₂ : Manager} {fs₁ fs₂ fs₃ : FileSystem}
    (h : Recorded g ok m fs cs m₁ fs₁) (hc : Bracket g m₁ fs₁ c m₂ fs₂ fs₃) (hok : ok fs₁ fs₃ c) :
    Recorded g ok m fs (cs ++ [c]) m₂ fs₃

structure Recorded.Noted (m : Manager) (t : Transaction) (ops : List Operation) (m' : Manager) :
    Prop where
  current : m'.current = some { t with operations := t.operations ++ ops }
  manager : m' = { m with events := m'.events, current := m'.current, counters := m'.counters }

theorem Recorded.trail (h : Recorded g (fun fs fs' c => c.Roomy fs fs' m.root) m fs cs m' fs')
    (hk : Keeps g m.store fs) (hroot : m.root.isAbsolute = true) (hids : ∀ c ∈ cs, Plain c.id)
    (ht : m.current = some t) :
    ∃ xs, Trail g m.store fs xs fs' ∧ xs.map (·.1.id) = cs.map (·.id) ∧
      Recorded.Noted m t (xs.map (·.1)) m' := by
  induction h with
  | nil => exact ⟨[], .nil, rfl, by simp [ht], rfl⟩
  | @snoc cs c m₁ m₂ fs₁ fs₂ fs₃ h hc hok ih =>
    obtain ⟨xs, htrail, hsame, hnoted⟩ := ih fun c hc => hids c (by simp [hc])
    have hstore : m₁.store = m.store := by rw [hnoted.manager]
    have hroot' : m₁.root = m.root := by rw [hnoted.manager]
    obtain ⟨t', op, need, ht', hm₂, hid, htraced⟩ :=
      hc.traced (hstore ▸ htrail.keeps hk) (hroot' ▸ hroot) (hids c (by simp)) (hroot' ▸ hok)
    rw [hnoted.current, Option.some.injEq] at ht'
    refine ⟨xs ++ [(op, need)], htrail.snoc (hstore ▸ htraced), by simp [hsame, hid], ?_, ?_⟩
    · rw [hm₂, ← ht']
      simp [Manager.append]
    · rw [hm₂, Manager.append, hnoted.manager]

/-- Ids that make the names of backups and belong to no operation that is kept. -/
structure Fresh (m : Manager) (ids : List String) : Prop where
  plain : ∀ i ∈ ids, Plain i
  nodup : ids.Nodup
  unused : ∀ j t, m.transaction? j = some t → ∀ op ∈ t.operations, op.id ∉ ids

section Completed

variable {text : String} (h : Manager.Completed g m fs t text fs₁ m' fs')

include h

theorem Manager.Completed.tended (hk : Keeps g m.store fs) : Tended g fs fs' :=
  (hk.tended_edit (by simp [Grounds.folders]) (by simp) h.saved).trans h.pruned.tended

theorem Manager.Completed.kept (hkept : (m'.transaction? t.id).isSome) :
    m'.transaction? t.id = some { t with status := .completed } := by
  obtain ⟨u, hu⟩ := Option.isSome_iff_exists.1 hkept
  have hsame := h.pruned.kept _ _ hu
  rw [Manager.transaction?_keep, if_pos rfl] at hsame
  rw [hu, hsame]

theorem Manager.Completed.backups (hk : Keeps g m.store fs)
    (hfresh : Fresh m (t.operations.map (·.id))) (hkept : (m'.transaction? t.id).isSome) :
    ∀ op ∈ t.operations,
      fs'.at (backupName op.id :: g.backups) = fs.at (backupName op.id :: g.backups) := by
  intro op hop
  rw [← h.saved.at_of_ne fun heq => hk.transactions_ne_backups (List.cons.inj heq).2.symm]
  refine (h.pruned.backups _).resolve_right ?_
  rintro ⟨j, u, op', hu, hgone, hop', heq⟩
  rw [Manager.transaction?_keep] at hu
  split at hu
  · next hj =>
    rw [hj, h.kept hkept] at hgone
    cases hgone
  · refine hfresh.unused j u hu op' hop' ?_
    rw [← backupName_inj heq]
    exact List.mem_map_of_mem hop

end Completed

/-- A transaction that was completed and is still kept can be rolled back. -/
theorem held_of_complete {xs : List (Operation × Option Bytes)} {r : String}
    (htrail : Trail g m.store fs xs fs') (hk : Keeps g m.store fs') (hp : Manager.PlainIds m)
    (hc : m.current = some t) (hops : t.operations = xs.map (·.1)) (hid : Plain t.id)
    (hfresh : Fresh m (xs.map (·.1.id)))
    (hcomplete : m.complete.run fs' = ((.ok r, m'), fs₁)) (hkept : (m'.transaction? t.id).isSome) :
    m'.store = m.store ∧ Held g m' fs₁ { t with status := .completed } xs ∧ Alike g fs' fs₁ := by
  have hids : t.operations.map (·.id) = xs.map (·.1.id) := by
    rw [hops, List.map_map]
    rfl
  rw [← hids] at hfresh
  have hplain : ∀ op ∈ t.operations, Plain op.id := fun op hop =>
    hfresh.plain _ (List.mem_map_of_mem hop)
  obtain ⟨-, text, fs₂, m₁, hdone, rfl⟩ := Manager.complete_ok hcomplete hk hp hc hid hplain
  have htended := hdone.tended hk
  have hk₁ := htended.keeps hk
  have hstore : m₁.store = m.store := by rw [hdone.pruned.manager]; rfl
  have hkeeps : Keeps g (m₁.publish (.transactionCompleted t.id t.operations.length)).store fs₁ := by
    have : Keeps g m₁.store fs₁ := hstore ▸ hk₁
    exact this
  have hroom : Room fs₁ m.store.transactionsDirectory g.transactions := by
    refine hdone.room.congr
      (htended.beyond _ (hk.folder_not_within (by simp [Grounds.folders]))) fun i => ?_
    rcases hdone.pruned.documents (temporaryName i) with heq | ⟨j, hj⟩
    · rw [heq, hdone.saved.at_of_ne fun h =>
        documentName_ne_temporary t.id i (List.cons.inj h).1.symm]
    · exact absurd hj.symm (documentName_ne_temporary j i)
  refine ⟨hstore, ?_, htended.alike⟩
  exact
    { keeps := hkeeps, kept := hdone.kept hkept, completed := rfl, operations := hops, plain := hid
      plain_operations := hplain
      text := by rw [hdone.written]; rfl
      secured := fun x hx => by
        have hop : x.1 ∈ t.operations := hops ▸ List.mem_map_of_mem hx
        have hsec := (htrail.secured (hids ▸ hfresh.nodup) x hx).congr hk₁
          (hdone.backups hk hfresh hkept _ hop)
        rw [← hstore] at hsec
        exact hsec
      room := by rw [← hstore] at hroom; exact hroom
      aims := by
        have := hdone.aims.of_leads hk₁.transactions
        rw [← hstore] at this
        exact this }

/-- Rolling back a transaction of changes that were each recorded and then made restores the project,
wherever what was overwritten or removed can be put back beside its place. -/
theorem rollback_restores {id r name description command : String} {metadata : Metadata}
    {now later : Instant} (hk : Keeps g m.store fs) (hroot : m.root.isAbsolute = true)
    (hp : Manager.PlainIds m) (hid : Plain id) (hfresh : Fresh m (cs.map (·.id)))
    (hstart : m.start id now name description command metadata = (.ok id, m₁))
    (hrecorded : Recorded g (fun fs fs' c => c.Roomy fs fs' m.root) m₁ fs cs m₂ fs₂)
    (hcomplete : m₂.complete.run fs₂ = ((.ok r, m₃), fs₃)) (hkept : (m₃.transaction? id).isSome) :
    ∃ result m' fs', (m₃.rollback later {} id).run fs₃ = ((result, m'), fs') ∧
      result.success = true ∧ result.errors = [] ∧ result.skippedOperations = [] ∧
      result.rolledBackOperations = cs.length ∧ Alike g fs fs' := by
  cases hcurrent : m.current with
  | some t => simp [Manager.start, hcurrent] at hstart
  | none =>
    simp only [Manager.start, hcurrent, Prod.mk.injEq, true_and] at hstart
    have hm₁ : m₁.root = m.root ∧ m₁.store = m.store ∧ m₁.history = m.history ∧
        m₁.current = some (.start id now name description command metadata) := by
      rw [← hstart]; exact ⟨rfl, rfl, rfl, rfl⟩
    obtain ⟨hroot₁, hstore₁, hhistory₁, hcurrent₁⟩ := hm₁
    rw [← hroot₁] at hrecorded
    obtain ⟨xs, htrail, hsame, hnoted⟩ := hrecorded.trail (hstore₁ ▸ hk) (hroot₁ ▸ hroot)
      (fun c hc => hfresh.plain _ (List.mem_map_of_mem hc)) hcurrent₁
    have hstore₂ : m₂.store = m₁.store := by rw [hnoted.manager]
    have hhistory₂ : ∀ j, m₂.transaction? j = m.transaction? j := fun j => by
      rw [Manager.transaction?, hnoted.manager, hhistory₁]; rfl
    have hp₂ : Manager.PlainIds m₂ :=
      ⟨fun j t ht => hp.transaction j t (hhistory₂ j ▸ ht),
        fun j t ht => hp.operation j t (hhistory₂ j ▸ ht)⟩
    have hfresh₂ : Fresh m₂ (xs.map (·.1.id)) := by
      rw [hsame]
      exact ⟨hfresh.plain, hfresh.nodup, fun j t ht => hfresh.unused j t (hhistory₂ j ▸ ht)⟩
    have hkeeps : Keeps g m₂.store fs₂ := by
      rw [hstore₂]
      exact htrail.keeps (hstore₁ ▸ hk)
    rw [← hstore₂] at htrail
    obtain ⟨hstore₃, hheld, halike⟩ := held_of_complete htrail hkeeps hp₂ hnoted.current
      (by simp [Transaction.start]) hid hfresh₂ hcomplete hkept
    rw [← hstore₃] at htrail
    have hdry : ({} : Rollback.Options).dryRun = false := rfl
    obtain ⟨result, m', fs', hrun, hback, hrolled⟩ := rollback_run hheld htrail halike hdry later
    refine ⟨result, m', fs', hrun, hrolled.success, hrolled.errors, hrolled.skipped, ?_, hback⟩
    have hlength := congrArg List.length hsame
    rw [hrolled.count]
    simpa [Transaction.start] using hlength

namespace Sample

/-- A project with a file `f` and a closed directory `d` with a file `f` of its own. Its store is new. -/
def tree : FileSystem where
  entries :=
    let name := fun s : String => Utf8.encode s
    [([name "p"], .directory 0o755),
      ([name ".xaheen", name "p"], .directory 0o755),
      ([name "transactions", name ".xaheen", name "p"], .directory 0o755),
      ([name "backups", name ".xaheen", name "p"], .directory 0o755),
      ([name "checkpoints", name ".xaheen", name "p"], .directory 0o755),
      ([name "f", name "p"], .file 0o644 [120]),
      ([name "d", name "p"], .directory 0o555),
      ([name "f", name "d", name "p"], .file 0o644 [120])]
  rootMode := 0o755
  workplace := []

def manager : Manager := .fresh (.ofString "/p") {} ⟨256, []⟩ ⟨0, 0⟩

def grounds : Grounds := manager.store.grounds tree [Utf8.encode ".xaheen", Utf8.encode "p"]

theorem folders_empty : ∀ k ∈ grounds.folders, tree.children k = [] := by decide +kernel

theorem keeps : Keeps grounds manager.store tree := .of_laid (by decide +kernel)

theorem plainIds : Manager.PlainIds manager where
  transaction _ _ h := by cases h
  operation _ _ h := by cases h

def started : Manager := (manager.start "t" ⟨0, 0⟩ "" "" "" []).2

def overwrite : Change := ⟨"o", ⟨0, 0⟩, .ofString "f", .update 0o644 [121]⟩

def rename : Change := ⟨"r", ⟨0, 0⟩, .ofString "g", .move (.ofString "f")⟩

def overwritten : Manager × FileSystem × FileSystem :=
  (overwrite.make? started tree).get (by decide +kernel)

def renamed : Manager × FileSystem × FileSystem :=
  (rename.make? overwritten.1 overwritten.2.2).get (by decide +kernel)

def completed : (Except Error String × Manager) × FileSystem := renamed.1.complete.run renamed.2.2

def overwriteInside : Change := ⟨"o", ⟨0, 0⟩, .ofString "d/f", .update 0o644 [121]⟩

def overwrittenInside : Manager × FileSystem × FileSystem :=
  (overwriteInside.make? started tree).get (by decide +kernel)

def completedInside : (Except Error String × Manager) × FileSystem :=
  overwrittenInside.1.complete.run overwrittenInside.2.2

end Sample

theorem rollback_restores_overwritten_and_moved :
    ∃ result m' fs', (Sample.completed.1.2.rollback ⟨1, 0⟩ {} "t").run Sample.completed.2 =
        ((result, m'), fs') ∧
      result.success = true ∧ result.errors = [] ∧ result.skippedOperations = [] ∧
      result.rolledBackOperations = [Sample.overwrite, Sample.rename].length ∧
      Alike Sample.grounds Sample.tree fs' := by
  have hoverwrite : Sample.overwrite.make? Sample.started Sample.tree = some Sample.overwritten :=
    (Option.some_get _).symm
  have hrename : Sample.rename.make? Sample.overwritten.1 Sample.overwritten.2.2 =
      some Sample.renamed := (Option.some_get _).symm
  have hfirst : Bracket Sample.grounds Sample.started Sample.tree Sample.overwrite
      Sample.overwritten.1 Sample.overwritten.2.1 Sample.overwritten.2.2 :=
    .of_make? (by decide +kernel) hoverwrite
  have hsecond : Bracket Sample.grounds Sample.overwritten.1 Sample.overwritten.2.2 Sample.rename
      Sample.renamed.1 Sample.renamed.2.1 Sample.renamed.2.2 :=
    .of_make? (by decide +kernel) hrename
  have hroom : Sample.overwrite.Roomy Sample.tree Sample.overwritten.2.2 Sample.manager.root := by
    decide +kernel
  have hrecorded : Recorded Sample.grounds (fun fs fs' c => c.Roomy fs fs' Sample.manager.root)
      Sample.started Sample.tree ([] ++ [Sample.overwrite] ++ [Sample.rename]) Sample.renamed.1
      Sample.renamed.2.2 :=
    .snoc (.snoc .nil hfirst hroom) hsecond trivial
  have hstart : Sample.manager.start "t" ⟨0, 0⟩ "" "" "" [] = (.ok "t", Sample.started) := rfl
  have hcomplete : Sample.renamed.1.complete.run Sample.renamed.2.2 =
      ((.ok "t", Sample.completed.1.2), Sample.completed.2) := by
    have hid : Sample.completed.1.1 = .ok "t" := by decide +kernel
    rw [← hid, ← Sample.completed]
  have hfresh : Fresh Sample.manager
      (([] ++ [Sample.overwrite] ++ [Sample.rename] : List Change).map (·.id)) :=
    ⟨by decide +kernel, by decide +kernel, fun _ _ h => by cases h⟩
  exact rollback_restores Sample.keeps (by decide +kernel) Sample.plainIds (by decide +kernel) hfresh
    hstart hrecorded hcomplete (by decide +kernel)

/-- Without room beside it, what was overwritten is not put back: the file can be written in place,
but in a closed directory no temporary file can be made. -/
theorem rollback_in_closed_directory :
    Keeps Sample.grounds Sample.manager.store Sample.tree ∧
      Recorded Sample.grounds (fun _ _ _ => True) Sample.started Sample.tree [Sample.overwriteInside]
        Sample.overwrittenInside.1 Sample.overwrittenInside.2.2 ∧
      Sample.overwrittenInside.1.complete.run Sample.overwrittenInside.2.2 =
        ((.ok "t", Sample.completedInside.1.2), Sample.completedInside.2) ∧
      (Sample.completedInside.1.2.transaction? "t").isSome ∧
      ((Sample.completedInside.1.2.rollback ⟨1, 0⟩ {} "t").run
        Sample.completedInside.2).1.1.success = false := by
  have hchange : Sample.overwriteInside.make? Sample.started Sample.tree =
      some Sample.overwrittenInside := (Option.some_get _).symm
  have hbracket : Bracket Sample.grounds Sample.started Sample.tree Sample.overwriteInside
      Sample.overwrittenInside.1 Sample.overwrittenInside.2.1 Sample.overwrittenInside.2.2 :=
    .of_make? (by decide +kernel) hchange
  have hid : Sample.completedInside.1.1 = .ok "t" := by decide +kernel
  refine ⟨Sample.keeps, Recorded.nil.snoc hbracket trivial, ?_, by decide +kernel, by decide +kernel⟩
  rw [← hid, ← Sample.completedInside]

end Retrace
