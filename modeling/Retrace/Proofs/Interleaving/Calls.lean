import Retrace.Proofs.Files
import Retrace.Proofs.Interleaving.Comparing

/-!
Calls on calm paths. A call of one rollback has the same reply alone and among the others, and changes the
same places in the same way (`Likewise`), so a script of such calls settles as it would alone whatever the
others do in between (`Settles`).
-/
namespace Retrace

open FileSystem
open Retrace.Path (IsName dot)

namespace Division

variable {ι α β : Type} (D : Division ι) (i : ι)

/-- The results of an operation alone and among the others. -/
inductive Likewise (fs g : FileSystem) : Except OsError FileSystem → Except OsError FileSystem → Prop
  | error (e : OsError) : Likewise fs g (.error e) (.error e)
  | ok {fs' g' : FileSystem} (alone : D.Within i fs fs') (among : D.Within i g g')
    (own : ∀ {k : Location}, D.own i k → g'.at k = fs'.at k) : Likewise fs g (.ok fs') (.ok g')

/-- What holds of the tree of one rollback at each of its stages: its paths are calm, and the missing
directories that have come are those that it makes. -/
structure Ready (made : Location → Prop) (P : Path → Prop) (fs : FileSystem) : Prop where
  calm {p : Path} : P p → ∃ names, p = Path.ofNames true names ∧ D.Calm i fs names
  made {k : Location} : D.Soft k → fs.at k ≠ none → made k

/-- A script comes among the others to the result that it has alone, and to a tree that mirrors the one
that it leaves alone, as far as all of its stages alone are as they should be. -/
def Settles (made : Location → Prop) (R : FileSystem → Prop) (s : Script α) (fs : FileSystem) : Prop :=
  (∀ r ∈ s.stages fs, R r) → ∀ g, D.Mirrors i fs g →
    D.Fares i made (fun a held g' => held = none ∧ a = (s.run fs).1 ∧ D.Mirrors i (s.run fs).2 g') s none g

variable {D i} {fs fs' g g' : FileSystem} {names ns : List Bytes} {p q : Path} {made : Location → Prop}
  {P : Path → Prop} {R : FileSystem → Prop} {s : Script α} {f : α → Script β} {w : Bytes} {l : Location}
  {o : Option Entry}
  {r r' : Except OsError FileSystem}

/-! ### Scripts -/

theorem Settles.pure (a : α) : D.Settles i made R (Pure.pure a : Script α) fs := fun _ _ hm =>
  .pure fun _ ho => ⟨rfl, rfl, hm.others ho⟩

theorem Settles.bind (h : D.Settles i made R s fs)
    (hf : D.Settles i made R (f (s.run fs).1) (s.run fs).2) : D.Settles i made R (s >>= f) fs := by
  intro hready g hm
  refine (h (fun r hr => hready r ((Script.mem_stages_bind s f fs r).2 (.inl hr))) g hm).mono ?_ |>.bind
  rintro a held g' ⟨rfl, rfl, hm'⟩
  rw [Script.run_bind]
  exact hf (fun r hr => hready r ((Script.mem_stages_bind s f fs r).2 (.inr hr))) g' hm'

theorem Settles.mono {R' : FileSystem → Prop} (h : D.Settles i made R s fs)
    (hR : ∀ r ∈ s.stages fs, R' r → R r) : D.Settles i made R' s fs := fun hready => h fun r hr => hR r hr (hready r hr)

theorem Settles.of_ready (h : R fs → fs.Sound → D.Settles i made R s fs) : D.Settles i made R s fs :=
  fun hready g hm => h (hready fs (Script.mem_stages_self s fs)) hm.alone.sound hready g hm

theorem Settles.ask {c : Call} (h : R fs → ∀ g, D.Mirrors i fs g →
      (c.perform g).1 = (c.perform fs).1 ∧ D.Step i made none none g (c.perform g).2 ∧
        D.Mirrors i (c.perform fs).2 (c.perform g).2) :
    @Settles ι c.Reply D i made R (Script.ask c) fs := by
  intro hready g hm
  refine .ask fun g' ho => ?_
  obtain ⟨hreply, hstep, hm'⟩ := h (hready fs (Script.mem_stages_self _ fs)) g' (hm.others ho)
  exact ⟨none, hstep, fun g'' ho' => ⟨rfl, hreply, hm'.others ho'⟩⟩

theorem Settles.next {c : Call} {k : c.Reply → Script β}
    (h : (∀ r ∈ (Script.ask c >>= k).stages fs, R r) → ∀ g, D.Mirrors i fs g → D.Others i none g g →
      D.Fares i made (fun a held g' => held = none ∧ a = ((Script.ask c >>= k).run fs).1 ∧
          D.Mirrors i ((Script.ask c >>= k).run fs).2 g') (Script.ask c >>= k) none g ∨
        k (c.perform g).1 = k (c.perform fs).1 ∧ D.Step i made none none g (c.perform g).2 ∧
          D.Mirrors i (c.perform fs).2 (c.perform g).2)
    (hk : D.Settles i made R (k (c.perform fs).1) (c.perform fs).2) :
    D.Settles i made R (Script.ask c >>= k) fs := by
  intro hready g hm
  change ∀ g', D.Others i none g g' → _
  intro g' ho
  rcases h hready g' (hm.others ho) ho.refl with hfares | ⟨hnext, hstep, hm'⟩
  · exact hfares g' ho.refl
  · refine ⟨none, hstep, ?_⟩
    rw [Script.run_bind, Script.run_ask]
    change D.Fares i made _ (k (c.perform g').1) none _
    rw [hnext]
    exact hk (fun r hr => hready r (List.mem_cons_of_mem _ hr)) _ hm'

theorem Settles.call {c : Call} {k : c.Reply → Script β}
    (h : (∀ r ∈ (Script.ask c >>= k).stages fs, R r) → ∀ g, D.Mirrors i fs g → D.Others i none g g →
      D.Fares i made (fun a held g' => held = none ∧ a = ((Script.ask c >>= k).run fs).1 ∧
          D.Mirrors i ((Script.ask c >>= k).run fs).2 g') (Script.ask c >>= k) none g ∨
        (c.perform g).1 = (c.perform fs).1 ∧ D.Step i made none none g (c.perform g).2 ∧
          D.Mirrors i (c.perform fs).2 (c.perform g).2)
    (hk : D.Settles i made R (k (c.perform fs).1) (c.perform fs).2) :
    D.Settles i made R (Script.ask c >>= k) fs :=
  .next (fun hready g hm ho => (h hready g hm ho).imp_right fun ⟨hreply, hrest⟩ => ⟨congrArg k hreply, hrest⟩) hk

theorem Settles.fixed {c : Call} {k : c.Reply → Script β} {reply : c.Reply} (h : ∀ t, c.perform t = (reply, t))
    (hk : D.Settles i made R (k reply) fs) : D.Settles i made R (Script.ask c >>= k) fs := by
  refine .call (fun _ g hm _ => .inr ?_) (by rw [h]; exact hk)
  rw [h, h]
  exact ⟨rfl, .refl hm.among, hm⟩

theorem Settles.look {c : Call} (hlook : ∀ h, (c.perform h).2 = h)
    (hreply : R fs → ∀ g, D.Mirrors i fs g → (c.perform g).1 = (c.perform fs).1) :
    @Settles ι c.Reply D i made R (Script.ask c) fs :=
  .ask fun hr g hm => ⟨hreply hr g hm, by rw [hlook]; exact .refl hm.among, by rw [hlook, hlook]; exact hm⟩

theorem Likewise.change (hD : D.Fair) (h : D.Likewise i fs g r r') (hm : D.Mirrors i fs g) :
    (Call.change g r').1 = (Call.change fs r).1 ∧ D.Step i made none none g (Call.change g r').2 ∧
      D.Mirrors i (Call.change fs r).2 (Call.change g r').2 := by
  cases h with
  | error e => exact ⟨rfl, .refl hm.among, hm⟩
  | ok alone among own => exact ⟨rfl, .within hD hm.among among, hm.within hD alone among own⟩

theorem Likewise.edit (hD : D.Fair) (hm : D.Mirrors i fs g) (hl : D.own i l) (he : Edit fs l o fs')
    (he' : Edit g l o g') : D.Likewise i fs g (.ok fs') (.ok g') :=
  .ok (.of_edit he hl) (.of_edit he' hl) fun hk => (hm.edit hD hl he he').at_own hD hk

/-! ### Looking -/

theorem Calm.entryAt_eq (hD : D.Fair) (hc : D.Calm i fs names) (hm : D.Mirrors i fs g) (follow : Bool) :
    g.entryAt follow (Path.ofNames true names) = fs.entryAt follow (Path.ofNames true names) :=
  hc.reached_eq hD hm follow true

theorem Calm.linkStatus (hD : D.Fair) (hc : D.Calm i fs names) (hm : D.Mirrors i fs g) :
    g.linkStatus (Path.ofNames true names) = fs.linkStatus (Path.ofNames true names) := by
  rw [FileSystem.linkStatus, FileSystem.linkStatus, hc.entryAt_eq hD hm]

theorem Calm.read (hD : D.Fair) (hc : D.Calm i fs names) (hm : D.Mirrors i fs g) :
    g.read (Path.ofNames true names) = fs.read (Path.ofNames true names) := by
  rw [FileSystem.read, FileSystem.read, hc.entryAt_eq hD hm]

theorem Calm.realPath (hD : D.Fair) (hc : D.Calm i fs names) (hm : D.Mirrors i fs g) :
    g.realPath (Path.ofNames true names) = fs.realPath (Path.ofNames true names) := by
  have h := hc.reached_eq hD hm true false
  rw [FileSystem.realPath, FileSystem.realPath, realLocation, realLocation, ← bind_assoc, ← bind_assoc, h]

theorem not_link_above {h : FileSystem} (hs : h.Sound) {xs : List Bytes} {n : Nat} {e : Entry} {slash dots : Bool}
    (hwalk : h.walk ⟨true, dots⟩ n [] xs = .ok (.entry l e slash)) {vs : Location} (hvs : vs <:+ l) (t : Path) :
    h.at vs ≠ some (.link t) := by
  intro hlink
  have hat : h.at l = some e := walk_entry hwalk
  by_cases heq : vs = l
  · subst heq
    obtain rfl := Option.some.inj (hat.symm.trans hlink)
    exact (walks_of_walk hwalk).not_link hs rfl ⟨_, at_nil h⟩ rfl
  · obtain ⟨m, hm⟩ := hs.above hat hvs heq
    rw [hm] at hlink
    cases hlink

/-- The real path of what a calm path leads to is calm. -/
theorem Calm.real (hD : D.Fair) (hs : fs.Sound) (hc : D.Calm i fs names)
    (h : fs.realPath (Path.ofNames true names) = .ok q) :
    ∃ l, q = Path.ofNames true l ∧ D.Calm i fs l := by
  obtain ⟨l, hl, rfl⟩ : ∃ l, fs.realLocation (Path.ofNames true names) = .ok l ∧ Path.ofNames true l = q := by
    rw [FileSystem.realPath, named_of_noNul (noNul_of_named h)] at h
    cases hl : fs.realLocation (Path.ofNames true names) with
    | error e => rw [hl] at h; cases h
    | ok l => exact ⟨l, rfl, Except.ok.inj (hl ▸ h)⟩
  have hn : ∀ v ∈ l, IsName v := (realLocation_spec hs (Path.isAbsolute_ofNames names) hl).2
  obtain ⟨r, hr, hrest⟩ := exists_of_bind hl
  obtain ⟨x, hx, hxl⟩ := exists_of_bind hrest
  obtain rfl := Except.ok.inj hxl
  have hown : D.own i r.location := hc.own_of_find hr
  rw [find_ofNames hc.isName] at hr
  split at hr
  · cases hr
  cases r with
  | vacant d w s => cases hx
  | entry k e s =>
    rw [Found.reached] at hx
    split at hx
    · cases hx
    obtain rfl := Except.ok.inj hx
    have hstraight := walkPassage_straight (n := mostLinks) (d := []) (fun v hv => isLookedUp_of_isName (hn v hv))
      fun vs hvs _ t => (List.append_nil vs).symm ▸ not_link_above hs hr hvs t
    rw [List.append_nil] at hstraight
    have hpassed := fun x hx => hstraight.1 x ((passage_ofNames hn : fs.passage _ = _) ▸ hx)
    refine ⟨k, rfl, ?_⟩
    refine
      { ne_nil := fun hnil => hD.root (hnil ▸ hown)
        isName := hn
        clear := fun x hx => ⟨fun hother => ?_, fun hscratch => ?_⟩
        shared := fun x hx _ => ⟨(hpassed x hx).1, (walks_of_walk hr).short (by simp)⟩
        ends := fun follow j hj => ?_ }
    · obtain ⟨j, hne, hj⟩ := hother
      exact hne (hD.apart (hD.closed hj (hpassed x hx).2) hown)
    · exact hscratch.2.1 i ⟨k, hown, (hpassed x hx).2⟩
    · rw [ending?_ofNames hn] at hj
      exact hstraight.2 follow j hj ▸ hown

theorem Ready.real (hD : D.Fair) (hs : fs.Sound) (hr : D.Ready i made P fs) (hp : P p)
    (h : fs.realPath p = .ok q) : ∃ l, q = Path.ofNames true l ∧ D.Calm i fs l := by
  obtain ⟨names, rfl, hc⟩ := hr.calm hp
  exact hc.real hD hs h

/-- Only whether a directory has entries is the same, not their order. -/
theorem Calm.list (hD : D.Fair) (hc : D.Calm i fs names) (hm : D.Mirrors i fs g) :
    (∃ e, fs.list (Path.ofNames true names) = .error e ∧ g.list (Path.ofNames true names) = .error e) ∨
      ∃ xs ys, fs.list (Path.ofNames true names) = .ok xs ∧ g.list (Path.ofNames true names) = .ok ys ∧
        (xs = [] ↔ ys = []) := by
  rw [FileSystem.list, FileSystem.list, hc.entryAt_eq hD hm]
  by_cases hnul : (Path.ofNames true names).hasNul = true
  · exact .inl ⟨.nulByte, by simp [named, hnul], by simp [named, hnul]⟩
  rw [named_of_noNul (by simpa using hnul), named_of_noNul (by simpa using hnul)]
  cases hx : fs.entryAt true (Path.ofNames true names) with
  | error err => exact .inl ⟨_, rfl, rfl⟩
  | ok x =>
    obtain ⟨k, e⟩ := x
    obtain ⟨hown, -⟩ := hc.own_of_entryAt hx
    cases e with
    | file m c => exact .inl ⟨_, rfl, rfl⟩
    | link t => exact .inl ⟨_, rfl, rfl⟩
    | directory m =>
      by_cases hr : (Entry.directory m).isReadable = true
      · refine .inr ⟨fs.children k, g.children k, by simp [hr, bind, Except.bind],
          by simp [hr, bind, Except.bind], ?_⟩
        rw [children_eq_nil, children_eq_nil]
        exact forall_congr' fun v => by rw [hm.at_own hD (hD.closed hown (List.suffix_cons v k))]
      · exact .inl ⟨.errno .denied, by simp [hr, bind, Except.bind], by simp [hr, bind, Except.bind]⟩

/-! ### Removing -/

theorem children_nil_iff (hD : D.Fair) (hm : D.Mirrors i fs g) (hl : D.own i l) :
    g.children l = [] ↔ fs.children l = [] := by
  rw [children_eq_nil, children_eq_nil]
  exact forall_congr' fun v => by rw [hm.at_own hD (hD.closed hl (List.suffix_cons v l))]

theorem named_nul {γ : Type} (hp : p.hasNul = true) (x : Except Errno γ) : named p x = .error .nulByte := by
  simp [named, hp]

structure Needs (p : Path) (op : FileSystem → Except OsError FileSystem) : Prop where
  barred {h : FileSystem} {err : Errno} (ha : h.approach p = .error err) : op h = .error (.errno err)
  long {h : FileSystem} {d : Location} {w : Bytes} (ha : h.approach p = .ok ⟨d, .name w, false⟩)
    (hw : longestName < w.length) : op h = .error (.errno .nameTooLong)
  none {h : FileSystem} {d : Location} {w : Bytes} (ha : h.approach p = .ok ⟨d, .name w, false⟩)
    (hw : w.length ≤ longestName) (hx : h.at (w :: d) = none) : op h = .error (.errno .noEntry)

/-- Such an operation is the same alone and among the others if it is so on what is there alone. -/
theorem Calm.needs {op : FileSystem → Except OsError FileSystem} (hD : D.Fair) (hc : D.Calm i fs (w :: ns))
    (hm : D.Mirrors i fs g) (hop : Needs (Path.ofNames true (w :: ns)) op)
    (hthere : ∀ {d e}, fs.approach (Path.ofNames true (w :: ns)) = .ok ⟨d, .name w, false⟩ →
      g.approach (Path.ofNames true (w :: ns)) = .ok ⟨d, .name w, false⟩ → w.length ≤ longestName →
      D.own i (w :: d) → g.yields d = fs.yields d → fs.at (w :: d) = some e →
      D.Likewise i fs g (op fs) (op g)) : D.Likewise i fs g (op fs) (op g) := by
  rcases hc.approached hD hm with habreast | hbehind
  · cases ha : fs.approach (Path.ofNames true (w :: ns)) with
    | error err =>
      rw [hop.barred ha, hop.barred (habreast.approach.trans ha)]
      exact .error _
    | ok a =>
      obtain ⟨d, rfl, hown, hlevel, -⟩ := habreast.place ha
      have ha' := habreast.approach.trans ha
      by_cases hlong : longestName < w.length
      · rw [hop.long ha hlong, hop.long ha' hlong]
        exact .error _
      have hshort := Nat.not_lt.1 hlong
      cases hx : fs.at (w :: d) with
      | none =>
        rw [hop.none ha hshort hx, hop.none ha' hshort ((hm.at_own hD hown).trans hx)]
        exact .error _
      | some e => exact hthere ha ha' hshort hown (yields_congr hlevel.at_self) hx
  · rw [hop.barred hbehind.approach]
    rcases hbehind.among with ha | ⟨d, ha, hshort, hnone⟩
    · rw [hop.barred ha]
      exact .error _
    · rw [hop.none ha hshort hnone]
      exact .error _

theorem needs_removeFile (hp : p.hasNul = false) : Needs p fun h => h.removeFile p where
  barred ha := by rw [FileSystem.removeFile, named_of_noNul hp, ha]; rfl
  long ha hw := by
    rw [FileSystem.removeFile, named_of_noNul hp, ha]
    simp [standing, hw, bind, Except.bind]
  none ha hw hx := by rw [removeFile_of_approach hp ha hw, hx]

theorem needs_removeDirectory (hp : p.hasNul = false) : Needs p fun h => h.removeDirectory p where
  barred ha := by rw [FileSystem.removeDirectory, named_of_noNul hp, ha]; rfl
  long ha hw := by
    rw [FileSystem.removeDirectory, named_of_noNul hp, ha]
    simp [standing, hw, bind, Except.bind]
  none ha hw hx := by
    rw [FileSystem.removeDirectory, named_of_noNul hp, ha]
    simp [standing, Nat.not_lt.2 hw, hx, bind, Except.bind]

theorem Calm.removeFile (hD : D.Fair) (hc : D.Calm i fs names) (hm : D.Mirrors i fs g) :
    D.Likewise i fs g (fs.removeFile (Path.ofNames true names)) (g.removeFile (Path.ofNames true names)) := by
  obtain ⟨w, ns, rfl⟩ := List.exists_cons_of_ne_nil hc.ne_nil
  by_cases hnul : (Path.ofNames true (w :: ns)).hasNul = true
  · rw [FileSystem.removeFile, FileSystem.removeFile, named_nul hnul, named_nul hnul]
    exact .error _
  rw [Bool.not_eq_true] at hnul
  refine hc.needs hD hm (needs_removeFile hnul) fun {d e} ha ha' hshort hown hyields hx => ?_
  rw [removeFile_of_approach hnul ha hshort, removeFile_of_approach hnul ha' hshort,
    hm.at_own hD hown, hyields, hx]
  by_cases hy : fs.yields d = true
  · by_cases hdir : e.isDirectory = true
    · simp only [hy, hdir, Bool.not_true, Bool.false_eq_true, if_false, if_true]
      exact .error _
    · simp only [hy, hdir, Bool.not_true, Bool.false_eq_true, if_false]
      have hleaf : ∀ m, fs.at (w :: d) ≠ some (.directory m) := fun m hc => by
        rw [hx] at hc
        obtain rfl := Option.some.inj hc
        exact hdir rfl
      refine .edit hD hm hown (Edit.erase hm.alone.sound (hm.alone.sound.none_in hleaf))
        (Edit.erase hm.among.sound (hm.among.sound.none_in ?_))
      rwa [hm.at_own hD hown]
  · simp only [hy, Bool.not_false, if_true]
    exact .error _

theorem Calm.removeDirectory (hD : D.Fair) (hc : D.Calm i fs names) (hm : D.Mirrors i fs g) :
    D.Likewise i fs g (fs.removeDirectory (Path.ofNames true names))
      (g.removeDirectory (Path.ofNames true names)) := by
  obtain ⟨w, ns, rfl⟩ := List.exists_cons_of_ne_nil hc.ne_nil
  by_cases hnul : (Path.ofNames true (w :: ns)).hasNul = true
  · rw [FileSystem.removeDirectory, FileSystem.removeDirectory, named_nul hnul, named_nul hnul]
    exact .error _
  rw [Bool.not_eq_true] at hnul
  refine hc.needs hD hm (needs_removeDirectory hnul) fun {d e} ha ha' hshort hown hyields hx => ?_
  simp only [FileSystem.removeDirectory, named_of_noNul hnul, ha, ha', bind, Except.bind, standing,
    if_neg (Nat.not_lt.2 hshort), hm.at_own hD hown, hyields, hx]
  by_cases hy : fs.yields d = true
  · by_cases hdir : e.isDirectory = true
    · by_cases hempty : fs.children (w :: d) = []
      · have hempty' := (children_nil_iff hD hm hown).2 hempty
        simp only [hy, hdir, hempty, hempty', Bool.not_true, Bool.false_eq_true, if_false, if_true]
        exact .edit hD hm hown (Edit.erase hm.alone.sound (children_eq_nil.1 hempty))
          (Edit.erase hm.among.sound (children_eq_nil.1 hempty'))
      · have hempty' := fun h => hempty ((children_nil_iff hD hm hown).1 h)
        simp only [hy, hdir, if_neg hempty, if_neg hempty', Bool.not_true, Bool.false_eq_true, if_false]
        exact .error _
    · simp only [hy, hdir, Bool.not_true, Bool.not_false, Bool.false_eq_true, if_false, if_true]
      exact .error _
  · simp only [hy, Bool.not_false, if_true]
    exact .error _

/-! ### Changing entries -/

theorem Likewise.insert (hD : D.Fair) (hm : D.Mirrors i fs g) (hl : D.own i l) {e : Entry}
    (hparent : ∃ m, fs.at l.tail = some (.directory m)) (hparent' : ∃ m, g.at l.tail = some (.directory m))
    (he : e.isDirectory = true ∨ ∀ m, fs.at l ≠ some (.directory m)) :
    D.Likewise i fs g (.ok (fs.insert l e)) (.ok (g.insert l e)) := by
  obtain ⟨w, d, rfl⟩ := List.exists_cons_of_ne_nil fun hc : l = [] => hD.root (hc ▸ hl)
  exact .edit hD hm hl (Edit.insert hm.alone.sound hparent he)
    (Edit.insert hm.among.sound hparent' (by rwa [hm.at_own hD hl]))

theorem parent_of_at {fs : FileSystem} (hs : fs.Sound) (hl : l ≠ []) {e : Entry} (h : fs.at l = some e) :
    ∃ m, fs.at l.tail = some (.directory m) := by
  obtain ⟨w, d, rfl⟩ := List.exists_cons_of_ne_nil hl
  exact hs.parent h

theorem isDirectory_withMode (e : Entry) (m : Nat) : (e.withMode m).isDirectory = e.isDirectory := by
  cases e <;> rfl

theorem Calm.setMode (hD : D.Fair) (hc : D.Calm i fs names) (hm : D.Mirrors i fs g) (mode : Nat) :
    D.Likewise i fs g (fs.setMode (Path.ofNames true names) mode)
      (g.setMode (Path.ofNames true names) mode) := by
  by_cases hnul : (Path.ofNames true names).hasNul = true
  · rw [FileSystem.setMode, FileSystem.setMode, named_nul hnul, named_nul hnul]
    exact .error _
  rw [Bool.not_eq_true] at hnul
  rw [FileSystem.setMode, FileSystem.setMode, named_of_noNul hnul, named_of_noNul hnul,
    hc.entryAt_eq hD hm]
  cases hx : fs.entryAt true (Path.ofNames true names) with
  | error err => exact .error _
  | ok x =>
    obtain ⟨l, e⟩ := x
    obtain ⟨hown, hat⟩ := hc.own_of_entryAt hx
    have hne : l ≠ [] := fun hc => hD.root (i := i) (hc ▸ hown)
    refine .insert hD hm hown (parent_of_at hm.alone.sound hne hat)
      (parent_of_at hm.among.sound hne ((hm.at_own hD hown).trans hat)) ?_
    rw [isDirectory_withMode]
    by_cases hdir : e.isDirectory = true
    · exact .inl hdir
    · refine .inr fun m hm' => hdir ?_
      obtain rfl : e = .directory m := Option.some.inj (hat.symm.trans hm')
      rfl

/-! ### Moving -/

variable {v : Bytes} {c d : Location}

theorem rename_of_approach {h : FileSystem} (hp : p.hasNul = false) (hq : q.hasNul = false)
    (ha : h.approach p = .ok ⟨c, .name v, false⟩) (hb : h.approach q = .ok ⟨d, .name w, false⟩)
    (hv : v.length ≤ longestName) (hw : w.length ≤ longestName) :
    h.rename p q =
      match h.at (v :: c) with
      | none => .error (.errno .noEntry)
      | some e =>
        if v :: c = w :: d then .ok h
        else match h.renameBar e c v d w with
          | some err => .error (.errno err)
          | none => .ok (h.relocate (v :: c) (w :: d)) := by
  rw [FileSystem.rename, hp, hq, ha, hb]
  simp only [Bool.or_self, Bool.false_eq_true, if_false, bind, Except.bind, standing,
    if_neg (Nat.not_lt.2 hv), if_neg (Nat.not_lt.2 hw), Bool.and_false]
  cases h.at (v :: c) with
  | none => rfl
  | some e =>
    simp only [renameBar]
    split
    · rfl
    split
    · rfl
    split
    · rfl
    cases h.moveBar e c w d (h.at (w :: d)) <;> rfl

theorem rename_long {h : FileSystem} (hp : p.hasNul = false) (hq : q.hasNul = false)
    (ha : h.approach p = .ok ⟨c, .name v, false⟩) (hb : h.approach q = .ok ⟨d, .name w, false⟩)
    (hlong : longestName < v.length ∨ longestName < w.length) : ∃ e, h.rename p q = .error e := by
  rw [FileSystem.rename, hp, hq, ha, hb]
  simp only [Bool.or_self, Bool.false_eq_true, if_false, bind, Except.bind, standing]
  by_cases hv : longestName < v.length
  · rw [if_pos hv]
    exact ⟨_, rfl⟩
  · rw [if_neg hv, if_pos (hlong.resolve_left hv)]
    cases h.at (v :: c) <;> exact ⟨_, rfl⟩

theorem rename_barred {h : FileSystem} (hbar : (∃ err, h.approach p = .error err) ∨
      (((∃ err, h.approach q = .error err) ∨ ∃ b w, h.approach q = .ok b ∧ b.ending = .name w) ∧
        ∃ d v, h.approach p = .ok ⟨d, .name v, false⟩ ∧ v.length ≤ longestName ∧ h.at (v :: d) = none) ∨
      (∃ a, h.approach p = .ok a) ∧ ∃ err, h.approach q = .error err) :
    ∃ e, h.rename p q = .error e := by
  rw [FileSystem.rename]
  split
  · exact ⟨_, rfl⟩
  rcases hbar with ⟨err, ha⟩ | ⟨⟨err, hb⟩ | ⟨b, w, hb, hw⟩, d, v, ha, hv, hnone⟩ | ⟨⟨a, ha⟩, err, hb⟩
  · rw [ha]; exact ⟨_, rfl⟩
  · rw [ha, hb]; exact ⟨_, rfl⟩
  · rw [ha, hb]
    simp only [bind, Except.bind, hw, standing, if_neg (Nat.not_lt.2 hv), hnone]
    exact ⟨_, rfl⟩
  · rw [ha, hb]; exact ⟨_, rfl⟩

theorem renameBar_eq (hD : D.Fair) (hm : D.Mirrors i fs g) (hc : g.at c = fs.at c) (hd : g.at d = fs.at d)
    (hown : D.own i (w :: d)) (e : Entry) : g.renameBar e c v d w = fs.renameBar e c v d w := by
  have hchildren : (g.children (w :: d) = []) = (fs.children (w :: d) = []) :=
    propext (children_nil_iff hD hm hown)
  simp only [renameBar, moveBar, yields_congr hc, yields_congr hd, hm.at_own hD hown, ne_eq, hchildren]

theorem Within.relocate (hD : D.Fair) (hs : fs.Sound) (hmove : Movable fs (v :: c) (w :: d))
    (hparent : ∃ m, fs.at d = some (.directory m)) (hv : D.own i (v :: c)) (hw : D.own i (w :: d)) :
    D.Within i fs (fs.relocate (v :: c) (w :: d)) where
  sound := hs.relocate hmove hparent
  same {k} hk := by
    rw [at_relocate hs hmove, if_neg fun hc => hk (hD.closed hw hc), if_neg fun hc => hk (hD.closed hv hc)]

theorem relocate_own (hD : D.Fair) (hm : D.Mirrors i fs g) (hmove : Movable fs (v :: c) (w :: d))
    (hmove' : Movable g (v :: c) (w :: d)) (hv : D.own i (v :: c)) {k : Location} (hk : D.own i k) :
    (g.relocate (v :: c) (w :: d)).at k = (fs.relocate (v :: c) (w :: d)).at k := by
  rw [at_relocate hm.alone.sound hmove, at_relocate hm.among.sound hmove']
  split
  · exact hm.at_own hD (hD.closed hv (List.suffix_append _ _))
  split
  · rfl
  · exact hm.at_own hD hk

theorem movable_of_rename {h h' : FileSystem} (hs : h.Sound) (ha : h.approach p = .ok ⟨c, .name v, false⟩)
    (hb : h.approach q = .ok ⟨d, .name w, false⟩) (hne : v :: c ≠ w :: d) (hok : h.rename p q = .ok h') :
    Movable h (v :: c) (w :: d) := by
  obtain ⟨a, v', b, w', x, ha', hv, hb', hw, -, hmoved⟩ := rename_inv hs hok
  obtain rfl := Except.ok.inj (ha.symm.trans ha')
  obtain rfl := Except.ok.inj (hb.symm.trans hb')
  obtain rfl := Ending.name.inj hv
  obtain rfl := Ending.name.inj hw
  exact (hmoved.resolve_left fun hc => hne hc.1).1

/-- Both ends of a renaming are in directories that are the same alone and among the others. -/
theorem Mirrors.rename (hD : D.Fair) (hm : D.Mirrors i fs g) (hp : p.hasNul = false) (hq : q.hasNul = false)
    (ha : fs.approach p = .ok ⟨c, .name v, false⟩) (ha' : g.approach p = .ok ⟨c, .name v, false⟩)
    (hb : fs.approach q = .ok ⟨d, .name w, false⟩) (hb' : g.approach q = .ok ⟨d, .name w, false⟩)
    (hv : v.length ≤ longestName) (hw : w.length ≤ longestName) (hown : D.own i (v :: c))
    (hown' : D.own i (w :: d)) (hc : g.at c = fs.at c) (hlevel : Level fs g d) :
    D.Likewise i fs g (fs.rename p q) (g.rename p q) := by
  have heq := rename_of_approach hp hq ha hb hv hw
  have heq' := rename_of_approach hp hq ha' hb' hv hw
  rw [hm.at_own hD hown] at heq'
  cases hx : fs.at (v :: c) with
  | none =>
    rw [hx] at heq heq'
    rw [heq, heq']
    exact .error _
  | some e =>
    rw [hx] at heq heq'
    dsimp only at heq heq'
    rw [renameBar_eq hD hm hc hlevel.at_self hown'] at heq'
    by_cases hsame : v :: c = w :: d
    · rw [if_pos hsame] at heq heq'
      rw [heq, heq']
      exact .ok (.refl hm.alone.sound) (.refl hm.among.sound) fun hk => hm.at_own hD hk
    rw [if_neg hsame] at heq heq'
    cases hbar : fs.renameBar e c v d w with
    | some err =>
      rw [hbar] at heq heq'
      rw [heq, heq']
      exact .error _
    | none =>
      rw [hbar] at heq heq'
      have hmove := movable_of_rename hm.alone.sound ha hb hsame heq
      have hmove' := movable_of_rename hm.among.sound ha' hb' hsame heq'
      have hparent := (hlevel d List.suffix_rfl).2
      rw [heq, heq']
      exact .ok (.relocate hD hm.alone.sound hmove hparent hown hown')
        (.relocate hD hm.among.sound hmove' (by rwa [hlevel.at_self]) hown hown')
        fun hk => relocate_own hD hm hmove hmove' hown hk

/-- Alone there is no directory to rename from; among the others there is nothing in it to rename. -/
theorem Behind.rename {up : Path} (h : Behind fs g v up p) (hns : ∀ u ∈ w :: ns, IsName u) :
    ∃ e e', fs.rename p (Path.ofNames true (w :: ns)) = .error e ∧
      g.rename p (Path.ofNames true (w :: ns)) = .error e' := by
  have hends : (∃ err, g.approach (Path.ofNames true (w :: ns)) = .error err) ∨
      ∃ b u, g.approach (Path.ofNames true (w :: ns)) = .ok b ∧ b.ending = .name u := by
    rw [approach_ofNames hns]
    split
    · exact .inl ⟨_, rfl⟩
    split
    · exact .inr ⟨_, w, rfl, rfl⟩
    · exact .inl ⟨_, rfl⟩
    · exact .inl ⟨_, rfl⟩
  obtain ⟨e, he⟩ := rename_barred (q := Path.ofNames true (w :: ns)) (.inl ⟨_, h.approach⟩)
  rcases h.among with ha | ⟨d, ha, hshort, hnone⟩
  · obtain ⟨e', he'⟩ := rename_barred (q := Path.ofNames true (w :: ns)) (.inl ⟨_, ha⟩)
    exact ⟨e, e', he, he'⟩
  · obtain ⟨e', he'⟩ := rename_barred (.inr (.inl ⟨hends, d, v, ha, hshort, hnone⟩))
    exact ⟨e, e', he, he'⟩

/-- A renaming that goes well alone goes well among the others too, and does the same; the errors of one
that does not may differ. -/
theorem Calm.rename (hD : D.Fair) {ms : List Bytes} (hp : D.Calm i fs (v :: ms)) (hm : D.Mirrors i fs g)
    (hns : ∀ u ∈ w :: ns, IsName u) (hq : D.Abreast i fs g w (Path.ofNames true (w :: ns))) :
    (∃ e e', fs.rename (Path.ofNames true (v :: ms)) (Path.ofNames true (w :: ns)) = .error e ∧
        g.rename (Path.ofNames true (v :: ms)) (Path.ofNames true (w :: ns)) = .error e') ∨
      D.Likewise i fs g (fs.rename (Path.ofNames true (v :: ms)) (Path.ofNames true (w :: ns)))
        (g.rename (Path.ofNames true (v :: ms)) (Path.ofNames true (w :: ns))) := by
  by_cases hnul : ((Path.ofNames true (v :: ms)).hasNul || (Path.ofNames true (w :: ns)).hasNul) = true
  · refine .inl ⟨.nulByte, .nulByte, ?_, ?_⟩ <;> rw [FileSystem.rename, if_pos hnul]
  rw [Bool.not_eq_true, Bool.or_eq_false_iff] at hnul
  rcases hp.approached hD hm with habreast | hbehind
  swap
  · exact .inl (hbehind.rename hns)
  cases ha : fs.approach (Path.ofNames true (v :: ms)) with
  | error err =>
    obtain ⟨e, he⟩ := rename_barred (q := Path.ofNames true (w :: ns)) (.inl ⟨err, ha⟩)
    obtain ⟨e', he'⟩ := rename_barred (q := Path.ofNames true (w :: ns))
      (.inl ⟨err, habreast.approach.trans ha⟩)
    exact .inl ⟨e, e', he, he'⟩
  | ok a =>
    have ha' := habreast.approach.trans ha
    cases hb : fs.approach (Path.ofNames true (w :: ns)) with
    | error err =>
      obtain ⟨e, he⟩ := rename_barred (.inr (.inr ⟨⟨a, ha⟩, err, hb⟩))
      obtain ⟨e', he'⟩ := rename_barred (.inr (.inr ⟨⟨a, ha'⟩, err, hq.approach.trans hb⟩))
      exact .inl ⟨e, e', he, he'⟩
    | ok b =>
      have hb' := hq.approach.trans hb
      obtain ⟨c, rfl, hv, hlevel, -⟩ := habreast.place ha
      obtain ⟨d, rfl, hw, hlevel', -⟩ := hq.place hb
      by_cases hlong : longestName < v.length ∨ longestName < w.length
      · obtain ⟨e, he⟩ := rename_long hnul.1 hnul.2 ha hb hlong
        obtain ⟨e', he'⟩ := rename_long hnul.1 hnul.2 ha' hb' hlong
        exact .inl ⟨e, e', he, he'⟩
      rw [not_or, Nat.not_lt, Nat.not_lt] at hlong
      exact .inr (hm.rename hD hnul.1 hnul.2 ha ha' hb hb' hlong.1 hlong.2 hv hw hlevel.at_self hlevel')

/-! ### Copying -/

theorem Mirrors.at_parent (hD : D.Fair) (hm : D.Mirrors i fs g) (hl : D.own i (w :: d))
    (hd : ∃ m, fs.at d = some (.directory m)) : g.at d = fs.at d := by
  obtain ⟨m, hd⟩ := hd
  by_cases hsoft : D.Soft d
  · exact hm.more hsoft (by simp [hd])
  · refine hm.same ⟨fun ⟨j, hne, hj⟩ => ?_, fun hs => hsoft hs.1, fun hs => ?_⟩
    · exact hne (hD.apart (hD.closed hj (List.suffix_cons w d)) hl)
    · rw [hm.tidy hs] at hd
      cases hd

theorem Calm.openEmpty (hD : D.Fair) (hc : D.Calm i fs (w :: ns)) (hm : D.Mirrors i fs g)
    (hq : D.Abreast i fs g w (Path.ofNames true (w :: ns))) (mode : Nat) :
    (∃ e, fs.openEmpty (Path.ofNames true (w :: ns)) mode = .error e ∧
        g.openEmpty (Path.ofNames true (w :: ns)) mode = .error e) ∨
      ∃ k n fs' g', fs.openEmpty (Path.ofNames true (w :: ns)) mode = .ok (k, fs') ∧
        g.openEmpty (Path.ofNames true (w :: ns)) mode = .ok (k, g') ∧ D.own i k ∧
        Edit fs k (some (.file n [])) fs' ∧ Edit g k (some (.file n [])) g' := by
  by_cases hnul : (Path.ofNames true (w :: ns)).hasNul = true
  · refine .inl ⟨.nulByte, ?_, ?_⟩ <;> rw [FileSystem.openEmpty, named_nul hnul]
  rw [Bool.not_eq_true] at hnul
  rw [FileSystem.openEmpty, FileSystem.openEmpty, named_of_noNul hnul, named_of_noNul hnul, hq.approach, hq.find]
  cases ha : fs.approach (Path.ofNames true (w :: ns)) with
  | error err => exact .inl ⟨_, rfl, rfl⟩
  | ok a =>
    obtain ⟨d, rfl, -, -, -⟩ := hq.place ha
    cases hr : fs.find ⟨true, true⟩ (Path.ofNames true (w :: ns)) with
    | error err => exact .inl ⟨_, rfl, rfl⟩
    | ok r =>
      have hown := hc.own_of_find hr
      have hends := (find_ends hm.alone.sound (Path.isAbsolute_ofNames _) hr).1
      cases r with
      | entry l e slash =>
        have hat : fs.at l = some e := hends.1
        have hat' : g.at l = some e := (hm.at_own hD hown).trans hat
        cases e with
        | file m c =>
          cases slash with
          | true => exact .inl ⟨_, rfl, rfl⟩
          | false =>
            by_cases hwritable : (Entry.file m c).isWritable = true
            · refine .inr ⟨l, modeWritten m, _, _, by simp [hwritable, bind, Except.bind, Approach.location?],
                by simp [hwritable, bind, Except.bind, Approach.location?], hown,
                Edit.insert_file hm.alone.sound (.inl hat) (by simp [hat]) _,
                Edit.insert_file hm.among.sound (.inl hat') (by simp [hat']) _⟩
            · exact .inl ⟨.errno .denied, by simp [hwritable, bind, Except.bind, Approach.location?],
                by simp [hwritable, bind, Except.bind, Approach.location?]⟩
        | directory m => exact .inl ⟨_, rfl, rfl⟩
        | link t => exact .inl ⟨_, rfl, rfl⟩
      | vacant c v slash =>
        obtain ⟨hparent, hfree, -⟩ := hends
        have hsame := hm.at_parent hD hown hparent
        cases slash with
        | true => exact .inl ⟨_, rfl, rfl⟩
        | false =>
          by_cases hy : fs.yields c = true
          · have hy' := (yields_congr hsame).trans hy
            refine .inr ⟨v :: c, mode, _, _, by simp [hy, bind, Except.bind, Approach.location?],
              by simp [hy', bind, Except.bind, Approach.location?], hown,
              Edit.insert hm.alone.sound hparent (.inr (by simp [hfree])),
              Edit.insert hm.among.sound (by rwa [hsame]) (.inr fun m hc => ?_)⟩
            have hfree' : g.at (v :: c) = none := (hm.at_own hD hown).trans hfree
            rw [hfree'] at hc
            cases hc
          · have hy' : ¬g.yields c = true := by rwa [yields_congr hsame]
            exact .inl ⟨.errno .denied, by simp [hy, bind, Except.bind, Approach.location?],
              by simp [hy', bind, Except.bind, Approach.location?]⟩

theorem Calm.copy (hD : D.Fair) (hp : D.Calm i fs names) (hc : D.Calm i fs (w :: ns)) (hm : D.Mirrors i fs g)
    (hq : D.Abreast i fs g w (Path.ofNames true (w :: ns))) :
    D.Likewise i fs g (fs.copy (Path.ofNames true names) (Path.ofNames true (w :: ns)))
      (g.copy (Path.ofNames true names) (Path.ofNames true (w :: ns))) := by
  rw [FileSystem.copy, FileSystem.copy, hp.entryAt_eq hD hm]
  cases hx : named (Path.ofNames true names) (fs.entryAt true (Path.ofNames true names)) with
  | error e => exact .error e
  | ok x =>
    obtain ⟨l, e⟩ := x
    obtain ⟨hl, hat⟩ := hp.own_of_entryAt (eq_ok_of_named hx)
    by_cases hreadable : e.isReadable = true
    swap
    · simp only [bind, Except.bind, hreadable, Bool.not_false, if_true]
      exact .error _
    cases e with
    | directory m =>
      simp only [bind, Except.bind, hreadable, Bool.not_true, Bool.false_eq_true, if_false]
      exact .error _
    | link t =>
      simp only [bind, Except.bind, hreadable, Bool.not_true, Bool.false_eq_true, if_false]
      exact .error _
    | file m c =>
      simp only [bind, Except.bind, hreadable, Bool.not_true, Bool.false_eq_true, if_false]
      rcases hc.openEmpty hD hm hq m with ⟨e, he, he'⟩ | ⟨k, n, fs', g', hopen, hopen', hk, hedit, hedit'⟩
      · rw [he, he']
        exact .error e
      · rw [hopen, hopen']
        have hm' := hm.edit hD hk hedit hedit'
        have hfile : ∀ m c, Edit fs' k (some (.file m c)) (fs'.insert k (.file m c)) := fun _ _ =>
          Edit.insert_file hedit.sound (.inl hedit.at_self) (by simp [hedit.at_self]) _
        have hfile' : ∀ m c, Edit g' k (some (.file m c)) (g'.insert k (.file m c)) := fun _ _ =>
          Edit.insert_file hedit'.sound (.inl hedit'.at_self) (by simp [hedit'.at_self]) _
        dsimp only
        rw [hm'.at_own hD hl]
        cases hcontent : fs'.at l with
        | none => exact .edit hD hm hk hedit hedit'
        | some x =>
          cases x with
          | file m' b => exact .edit hD hm hk (hedit.trans (hfile _ b)) (hedit'.trans (hfile' _ b))
          | directory m' => exact .edit hD hm hk hedit hedit'
          | link t => exact .edit hD hm hk hedit hedit'

end Division
end Retrace
