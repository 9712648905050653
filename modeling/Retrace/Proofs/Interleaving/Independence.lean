import Retrace.Proofs.Interleaving.Reverting

/-!
Transactions whose rollbacks keep apart. Where the paths of a rollback lead while it goes on alone is its
own (`Manager.ends`); rollbacks are independent when that is apart from what is of the others, and when on
the way there they pass nothing that the others change, but for missing directories of their own paths
(`Manager.Independent`). Such rollbacks come to the same results and to the same tree in any order of
their calls (`Manager.Independent.woven`).
-/
namespace Retrace

open FileSystem Script
open Retrace.Path (IsName)

namespace Division

variable {ι : Type} {D : Division ι} {i : ι} {fs g g' : FileSystem} {names : List Bytes} {q : Path} {k : Location}

/-! ### Where all end -/

structure Merges (D : Division ι) (is : List ι) (alone : ι → FileSystem) (g : FileSystem) : Prop where
  orderly : D.Orderly g
  mirrors : ∀ i ∈ is, D.Mirrors i (alone i) g
  tidy {k : Location} : D.Scratch k → g.at k = none
  made {k : Location} : D.Soft k → g.at k ≠ none → ∃ i ∈ is, (alone i).at k ≠ none

variable {is : List ι} {alone : ι → FileSystem}

theorem Merges.soft (h : D.Merges is alone g) (h' : D.Merges is alone g') (hk : D.Soft k)
    (hne : g.at k ≠ none) : g'.at k = g.at k := by
  obtain ⟨i, hi, hmade⟩ := h.made hk hne
  rw [(h.mirrors i hi).more hk hmade, (h'.mirrors i hi).more hk hmade]

theorem Merges.eq (hD : D.Fair) (hown : ∀ {i k}, D.own i k → i ∈ is) (h : D.Merges is alone g)
    (h' : D.Merges is alone g') (k : Location) : g'.at k = g.at k := by
  by_cases hex : ∃ i, D.own i k
  · obtain ⟨i, hi⟩ := hex
    rw [(h.mirrors i (hown hi)).at_own hD hi, (h'.mirrors i (hown hi)).at_own hD hi]
  have hnot : ∀ i, ¬D.own i k := fun i hi => hex ⟨i, hi⟩
  by_cases hbase : D.base.at k = none
  swap
  · rw [h.orderly.kept hnot hbase, h'.orderly.kept hnot hbase]
  by_cases hsoft : D.Soft k
  · by_cases hnone : g.at k = none
    · rw [hnone]
      by_contra hne
      exact hne ((h'.soft h hsoft hne).symm.trans hnone)
    · exact h.soft h' hsoft hnone
  by_cases hscratch : D.Scratch k
  · rw [h.tidy hscratch, h'.tidy hscratch]
  · rw [h.orderly.bare ⟨hnot, hbase⟩ hsoft hscratch, h'.orderly.bare ⟨hnot, hbase⟩ hsoft hscratch]

theorem orderly_base (hs : D.base.Sound) : D.Orderly D.base where
  sound := hs
  kept _ _ := rfl
  soft hk := .inl hk.1.2
  scratch hk e he := by rw [hk.1.2] at he; cases he
  bare hk _ _ := hk.2

theorem alone_base (hs : D.base.Sound) : D.Alone none D.base :=
  ⟨orderly_base hs, fun _ hk hne => absurd hk.1.2 hne⟩

/-- Scripts that settle come together to the results that each has alone, and to one tree. -/
theorem merges_of_woven {α : Type} (hD : D.Fair) (hnodup : is.Nodup) (hcrowd : is.length ≤ D.crowd)
    (thread : ι → Script α) (hsettles : ∀ i ∈ is,
      D.Settles i (fun k => ((thread i).run D.base).2.at k ≠ none) (fun _ => True) (thread i) D.base)
    {as : List α} (h : Woven (is.map thread) D.base as g) :
    as = is.map (fun i => ((thread i).run D.base).1) ∧
      D.Merges is (fun i => ((thread i).run D.base).2) g := by
  classical
  have hstart : D.Coherent is (fun _ => none) D.base :=
    ⟨orderly_base hD.sound, fun _ _ _ hk => (nomatch hk), fun _ hk hne => absurd hk.1.2 hne,
      fun _ _ _ _ _ hk => (nomatch hk)⟩
  have hgo : List.Forall₂ (D.Going (fun i k => ((thread i).run D.base).2.at k ≠ none)
      (fun i a fs => a = ((thread i).run D.base).1 ∧ D.Mirrors i ((thread i).run D.base).2 fs)
      (fun _ => none) D.base) is (is.map thread) := by
    rw [List.forall₂_map_right_iff, List.forall₂_same]
    exact fun i hi => hsettles i hi (fun _ _ => trivial) D.base (.refl (alone_base hD.sound))
  obtain ⟨hq, hord, htidy, hsoft⟩ := Division.Woven.fare h hnodup hcrowd hstart hgo
  obtain ⟨hresults, hmirrors⟩ : as = is.map (fun i => ((thread i).run D.base).1) ∧
      ∀ i ∈ is, D.Mirrors i ((thread i).run D.base).2 g := by
    clear hgo hsettles hnodup hcrowd hstart h hsoft
    induction hq with
    | nil => exact ⟨rfl, fun i hi => nomatch hi⟩
    | cons ha _ ih =>
      obtain ⟨hrest, hmirrors⟩ := ih
      refine ⟨by rw [List.map_cons, ← ha.1, ← hrest], fun i hi => ?_⟩
      rcases List.mem_cons.1 hi with rfl | hi
      · exact ha.2
      · exact hmirrors i hi
  refine ⟨hresults, hord, hmirrors, htidy _, fun {k} hk hne => ?_⟩
  exact (hsoft k hk hne).resolve_left fun hb => hb hk.1.2

end Division

namespace Manager

open Rollback (Options Result)

/-! ### Independent transactions -/

section

variable (m : Manager) (now : Instant) (options : Options) (fs : FileSystem)

/-- Where the paths of a rollback lead at some stage of it alone, a link at the end followed or not. -/
def ends (t : Transaction) : List Location :=
  ((m.undo now options t).stages fs).flatMap fun r => (m.paths t).flatMap fun p =>
    (r.ending? false p).toList ++ (r.ending? true p).toList

def passed (t : Transaction) : List (Path × Location × Bool) :=
  ((m.undo now options t).stages fs).flatMap fun r => (m.paths t).flatMap fun p =>
    (r.passage p).map (p, ·)

def division (ts : List Transaction) : Division Transaction where
  base := fs
  own t k := t ∈ ts ∧ ∃ l ∈ m.ends now options fs t, l <:+ k
  crowd := ts.length

/-- Transactions whose rollbacks keep apart from each other. -/
structure Independent (ts : List Transaction) : Prop where
  sound : fs.Sound
  /-- There are temporary names enough. -/
  room (d : Location) : (fs.children d).length + ts.length ≤ 1000000
  normal : ∀ t ∈ ts, ∀ p ∈ m.paths t,
    ∃ names, names ≠ [] ∧ (∀ v ∈ names, IsName v) ∧ p = Path.ofNames true names
  root : ∀ t ∈ ts, [] ∉ m.ends now options fs t
  /-- Nothing of one is at, above or below what is of another. -/
  apart : ∀ t ∈ ts, ∀ u ∈ ts, u ≠ t → ∀ k ∈ m.ends now options fs t, ∀ l ∈ m.ends now options fs u, ¬l <:+ k
  /-- Nothing of another is passed. -/
  clear : ∀ t ∈ ts, ∀ u ∈ ts, u ≠ t → ∀ x ∈ m.passed now options fs t,
    ∀ l ∈ m.ends now options fs u, ¬l <:+ x.2.1
  /-- A missing directory that another needs too is passed by no link, and on no path with too long a name. -/
  direct : ∀ t ∈ ts, ∀ u ∈ ts, u ≠ t → ∀ x ∈ m.passed now options fs t, fs.at x.2.1 = none →
    (∃ l ∈ m.ends now options fs u, x.2.1 <:+ l) → x.2.2 = true ∧ ∀ v ∈ x.1.named, v.length ≤ longestName
  /-- Nothing is named like a temporary file where a path leads, nor on its way where nothing stood. -/
  named : ∀ t ∈ ts, ∀ n d, temporaryName n :: d ∉ m.ends now options fs t ∧
    (fs.at (temporaryName n :: d) = none →
      (∀ l ∈ m.ends now options fs t, ¬(temporaryName n :: d) <:+ l) ∧
      ∀ x ∈ m.passed now options fs t, x.2.1 ≠ temporaryName n :: d)

end

variable {m : Manager} {now : Instant} {options : Options} {fs fs' fs'' r : FileSystem} {ts : List Transaction}
  {t u : Transaction} {p : Path} {k l : Location}

theorem mem_ends (hr : r ∈ (m.undo now options t).stages fs) (hp : p ∈ m.paths t) {follow : Bool}
    (hl : r.ending? follow p = some l) : l ∈ m.ends now options fs t := by
  refine List.mem_flatMap.2 ⟨r, hr, List.mem_flatMap.2 ⟨p, hp, List.mem_append.2 ?_⟩⟩
  cases follow with
  | false => exact .inl (Option.mem_toList.2 hl)
  | true => exact .inr (Option.mem_toList.2 hl)

theorem mem_passed (hr : r ∈ (m.undo now options t).stages fs) (hp : p ∈ m.paths t) {x : Location × Bool}
    (hx : x ∈ r.passage p) : (p, x) ∈ m.passed now options fs t :=
  List.mem_flatMap.2 ⟨r, hr, List.mem_flatMap.2 ⟨p, hp, List.mem_map_of_mem hx⟩⟩

theorem suffix_end (hk : (m.division now options fs ts).Above t k)
    (hnot : ¬(m.division now options fs ts).own t k) : t ∈ ts ∧ ∃ l ∈ m.ends now options fs t, k <:+ l := by
  obtain ⟨l, ⟨ht, e, he, hel⟩, hkl⟩ := hk
  rcases List.suffix_or_suffix_of_suffix hel hkl with h | h
  · exact absurd ⟨ht, e, he, h⟩ hnot
  · exact ⟨ht, e, he, h⟩

namespace Independent

variable (h : m.Independent now options fs ts) (hkept : ∀ t ∈ ts, m.transaction? t.id = some t)
include h

theorem not_end_above_end (ht : t ∈ ts) (hu : u ∈ ts) (hne : u ≠ t) {a b : Location}
    (ha : a ∈ m.ends now options fs t) (hb : b ∈ m.ends now options fs u) (hak : a <:+ k) (hbk : b <:+ k) : False :=
  (List.suffix_or_suffix_of_suffix hak hbk).elim (h.apart u hu t ht hne.symm b hb a ha)
    (h.apart t ht u hu hne a ha b hb)

theorem fair : (m.division now options fs ts).Fair where
  sound := h.sound
  root := fun {t} ⟨ht, l, hl, hnil⟩ => h.root t ht (List.suffix_nil.1 hnil ▸ hl)
  closed := fun ⟨ht, e, he, hek⟩ hkl => ⟨ht, e, he, hek.trans hkl⟩
  apart := fun {t u k} ⟨ht, a, ha, hak⟩ ⟨hu, b, hb, hbk⟩ => by
    by_contra hne
    exact h.not_end_above_end ht hu (Ne.symm hne) ha hb hak hbk
  tops := fun {t n d} ⟨ht, e, he, hed⟩ => by
    rcases List.suffix_cons_iff.1 hed with rfl | hed
    · exact absurd he (h.named t ht n d).1
    · exact ⟨ht, e, he, hed⟩
  ways := fun {n d} hsoft => by
    obtain ⟨hfree, t, ht⟩ := hsoft
    obtain ⟨ht, l, hl, hdl⟩ := suffix_end ht (hfree.1 t)
    exact ((h.named t ht n d).2 hfree.2).1 l hl hdl
  room := h.room

theorem calm (ht : t ∈ ts) (hr : r ∈ (m.undo now options t).stages fs) (hp : p ∈ m.paths t) :
    ∃ names, p = Path.ofNames true names ∧ (m.division now options fs ts).Calm t r names := by
  obtain ⟨names, hne, hn, rfl⟩ := h.normal t ht p hp
  refine ⟨names, rfl, hne, hn, fun x hx => ⟨?_, ?_⟩, fun x hx hshared => ?_, fun _ _ hl => ?_⟩
  · rintro ⟨u, hut, hu, l, hl, hlx⟩
    exact h.clear t ht u hu hut _ (mem_passed hr hp hx) l hl hlx
  · rintro ⟨hfree, -, n, d, hx'⟩
    exact ((h.named t ht n d).2 (hx' ▸ hfree.2)).2 _ (mem_passed hr hp hx) hx'
  · obtain ⟨⟨hfree, -⟩, u, hut, hu⟩ := hshared
    obtain ⟨hu, l, hl, hxl⟩ := suffix_end hu (hfree.1 u)
    obtain ⟨hdirect, hshort⟩ := h.direct t ht u hu hut _ (mem_passed hr hp hx) hfree.2 ⟨l, hl, hxl⟩
    refine ⟨hdirect, fun v hv => hshort v ?_⟩
    rw [Path.named_ofNames hn]
    exact List.mem_reverse.2 hv
  · exact ⟨ht, _, mem_ends hr hp hl, List.suffix_rfl⟩

include hkept

/-- Each rollback comes among the others to what it comes to alone. -/
theorem settles (ht : t ∈ ts) : (m.division now options fs ts).Settles t
    (fun k => ((m.undo now options t).run fs).2.at k ≠ none) (fun _ => True) (m.undo now options t) fs := by
  have hready : ∀ made : Location → Prop,
      (∀ r ∈ (m.undo now options t).stages fs, ∀ k, (m.division now options fs ts).Soft k →
        r.at k ≠ none → made k) →
      ∀ g, (m.division now options fs ts).Mirrors t fs g →
        (m.division now options fs ts).Fares t made (fun a held g' => held = none ∧
            a = ((m.undo now options t).run fs).1 ∧
            (m.division now options fs ts).Mirrors t ((m.undo now options t).run fs).2 g')
          (m.undo now options t) none g := fun made hmade =>
    Division.settles_undo (P := (· ∈ m.paths t)) h.fair (hkept t ht) (fun _ hp => hp) fun r hr =>
      ⟨fun hp => h.calm ht hr hp, fun hk => hmade r hr _ hk⟩
  -- alone no missing directory goes that has come
  have halone : (m.division now options fs ts).Alone none fs := Division.alone_base h.sound
  have hstay := ((hready (fun _ => True) (fun _ _ _ _ _ => trivial) fs (.refl halone)).run
    (List.length_pos_of_mem ht) halone).2.1
  exact fun _ => hready _ hstay

/-- In any order of their calls the rollbacks come to the results that each has alone, and to one tree. -/
theorem woven (hts : ts.Nodup) {xs : List (Result × Option Transaction)}
    (hw : Woven (ts.map (m.undo now options)) fs xs fs') :
    xs = ts.map (fun t => ((m.undo now options t).run fs).1) ∧
      (m.division now options fs ts).Merges ts (fun t => ((m.undo now options t).run fs).2) fs' :=
  Division.merges_of_woven h.fair hts le_rfl (m.undo now options) (fun _ ht => h.settles hkept ht) hw

theorem woven_eq (hts : ts.Nodup) {xs ys : List (Result × Option Transaction)}
    (hw : Woven (ts.map (m.undo now options)) fs xs fs') (hw' : Woven (ts.map (m.undo now options)) fs ys fs'') :
    xs = ys ∧ ∀ l, fs'.at l = fs''.at l := by
  obtain ⟨rfl, hmerges⟩ := h.woven hkept hts hw
  obtain ⟨rfl, hmerges'⟩ := h.woven hkept hts hw'
  exact ⟨rfl, hmerges'.eq h.fair (fun hown => hown.1) hmerges⟩

end Independent

end Manager
end Retrace
