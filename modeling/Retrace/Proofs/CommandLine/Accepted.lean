import Mathlib.Data.List.Nodup
import Mathlib.Tactic.Common
import Retrace.CommandLine.Parser

/-!
What a command line that is accepted can ask for: every value stands under an argument of its command
and is of that argument's kind (`Sourced`), which one word after the other keeps (`Stands.step`) and so
does the whole reading (`matchFrom_stands`).
-/
namespace Retrace

/-- A command that can be put into words: paths are not empty, numbers are in their range, and what is
to be written is given in one way at most. -/
def Command.WellFormed : Command → Prop
  | .history limit => limit < Nat.pow 2 64
  | .clean days _ => ∀ n ∈ days, n < Nat.pow 2 32
  | .write path content source =>
    path.bytes ≠ [] ∧ (∀ p ∈ source, p.bytes ≠ []) ∧ (content = none ∨ source = none)
  | .remove path => path.bytes ≠ []
  | .move source target => source.bytes ≠ [] ∧ target.bytes ≠ []
  | _ => True

structure Invocation.WellFormed (i : Invocation) : Prop where
  project : i.project.bytes ≠ []
  command : i.command.WellFormed

namespace CommandLine

open Reading

variable {g c : Grammar} {r s : Reading} {f : Found} {a : Argument} {k : ValueKind} {x : Value}
  {w : Word} {m : Matched} {name id : String}

theorem bind_ok {α β : Type} {x : Except Usage α} {f : α → Except Usage β} {b : β} :
    x >>= f = .ok b ↔ ∃ a, x = .ok a ∧ f a = .ok b := by
  cases x <;> simp [bind, Except.bind]

/-! ### Values -/

def Value.Fits : Value → ValueKind → Prop
  | .text _, .text => True
  | .path p, .path => p.bytes ≠ []
  | .number n, .count => n < Nat.pow 2 64
  | .number n, .days => n < Nat.pow 2 32
  | _, _ => False

theorem Value.bounded_ok {bits : Nat} {o : Option Nat} (h : Value.bounded bits o = .ok x) :
    ∃ n < Nat.pow 2 bits, x = .number n := by
  cases o with
  | none => cases h
  | some n =>
    rw [Value.bounded] at h
    split at h
    · next hn => cases h; exact ⟨n, hn, rfl⟩
    · cases h

theorem Value.fits_of_read (h : Value.read w k = .ok x) : x.Fits k := by
  cases k with
  | text =>
    obtain ⟨t, -, hx⟩ := bind_ok.1 h
    cases hx
    trivial
  | path =>
    rw [Value.read] at h
    split at h
    · cases h
    · next hw => cases h; exact hw
  | count =>
    obtain ⟨t, -, hx⟩ := bind_ok.1 h
    obtain ⟨n, hn, rfl⟩ := Value.bounded_ok hx
    exact hn
  | days =>
    obtain ⟨t, -, hx⟩ := bind_ok.1 h
    obtain ⟨n, hn, rfl⟩ := Value.bounded_ok hx
    exact hn

/-! ### Readings -/

def Argument.kind? (a : Argument) : Option ValueKind :=
  match a.effect with
  | .value k | .values k => some k
  | _ => none

def Grammar.kinds (g : Grammar) (id : String) : List ValueKind :=
  ((g.options ++ g.places).filter (·.id = id)).filterMap Argument.kind?

theorem Grammar.mem_kinds (ha : a ∈ g.options ++ g.places) (hk : a.kind? = some k) : k ∈ g.kinds a.id :=
  List.mem_filterMap.2 ⟨a, List.mem_filter.2 ⟨ha, by simp⟩, hk⟩

/-- Whatever stands under an id is of a kind that the arguments with that id take. -/
def Sourced (g : Grammar) (f : Found) : Prop := ∀ e ∈ f, ∀ x ∈ e.2, ∃ k ∈ g.kinds e.1, x.Fits k

theorem Sourced.append {f' : Found} (h : Sourced g f) (h' : Sourced g f') : Sourced g (f ++ f') :=
  fun e he => (List.mem_append.1 he).elim (h e) (h' e)

theorem Sourced.of_lookup {xs : List Value} (h : Sourced g f) (hid : f.lookup id = some xs) :
    ∀ x ∈ xs, ∃ k ∈ g.kinds id, x.Fits k := by
  obtain ⟨l, l', rfl, -⟩ := List.lookup_eq_some_iff.1 hid
  exact h (id, xs) (by simp)

namespace Reading

structure Stands (g : Grammar) (r : Reading) : Prop where
  found : Sourced g r.found
  pending : ∀ p ∈ r.pending, p.1 ∈ g.options ++ g.places

theorem Stands.empty (g : Grammar) : Stands g {} := ⟨by simp [Sourced], by simp⟩

theorem Stands.store {values : List Word} (h : Stands g r) (ha : a ∈ g.options ++ g.places)
    (hs : r.store a values = .ok s) : Stands g s := by
  rw [Reading.store] at hs
  cases heffect : a.effect with
  | help => rw [heffect] at hs; cases hs
  | version => rw [heffect] at hs; cases hs
  | flag =>
    simp only [heffect] at hs
    split at hs <;> cases hs
    exact ⟨h.found.append (by simp [Sourced]), h.pending⟩
  | value k =>
    cases values with
    | nil => simp [heffect] at hs
    | cons v vs =>
      simp only [heffect] at hs
      split at hs
      · cases hs
      · obtain ⟨x, hx, hs⟩ := bind_ok.1 hs
        cases hs
        refine ⟨h.found.append ?_, h.pending⟩
        simpa [Sourced] using
          ⟨k, Grammar.mem_kinds ha (by rw [Argument.kind?, heffect]), Value.fits_of_read hx⟩
  | values k =>
    cases values with
    | nil => simp [heffect] at hs
    | cons v vs =>
      simp only [heffect] at hs
      obtain ⟨x, hx, hs⟩ := bind_ok.1 hs
      cases hs
      refine ⟨.append (fun e he => h.found e ((List.mem_filter.1 he).1)) ?_, h.pending⟩
      have hbefore : ∀ y ∈ (r.found.lookup a.id).getD [], ∃ k ∈ g.kinds a.id, y.Fits k := by
        cases hl : r.found.lookup a.id with
        | none => simp
        | some ys => exact h.found.of_lookup hl
      simpa [Sourced, or_imp, forall_and] using
        ⟨hbefore, k, Grammar.mem_kinds ha (by rw [Argument.kind?, heffect]), Value.fits_of_read hx⟩

theorem Stands.settle (h : Stands g r) (hs : r.settle = .ok s) : Stands g s := by
  rw [Reading.settle] at hs
  split at hs
  · cases hs; exact h
  · next a values hp =>
    have hfree : Stands g { r with pending := none, awaiting := false } := ⟨h.found, by simp⟩
    exact hfree.store (h.pending _ hp) hs

theorem Stands.take {values : List Word} (h : Stands g r) (ha : a ∈ g.options ++ g.places)
    (hs : r.take a values = .ok s) : Stands g s := by
  obtain ⟨r', hr', hs⟩ := bind_ok.1 hs
  exact (h.settle hr').store ha hs

theorem Stands.await (h : Stands g r) (ha : a ∈ g.options ++ g.places) (hs : r.await a = .ok s) :
    Stands g s := by
  obtain ⟨r', hr', hs⟩ := bind_ok.1 hs
  cases hs
  exact ⟨(h.settle hr').found, by simpa using ha⟩

theorem Stands.long {attached : Option Word} (h : Stands g r) (hs : r.long g w attached = .ok s) :
    Stands g s := by
  rw [Reading.long] at hs
  split at hs
  · cases hs
  · next a hfind =>
    have ha : a ∈ g.options ++ g.places := List.mem_append_left _ (List.mem_of_find?_eq_some hfind)
    split at hs
    · exact h.take ha hs
    · exact h.await ha hs
    · cases hs
    · exact h.take ha hs

theorem Stands.letters (h : Stands g r) (hs : r.letters g w = .ok s) : Stands g s := by
  induction w generalizing r with
  | nil => cases hs; exact h
  | cons b bs ih =>
    rw [Reading.letters] at hs
    split at hs
    · cases hs
    · next a hfind =>
      have ha : a ∈ g.options ++ g.places := List.mem_append_left _ (List.mem_of_find?_eq_some hfind)
      split at hs
      · split at hs
        · exact h.await ha hs
        · exact h.take ha hs
      · obtain ⟨r', hr', hs⟩ := bind_ok.1 hs
        exact ih (h.take ha hr') hs

theorem Stands.plain (h : Stands g r) (hs : r.plain g w = .ok s) : Stands g s := by
  rw [Reading.plain] at hs
  split at hs
  · next a vs _ hp =>
    cases hs
    exact ⟨h.found, by simpa using h.pending _ hp⟩
  · split at hs
    · next a hplace =>
      obtain ⟨r', hr', hs⟩ := bind_ok.1 hs
      cases hs
      exact ⟨(h.settle hr').found, by simpa using .inr (List.mem_of_getElem? hplace)⟩
    · split at hs
      · cases hs
      · split at hs <;> cases hs

theorem Stands.step (h : Stands g r) (hs : r.step g w = .ok s) : Stands g s := by
  rw [Reading.step] at hs
  split at hs
  · exact h.plain hs
  split at hs
  · cases hs; exact ⟨h.found, h.pending⟩
  split at hs
  · exact h.long hs
  split at hs
  · exact h.letters hs
  · exact h.plain hs

structure Complete (g : Grammar) (f : Found) : Prop where
  sourced : Sourced g f
  compatible : ∀ p ∈ g.exclusive, f.lookup p.1 = none ∨ f.lookup p.2 = none

theorem Stands.check {below : Bool} (h : Stands g r) (hf : r.check g below = .ok f) : Complete g f := by
  obtain ⟨s, hs, hf⟩ := bind_ok.1 hf
  simp only [bind, Except.bind] at hf
  split at hf
  · cases hf
  split at hf
  · cases hf
  next hexclusive =>
  split at hf
  · cases hf
  cases hf
  refine ⟨(h.settle hs).found, fun p hp => ?_⟩
  have hp : ¬((s.found.lookup p.1).isSome && (s.found.lookup p.2).isSome) = true := fun hc =>
    hexclusive (List.any_eq_true.2 ⟨p, hp, hc⟩)
  by_cases hfirst : s.found.lookup p.1 = none
  · exact .inl hfirst
  · rw [Option.isSome_iff_ne_none.2 hfirst, Bool.true_and] at hp
    exact .inr (Option.not_isSome_iff_eq_none.1 hp)

end Reading

/-! ### Commands -/

/-- Names lead from a command to one below it. -/
inductive Grammar.Leads : Grammar → List String → Grammar → Prop
  | nil (g : Grammar) : Leads g [] g
  | cons {g c c' : Grammar} {w : Word} {name : String} {names : List String}
    (h : g.command? w = some (name, c)) (hl : Leads c names c') : Leads g (name :: names) c'

theorem Grammar.Leads.direct {names : List String} (h : program.Leads [name] g)
    (hc : (names, c) ∈ program.commands) (hname : names.head? = some name) : g = c := by
  obtain _ | ⟨hw, hl⟩ := h
  cases hl
  simp only [Grammar.command?, Option.bind_eq_bind, Option.bind_eq_some_iff] at hw
  obtain ⟨named, hfind, first, hfirst, hc'⟩ := hw
  cases hc'
  have hnodup : (program.commands.map (·.1.head?)).Nodup := by decide
  exact congrArg Prod.snd
    (List.inj_on_of_nodup_map hnodup (List.mem_of_find?_eq_some hfind) hc (hfirst.trans hname.symm))

structure Matched.Stands (g : Grammar) (m : Matched) : Prop where
  levels : m.levels ≠ []
  sourced : ∀ l ∈ m.levels, ∃ c, Sourced c l
  innermost : ∃ c, g.Leads m.names c ∧ Complete c (m.levels.getLastD [])

theorem matchFrom_stands {args : List Word} (h : r.Stands g) (hm : matchFrom g r args = .ok m) :
    m.Stands g := by
  induction args generalizing g r m with
  | nil =>
    obtain ⟨f, hf, hm⟩ := bind_ok.1 hm
    cases hm
    have hcomplete := h.check hf
    exact ⟨by simp, by simpa using ⟨g, hcomplete.sourced⟩, g, .nil g, hcomplete⟩
  | cons w rest ih =>
    rw [matchFrom] at hm
    split at hm
    · cases hm
    split at hm
    · next name c hc =>
      obtain ⟨inner, hinner, hm⟩ := bind_ok.1 hm
      obtain ⟨f, hf, hm⟩ := bind_ok.1 hm
      cases hm
      obtain ⟨hlevels, hsourced, c', hleads, hlast⟩ := ih (.empty c) hinner
      have hnamed : g.command? w = some (name, c) := by
        split at hc
        · exact hc
        · cases hc
      obtain ⟨l, ls, hls⟩ := List.exists_cons_of_ne_nil hlevels
      refine ⟨by simp, ?_, c', .cons hnamed hleads, by rw [hls] at hlast ⊢; exact hlast⟩
      simpa using ⟨⟨g, (h.check hf).sourced⟩, hsourced⟩
    · obtain ⟨s, hs, hm⟩ := bind_ok.1 hm
      exact ih (h.step hs) hm

theorem Sourced.path {p : Path} (h : Sourced g f) (hp : f.path? id = some p) : p.bytes ≠ [] := by
  rw [Found.path?] at hp
  split at hp
  · next hl =>
    cases hp
    obtain ⟨k, -, hk⟩ := h.of_lookup hl _ (List.mem_singleton_self _)
    cases k <;> first | exact hk | exact hk.elim
  · cases hp

theorem Sourced.number {n : Nat} (h : Sourced g f) (hn : f.number? id = some n) :
    ∃ k ∈ g.kinds id, (Value.number n).Fits k := by
  rw [Found.number?] at hn
  split at hn
  · next hl =>
    cases hn
    exact h.of_lookup hl _ (List.mem_singleton_self _)
  · cases hn

theorem text?_eq_none (h : f.lookup id = none) : f.text? id = none := by
  rw [Found.text?, Found.texts, h]
  rfl

theorem path?_eq_none (h : f.lookup id = none) : f.path? id = none := by rw [Found.path?, h]

/-- The command that the names and what they were given stand for can be put into words. -/
theorem wellFormed_of_commandOf {names : List String} {command : Command}
    (hl : Grammar.program.Leads names g) (hf : Complete g f) (hc : commandOf? f names = some command) :
    command.WellFormed := by
  unfold commandOf? at hc
  split at hc
  case h_1 =>
    cases hc
    obtain rfl := hl.direct (List.mem_of_getElem? (i := 0) rfl) rfl
    cases hn : f.number? "limit" with
    | none => exact show (20 : Nat) < Nat.pow 2 64 by decide
    | some n =>
      obtain ⟨k, hk, hfits⟩ := hf.sourced.number hn
      obtain rfl : k = .count := List.mem_singleton.1 hk
      exact hfits
  case h_10 =>
    cases hc
    obtain rfl := hl.direct (List.mem_of_getElem? (i := 6) rfl) rfl
    intro n hn
    obtain ⟨k, hk, hfits⟩ := hf.sourced.number hn
    obtain rfl : k = .days := List.mem_singleton.1 hk
    exact hfits
  case h_11 =>
    obtain rfl := hl.direct (List.mem_of_getElem? (i := 7) rfl) rfl
    obtain ⟨p, hp, rfl⟩ := Option.map_eq_some_iff.1 hc
    refine ⟨hf.sourced.path hp, fun q hq => hf.sourced.path hq, ?_⟩
    exact (hf.compatible ("content", "from") (List.mem_singleton_self _)).imp text?_eq_none path?_eq_none
  case h_12 =>
    obtain ⟨p, hp, rfl⟩ := Option.map_eq_some_iff.1 hc
    exact hf.sourced.path hp
  case h_13 =>
    simp only [Option.bind_eq_bind, Option.bind_eq_some_iff] at hc
    obtain ⟨p, hp, q, hq, hc⟩ := hc
    cases hc
    exact ⟨hf.sourced.path hp, hf.sourced.path hq⟩
  case h_14 => cases hc
  all_goals first
    | (cases hc; trivial)
    | (obtain ⟨t, -, rfl⟩ := Option.map_eq_some_iff.1 hc; trivial)

theorem parse_wellFormed {args : List Word} {i : Invocation} (h : parse args = .ok i) :
    i.WellFormed := by
  obtain ⟨m, hm, h⟩ := bind_ok.1 h
  obtain ⟨hlevels, hsourced, g, hleads, hcomplete⟩ := matchFrom_stands (.empty _) hm
  split at h
  · cases h
  · next command hc =>
    cases h
    refine ⟨?_, wellFormed_of_commandOf hleads hcomplete hc⟩
    change ((m.levels.reverse.findSome? (Found.path? · "project")).getD defaultProject).bytes ≠ []
    cases hp : m.levels.reverse.findSome? (Found.path? · "project") with
    | none => decide
    | some p =>
      obtain ⟨l, hl, hp⟩ := List.exists_of_findSome?_eq_some hp
      obtain ⟨c, hc⟩ := hsourced l (List.mem_reverse.1 hl)
      exact hc.path hp

end CommandLine
end Retrace
