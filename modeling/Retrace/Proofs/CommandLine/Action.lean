import Retrace.CommandLine.Change
import Retrace.Proofs.Script

/-!
How actions end: with a result or stopped, on a desk and in a tree. An action stops where the first of
its steps does that stops (`ends_bind_error`).
-/
namespace Retrace.CommandLine.Action

variable {α β : Type} {a : Action α} {f : α → Action β} {d d' d'' : Desk} {fs fs' fs'' : FileSystem}
  {r : Except Stop α} {x : α} {y : β} {s : Script α} {e : Error} {stop : Stop}

/-- The action ends so, and leaves a desk and a tree. -/
def Ends (a : Action α) (d : Desk) (fs : FileSystem) (r : Except Stop α) (d' : Desk)
    (fs' : FileSystem) : Prop :=
  (a.run d).run fs = ((r, d'), fs')

theorem ends_of_result (h : ((a.run d).run fs).1.1 = r) :
    Ends a d fs r ((a.run d).run fs).1.2 ((a.run d).run fs).2 :=
  Prod.ext (Prod.ext h rfl) rfl

theorem Ends.unique {r' : Except Stop α} (h : Ends a d fs r d' fs') (h' : Ends a d fs r' d'' fs'') :
    r = r' ∧ d' = d'' ∧ fs' = fs'' := by
  have hsame := (h : _ = _).symm.trans h'
  simpa [and_assoc] using hsame

theorem run_bind (a : Action α) (f : α → Action β) (d : Desk) : (a >>= f).run d =
    a.run d >>= fun out => match out.1 with
      | .ok x => (f x).run out.2
      | .error e => pure (.error e, out.2) := by
  change (StateT.run a d >>= fun out => StateT.run (ExceptT.bindCont f out.1) out.2) = _
  congr 1
  funext out
  obtain ⟨r, d'⟩ := out
  cases r <;> rfl

theorem ends_bind {r : Except Stop β} : Ends (a >>= f) d fs r d'' fs'' ↔
    (∃ x d' fs', Ends a d fs (.ok x) d' fs' ∧ Ends (f x) d' fs' r d'' fs'') ∨
      ∃ stop, r = .error stop ∧ Ends a d fs (.error stop) d'' fs'' := by
  simp only [Ends, run_bind, Script.run_bind]
  generalize (a.run d).run fs = out
  obtain ⟨⟨r', d'⟩, fs'⟩ := out
  cases r' with
  | error stop' =>
    simp only [Script.run_pure, Prod.mk.injEq, Except.error.injEq, reduceCtorEq, false_and,
      exists_false, false_or]
    constructor
    · rintro ⟨⟨rfl, rfl⟩, rfl⟩
      exact ⟨stop', rfl, ⟨rfl, rfl⟩, rfl⟩
    · rintro ⟨_, rfl, ⟨rfl, rfl⟩, rfl⟩
      exact ⟨⟨rfl, rfl⟩, rfl⟩
  | ok x =>
    simp only [Prod.mk.injEq, Except.ok.injEq, reduceCtorEq, false_and, and_false, exists_false,
      or_false]
    constructor
    · exact fun h => ⟨x, d', fs', ⟨⟨rfl, rfl⟩, rfl⟩, h⟩
    · rintro ⟨_, _, _, ⟨⟨rfl, rfl⟩, rfl⟩, h⟩
      exact h

@[simp] theorem ends_bind_ok : Ends (a >>= f) d fs (.ok y) d'' fs'' ↔
    ∃ x d' fs', Ends a d fs (.ok x) d' fs' ∧ Ends (f x) d' fs' (.ok y) d'' fs'' := by
  simp [ends_bind]

/-- An action stops in its first step, or later. -/
theorem ends_bind_error : Ends (a >>= f) d fs (.error stop) d'' fs'' ↔
    Ends a d fs (.error stop) d'' fs'' ∨
      ∃ x d' fs', Ends a d fs (.ok x) d' fs' ∧ Ends (f x) d' fs' (.error stop) d'' fs'' := by
  simp [ends_bind, or_comm]

@[simp] theorem ends_pure : Ends (pure x : Action α) d fs r d' fs' ↔
    r = .ok x ∧ d' = d ∧ fs' = fs := by
  change ((Except.ok x, d), fs) = ((r, d'), fs') ↔ _
  simp only [Prod.mk.injEq, and_assoc, eq_comm]

@[simp] theorem ends_throw : Ends (throw stop : Action α) d fs r d' fs' ↔
    r = .error stop ∧ d' = d ∧ fs' = fs := by
  change ((Except.error stop, d), fs) = ((r, d'), fs') ↔ _
  simp only [Prod.mk.injEq, and_assoc, eq_comm]

@[simp] theorem ends_stop : Ends (Action.stop e : Action α) d fs r d' fs' ↔
    r = .error (.failed e) ∧ d' = d ∧ fs' = fs := ends_throw

@[simp] theorem ends_get {r : Except Stop Desk} : Ends (get : Action Desk) d fs r d' fs' ↔
    r = .ok d ∧ d' = d ∧ fs' = fs := by
  change ((Except.ok d, d), fs) = ((r, d'), fs') ↔ _
  simp only [Prod.mk.injEq, and_assoc, eq_comm]

@[simp] theorem ends_modify {k : Desk → Desk} {r : Except Stop PUnit} :
    Ends (modify k : Action PUnit) d fs r d' fs' ↔ r = .ok ⟨⟩ ∧ d' = k d ∧ fs' = fs := by
  change ((Except.ok PUnit.unit, k d), fs) = ((r, d'), fs') ↔ _
  simp only [Prod.mk.injEq, and_assoc, eq_comm]

@[simp] theorem ends_set {k : Desk} {r : Except Stop PUnit} :
    Ends (set k : Action PUnit) d fs r d' fs' ↔ r = .ok ⟨⟩ ∧ d' = k ∧ fs' = fs := by
  change ((Except.ok PUnit.unit, k), fs) = ((r, d'), fs') ↔ _
  simp only [Prod.mk.injEq, and_assoc, eq_comm]

@[simp] theorem ends_ofScript : Ends (ofScript s) d fs r d' fs' ↔
    ∃ x, s.run fs = (x, fs') ∧ r = .ok x ∧ d' = d := by
  change ((s >>= fun x => pure (x, d)) >>= fun out => pure (Except.ok out.1, out.2)).run fs =
    ((r, d'), fs') ↔ _
  simp only [Script.run_bind, Script.run_pure]
  generalize s.run fs = out
  obtain ⟨y, fs₁⟩ := out
  simp only [Prod.mk.injEq]
  constructor
  · rintro ⟨⟨rfl, rfl⟩, rfl⟩
    exact ⟨y, ⟨rfl, rfl⟩, rfl, rfl⟩
  · rintro ⟨_, ⟨rfl, rfl⟩, rfl, rfl⟩
    exact ⟨⟨rfl, rfl⟩, rfl⟩

@[simp] theorem ends_ofExcept {result : Except Error α} :
    Ends (ofExcept result) d fs r d' fs' ↔ r = result.mapError .failed ∧ d' = d ∧ fs' = fs := by
  cases result with
  | error e => exact ends_stop
  | ok y => exact ends_pure

/-! ### Steps that look at the desk -/

@[simp] theorem ends_manager {r : Except Stop Manager} :
    Ends manager d fs r d' fs' ↔ r = .ok d.manager ∧ d' = d ∧ fs' = fs := by
  simp [manager, ends_bind, and_assoc, -bind_pure_comp]

@[simp] theorem ends_say {line : String} {r : Except Stop Unit} : Ends (say line) d fs r d' fs' ↔
    r = .ok () ∧ d' = { d with printed := d.printed ++ [line] } ∧ fs' = fs := ends_modify

@[simp] theorem ends_sayAll {lines : List String} {r : Except Stop Unit} :
    Ends (sayAll lines) d fs r d' fs' ↔
      r = .ok () ∧ d' = { d with printed := d.printed ++ lines } ∧ fs' = fs := ends_modify

@[simp] theorem ends_freshId {r : Except Stop String} : Ends freshId d fs r d' fs' ↔
    r = .ok (d.ids d.taken) ∧ d' = { d with taken := d.taken + 1 } ∧ fs' = fs := by
  simp [freshId, ends_bind, and_assoc, -bind_pure_comp]

/-! ### Steps that work on files or with the manager -/

@[simp] theorem ends_files {t : Files.Trial α} : Ends (files t) d fs r d' fs' ↔
    ∃ y, t.run.run fs = (y, fs') ∧ r = y.mapError (fun e => .failed (.io e)) ∧ d' = d := by
  simp only [files, ends_bind, ends_ofScript, ends_ofExcept]
  constructor
  · rintro (⟨y, _, _, ⟨_, hrun, hy, rfl⟩, rfl, rfl, rfl⟩ | ⟨_, _, _, -, h, -⟩)
    · obtain rfl := Except.ok.inj hy
      exact ⟨y, hrun, by cases y <;> rfl, rfl⟩
    · cases h
  · rintro ⟨y, hrun, rfl, rfl⟩
    exact .inl ⟨y, d', fs', ⟨y, hrun, rfl, rfl⟩, by cases y <;> rfl, rfl, rfl⟩

theorem ends_call {s : Script (Except OsError Unit)} {result : Except OsError FileSystem}
    {r : Except Stop Unit} (hs : s.run fs = Call.change fs result)
    (h : Ends (files (Files.attempt s)) d fs r d' fs') :
    d' = d ∧ (result = .ok fs' ∧ r = .ok () ∨
      ∃ e, result = .error e ∧ r = .error (.failed (.io e)) ∧ fs' = fs) := by
  obtain ⟨y, hrun, rfl, rfl⟩ := ends_files.1 h
  change s.run fs = (y, fs') at hrun
  rw [hs] at hrun
  cases result with
  | ok k =>
    obtain ⟨rfl, rfl⟩ := Prod.mk.inj hrun
    exact ⟨rfl, .inl ⟨rfl, rfl⟩⟩
  | error e =>
    obtain ⟨rfl, rfl⟩ := Prod.mk.inj hrun
    exact ⟨rfl, .inr ⟨e, rfl, rfl, rfl⟩⟩

@[simp] theorem ends_adopt {step : α × Manager} : Ends (adopt step) d fs r d' fs' ↔
    r = .ok step.1 ∧ d' = { d with manager := step.2 } ∧ fs' = fs := by
  simp [adopt, ends_bind, and_assoc, -bind_pure_comp]

@[simp] theorem ends_managed {step : Manager → Script (Except Error α × Manager)} :
    Ends (managed step) d fs r d' fs' ↔ ∃ y m, (step d.manager).run fs = ((y, m), fs') ∧
      r = y.mapError .failed ∧ d' = { d with manager := m } := by
  simp only [managed, ends_bind, ends_manager, ends_ofScript, ends_adopt, ends_ofExcept]
  constructor
  · rintro (⟨_, _, _, ⟨h, rfl, rfl⟩, ⟨⟨y, m⟩, _, _, ⟨_, hrun, hy, rfl⟩, hrest⟩ | ⟨_, _, _, _, h', -⟩⟩ |
      ⟨_, _, h, -⟩)
    · obtain rfl := Except.ok.inj h
      obtain rfl := Except.ok.inj hy
      rcases hrest with ⟨_, _, _, ⟨h', rfl, rfl⟩, rfl, rfl, rfl⟩ | ⟨_, _, h', -⟩
      · obtain rfl := Except.ok.inj h'
        exact ⟨_, m, hrun, rfl, rfl⟩
      · cases h'
    · cases h'
    · cases h
  · rintro ⟨y, m, hrun, rfl, rfl⟩
    exact .inl ⟨_, d, fs, ⟨rfl, rfl, rfl⟩, .inl ⟨(y, m), d, fs', ⟨(y, m), hrun, rfl, rfl⟩,
      .inl ⟨y, _, fs', ⟨rfl, rfl, rfl⟩, rfl, rfl, rfl⟩⟩⟩

@[simp] theorem ends_observing {a : Action Unit} {r : Except Stop (Except Stop Unit)} :
    Ends (bracket.observing a) d fs r d' fs' ↔ ∃ y, Ends a d fs y d' fs' ∧ r = .ok y := by
  change ((StateT.run a d >>= fun out => pure (Except.ok out.1, out.2)) : Script _).run fs =
    ((r, d'), fs') ↔ _
  simp only [Script.run_bind, Script.run_pure, Ends, run]
  generalize (StateT.run a d).run fs = out
  obtain ⟨⟨y, d₁⟩, fs₁⟩ := out
  simp only [Prod.mk.injEq]
  constructor
  · rintro ⟨⟨rfl, rfl⟩, rfl⟩
    exact ⟨y, ⟨⟨rfl, rfl⟩, rfl⟩, rfl⟩
  · rintro ⟨_, ⟨⟨rfl, rfl⟩, rfl⟩, rfl⟩
    exact ⟨⟨rfl, rfl⟩, rfl⟩

end Retrace.CommandLine.Action
