import Retrace.Files

/-!
What scripts do to the tree, and what holds of it after every call. A script meets a specification
when each stage of it is as said and so are its result and the tree in the end.
-/
namespace Retrace.Script

variable {α β : Type} {fs : FileSystem} {s : Script α} {f : α → Script β}
  {P P' : FileSystem → Prop} {Q : α → FileSystem → Prop} {R : β → FileSystem → Prop}

@[simp] theorem stages_done (fs : FileSystem) (a : α) : (done a).stages fs = [fs] := rfl

@[simp] theorem stages_pure (fs : FileSystem) (a : α) : (pure a : Script α).stages fs = [fs] := rfl

@[simp] theorem stages_ask (fs : FileSystem) (c : Call) :
    (ask c).stages fs = [fs, (c.perform fs).2] := rfl

@[simp] theorem change_ok (fs fs' : FileSystem) : Call.change fs (.ok fs') = (.ok (), fs') := rfl

@[simp] theorem change_error (fs : FileSystem) (e : OsError) :
    Call.change fs (.error e) = (.error e, fs) := rfl

@[simp] theorem run_map (f : α → β) (s : Script α) (fs : FileSystem) :
    (f <$> s).run fs = (f (s.run fs).1, (s.run fs).2) := by
  rw [map_eq_pure_bind, run_bind, run_pure]

/-! ### Stages -/

theorem mem_stages_run (s : Script α) (fs : FileSystem) : (s.run fs).2 ∈ s.stages fs := by
  induction s generalizing fs with
  | done a => exact List.mem_singleton.2 rfl
  | call c next ih => exact List.mem_cons_of_mem _ (ih _ _)

theorem mem_stages_self (s : Script α) (fs : FileSystem) : fs ∈ s.stages fs := by
  cases s <;> exact List.mem_cons_self

theorem mem_stages_bind (s : Script α) (f : α → Script β) (fs fs' : FileSystem) :
    fs' ∈ (s >>= f).stages fs ↔ fs' ∈ s.stages fs ∨ fs' ∈ (f (s.run fs).1).stages (s.run fs).2 := by
  change fs' ∈ (s.bind f).stages fs ↔ _
  induction s generalizing fs with
  | done a =>
    refine ⟨.inr, fun h => h.elim (fun h => ?_) id⟩
    rw [List.mem_singleton.1 h]
    exact mem_stages_self (f a) fs
  | call c next ih =>
    simp only [bind, stages, run, List.mem_cons, ih, or_assoc]

structure Meets (s : Script α) (fs : FileSystem) (P : FileSystem → Prop)
    (Q : α → FileSystem → Prop) : Prop where
  stages : ∀ fs' ∈ s.stages fs, P fs'
  result : Q (s.run fs).1 (s.run fs).2

theorem Meets.mono {Q' : α → FileSystem → Prop} (h : Meets s fs P Q) (hP : ∀ fs', P fs' → P' fs')
    (hQ : ∀ a fs', P fs' → Q a fs' → Q' a fs') : Meets s fs P' Q' where
  stages fs' hfs := hP fs' (h.stages fs' hfs)
  result := hQ _ _ (h.stages _ (mem_stages_run s fs)) h.result

theorem Meets.pure {a : α} (hP : P fs) (hQ : Q a fs) : Meets (Pure.pure a : Script α) fs P Q where
  stages fs' hfs := by rw [List.mem_singleton.1 hfs]; exact hP
  result := hQ

theorem Meets.ask {c : Call} {r : c.Reply} {fs' : FileSystem} (h : c.perform fs = (r, fs'))
    (hP : P fs) (hP' : P fs') : Meets (Script.ask c) fs P fun a fs'' => a = r ∧ fs'' = fs' where
  stages k hk := by
    rcases List.mem_cons.1 hk with rfl | hk
    · exact hP
    · rw [List.mem_singleton.1 hk, h]; exact hP'
  result := by
    change (c.perform fs).1 = r ∧ (c.perform fs).2 = fs'
    rw [h]
    exact ⟨rfl, rfl⟩

theorem Meets.bind (h : Meets s fs P Q) (hf : ∀ a fs', P fs' → Q a fs' → Meets (f a) fs' P R) :
    Meets (s >>= f) fs P R where
  stages fs' hfs := by
    rcases (mem_stages_bind s f fs fs').1 hfs with hfs | hfs
    · exact h.stages fs' hfs
    · exact (hf _ _ (h.stages _ (mem_stages_run s fs)) h.result).stages fs' hfs
  result := by
    rw [run_bind]
    exact (hf _ _ (h.stages _ (mem_stages_run s fs)) h.result).result

theorem Meets.bind_run (h : Meets s fs P Q) (hf : Meets (f (s.run fs).1) (s.run fs).2 P R) :
    Meets (s >>= f) fs P R where
  stages fs' hfs := ((mem_stages_bind s f fs fs').1 hfs).elim (h.stages fs') (hf.stages fs')
  result := by rw [run_bind]; exact hf.result

def Looks (s : Script α) : Prop := ∀ fs fs', fs' ∈ s.stages fs → fs' = fs

theorem Looks.run (h : Looks s) (fs : FileSystem) : (s.run fs).2 = fs := h fs _ (mem_stages_run s fs)

theorem Looks.pure (a : α) : Looks (Pure.pure a : Script α) := fun _ _ h => List.mem_singleton.1 h

theorem Looks.ask {c : Call} (h : ∀ fs, (c.perform fs).2 = fs) : Looks (Script.ask c) := by
  intro fs fs' hfs
  rw [stages_ask, h fs] at hfs
  simpa using hfs

theorem Looks.bind (h : Looks s) (hf : ∀ a, Looks (f a)) : Looks (s >>= f) := by
  intro fs fs' hfs
  rcases (mem_stages_bind s f fs fs').1 hfs with hfs | hfs
  · exact h fs fs' hfs
  · rw [h.run fs] at hfs
    exact hf _ fs fs' hfs

theorem Looks.map (h : Looks s) (f : α → β) : Looks (f <$> s) := by
  rw [map_eq_pure_bind]
  exact h.bind fun a => Looks.pure (f a)

theorem Looks.meets (h : Looks s) (hP : P fs) :
    Meets s fs P fun a fs' => fs' = fs ∧ a = (s.run fs).1 where
  stages fs' hfs := by rw [h fs fs' hfs]; exact hP
  result := ⟨h.run fs, rfl⟩

/-! ### Calls -/

/-- The calls that are made, each with the tree that it finds. -/
def calls (fs : FileSystem) : Script α → List (Call × FileSystem)
  | done _ => []
  | call c next => (c, fs) :: (next (c.perform fs).1).calls (c.perform fs).2

theorem calls_bind (s : Script α) (f : α → Script β) (fs : FileSystem) :
    (s >>= f).calls fs = s.calls fs ++ (f (s.run fs).1).calls (s.run fs).2 := by
  change (s.bind f).calls fs = _
  induction s generalizing fs with
  | done a => rfl
  | call c next ih => simp only [bind, calls, run, ih, List.cons_append]

theorem mem_calls_bind (s : Script α) (f : α → Script β) (fs : FileSystem) (x : Call × FileSystem) :
    x ∈ (s >>= f).calls fs ↔ x ∈ s.calls fs ∨ x ∈ (f (s.run fs).1).calls (s.run fs).2 := by
  rw [calls_bind, List.mem_append]

theorem mem_stages_of_mem_calls {x : Call × FileSystem} (hx : x ∈ s.calls fs) : x.2 ∈ s.stages fs := by
  induction s generalizing fs with
  | done a => cases hx
  | call c next ih =>
    rcases List.mem_cons.1 hx with rfl | hx
    · exact List.mem_cons_self
    · exact List.mem_cons_of_mem _ (ih _ hx)

section Each

variable {C C' : Call → FileSystem → Prop}

def Each (C : Call → FileSystem → Prop) (s : Script α) (fs : FileSystem) : Prop :=
  ∀ x ∈ s.calls fs, C x.1 x.2

theorem Each.pure (a : α) : Each C (Pure.pure a : Script α) fs := fun _ hx => nomatch hx

theorem Each.ask {c : Call} (h : C c fs) : Each (α := c.Reply) C (Script.ask c) fs := by
  intro x hx
  obtain rfl := List.mem_singleton.1 hx
  exact h

theorem Each.bind (h : Each C s fs) (hf : ∀ a fs', s.run fs = (a, fs') → Each C (f a) fs') :
    Each C (s >>= f) fs := by
  intro x hx
  rcases (mem_calls_bind s f fs x).1 hx with hx | hx
  · exact h x hx
  · exact hf _ _ rfl x hx

theorem Each.mono (h : Each C s fs) (hC : ∀ c k, C c k → C' c k) : Each C' s fs :=
  fun x hx => hC x.1 x.2 (h x hx)

end Each

structure Goes (C : Call → FileSystem → Prop) (P : FileSystem → Prop) (s : Script α)
    (fs : FileSystem) : Prop where
  calls : ∀ x ∈ s.calls fs, C x.1 x.2
  stages : ∀ fs' ∈ s.stages fs, P fs'

section Goes

variable {C : Call → FileSystem → Prop}

theorem Goes.bind (h : Goes C P (s >>= f) fs) :
    Goes C P s fs ∧ Goes C P (f (s.run fs).1) (s.run fs).2 :=
  ⟨⟨fun x hx => h.calls x ((mem_calls_bind s f fs x).2 (.inl hx)),
      fun k hk => h.stages k ((mem_stages_bind s f fs k).2 (.inl hk))⟩,
    fun x hx => h.calls x ((mem_calls_bind s f fs x).2 (.inr hx)),
    fun k hk => h.stages k ((mem_stages_bind s f fs k).2 (.inr hk))⟩

theorem Goes.ask {c : Call} (h : Goes C P (Script.ask c) fs) : C c fs :=
  h.calls (c, fs) List.mem_cons_self

end Goes

end Retrace.Script
