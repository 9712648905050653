import Retrace.Proofs.Script

/-!
Scripts that are carried out at the same time. Whatever the order, at each moment one of them makes its
next call on the tree that all of them share (`Woven`). One after the other is one of the orders
(`woven_each`), and so is to wait for all between a first part and a second one (`Woven.bind`).
-/
namespace Retrace.Script

variable {α β : Type} {fs fs' fs'' : FileSystem} {as : List α} {bs : List β} {ss : List (Script α)}

/-- The results and the tree that scripts may come to when their calls are made in any order. -/
inductive Woven : List (Script α) → FileSystem → List α → FileSystem → Prop
  | done (as : List α) (fs : FileSystem) : Woven (as.map .done) fs as fs
  | call {c : Call} {next : c.Reply → Script α} {before after : List (Script α)} {fs fs' : FileSystem}
    {as : List α} (h : Woven (before ++ next (c.perform fs).1 :: after) (c.perform fs).2 as fs') :
    Woven (before ++ .call c next :: after) fs as fs'

theorem Woven.run {before after : List (Script α)} (s : Script α)
    (h : Woven (before ++ .done (s.run fs).1 :: after) (s.run fs).2 as fs') :
    Woven (before ++ s :: after) fs as fs' := by
  induction s generalizing fs with
  | done a => exact h
  | call c next ih => exact .call (ih _ h)

def each : List (Script α) → Script (List α)
  | [] => return []
  | s :: ss => do
    let a ← s
    let as ← each ss
    return a :: as

theorem woven_each (ss : List (Script α)) (fs : FileSystem) :
    Woven ss fs ((each ss).run fs).1 ((each ss).run fs).2 := by
  suffices h : ∀ before : List α,
      Woven (before.map .done ++ ss) fs (before ++ ((each ss).run fs).1) ((each ss).run fs).2 from h []
  induction ss generalizing fs with
  | nil =>
    intro before
    simp only [each, run_pure, List.append_nil]
    exact .done before fs
  | cons s ss ih =>
    intro before
    have hrest := ih (s.run fs).2 (before ++ [(s.run fs).1])
    rw [List.map_append, List.append_assoc, List.append_assoc] at hrest
    simp only [each, run_bind]
    exact .run s hrest

/-- All scripts go on to a second part once all have done the first one. -/
theorem Woven.bind {f : α → Script β} (h : Woven ss fs as fs') (hf : Woven (as.map f) fs' bs fs'') :
    Woven (ss.map (· >>= f)) fs bs fs'' := by
  induction h with
  | done as fs => rwa [List.map_map, show (· >>= f) ∘ .done = f from rfl]
  | call h ih =>
    have hnext := ih hf
    rw [List.map_append, List.map_cons] at hnext ⊢
    exact .call hnext

end Retrace.Script
