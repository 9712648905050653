/-!
Values by name, each name once. Main view: `Index.get?`.
-/
namespace Retrace

abbrev Index (α : Type) := List (String × α)

namespace Index

variable {α : Type}

def get? (x : Index α) (k : String) : Option α := x.lookup k

def put (x : Index α) (k : String) (v : α) : Index α :=
  match x with
  | [] => [(k, v)]
  | (j, w) :: r => if j = k then (k, v) :: r else (j, w) :: put r k v

def remove (x : Index α) (k : String) : Index α :=
  match x with
  | [] => []
  | (j, w) :: r => if j = k then remove r k else (j, w) :: remove r k

def has (x : Index α) (k : String) : Bool := (x.get? k).isSome

def values (x : Index α) : List α := x.map (·.2)

/-- Values under their own names; of two with one name the later stands. -/
def ofValues (name : α → String) (vs : List α) : Index α :=
  vs.foldl (fun x v => put x (name v) v) []

theorem get?_put (x : Index α) (k j : String) (v : α) :
    (x.put k v).get? j = if j = k then some v else x.get? j := by
  induction x with
  | nil => by_cases h : j = k <;> simp [put, get?, List.lookup_cons, h, beq_eq_false_iff_ne.mpr]
  | cons a r ih =>
    obtain ⟨i, w⟩ := a
    simp only [get?] at ih
    by_cases h : j = k <;> by_cases hi : i = k <;> by_cases hj : j = i <;>
      simp_all [put, get?, List.lookup_cons, beq_eq_false_iff_ne.mpr]

theorem get?_remove (x : Index α) (k j : String) :
    (x.remove k).get? j = if j = k then none else x.get? j := by
  induction x with
  | nil => simp [remove, get?]
  | cons a r ih =>
    obtain ⟨i, w⟩ := a
    simp only [get?] at ih
    by_cases h : j = k <;> by_cases hi : i = k <;> by_cases hj : j = i <;>
      simp_all [remove, get?, List.lookup_cons, beq_eq_false_iff_ne.mpr]
    all_goals exact ih

theorem get?_ofValues (name : α → String) (vs : List α) (k : String) :
    (ofValues name vs).get? k = vs.reverse.find? (name · = k) := by
  have hall : ∀ x : Index α, get? (vs.foldl (fun x v => put x (name v) v) x) k =
      (vs.reverse.find? (name · = k)).or (x.get? k) := by
    induction vs with
    | nil => intro x; rfl
    | cons v vs ih =>
      intro x
      rw [List.foldl_cons, ih, get?_put, List.reverse_cons, List.find?_append, Option.or_assoc]
      congr 1
      by_cases h : k = name v <;> simp [h, eq_comm]
  exact (hall []).trans (by simp [get?])

theorem mem_of_get?_ofValues {name : α → String} {vs : List α} {k : String} {v : α}
    (h : (ofValues name vs).get? k = some v) : v ∈ vs ∧ name v = k := by
  rw [get?_ofValues] at h
  exact ⟨List.mem_reverse.1 (List.mem_of_find?_eq_some h), by simpa using List.find?_some h⟩

/-! ### Keys -/

theorem keys_put (x : Index α) (k : String) (v : α) :
    (x.put k v).map (·.1) = if k ∈ x.map (·.1) then x.map (·.1) else x.map (·.1) ++ [k] := by
  induction x with
  | nil => rfl
  | cons a r ih =>
    obtain ⟨j, w⟩ := a
    by_cases hj : j = k
    · simp [put, hj]
    · by_cases hk : k ∈ r.map (·.1) <;> simp [put, hj, Ne.symm hj, ih, hk]

theorem nodup_put {x : Index α} (h : (x.map (·.1)).Nodup) (k : String) (v : α) :
    ((x.put k v).map (·.1)).Nodup := by
  rw [keys_put]
  split
  · exact h
  · next hk =>
    refine List.nodup_append.2 ⟨h, by simp, fun i hi j hj hij => hk ?_⟩
    rw [← List.mem_singleton.1 hj, ← hij]
    exact hi

theorem nodup_ofValues (name : α → String) (vs : List α) :
    ((ofValues name vs).map (·.1)).Nodup := by
  have hall : ∀ x : Index α, (x.map (·.1)).Nodup →
      ((vs.foldl (fun x v => put x (name v) v) x).map (·.1)).Nodup := by
    induction vs with
    | nil => exact fun _ h => h
    | cons v vs ih => exact fun x h => ih _ (nodup_put h _ _)
  exact hall [] List.nodup_nil

theorem mem_of_get? {x : Index α} {k : String} {v : α} (h : x.get? k = some v) : (k, v) ∈ x := by
  obtain ⟨before, rest, rfl, -⟩ := List.lookup_eq_some_iff.1 h
  exact List.mem_append_right _ List.mem_cons_self

theorem get?_eq_some_iff {x : Index α} (h : (x.map (·.1)).Nodup) {k : String} {v : α} :
    x.get? k = some v ↔ (k, v) ∈ x := by
  induction x with
  | nil => simp [get?]
  | cons a r ih =>
    obtain ⟨j, w⟩ := a
    obtain ⟨hj, hr⟩ := List.nodup_cons.1 h
    simp only [get?] at ih
    by_cases hk : k = j
    · subst hk
      have hnot : (k, v) ∉ r := fun hm => hj (List.mem_map_of_mem (f := (·.1)) hm)
      simp [get?, hnot, eq_comm]
    · simp [get?, List.lookup_cons, hk, beq_eq_false_iff_ne.mpr, ih hr]

end Index
end Retrace
