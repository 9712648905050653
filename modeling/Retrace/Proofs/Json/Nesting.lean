import Retrace.Proofs.Json.Value

/-!
How deep values nest. What is read from a document nests no deeper than it may and has its keys in
order (`value?_ordered`), so that without reals it can be read again.
-/
namespace Retrace.Json

variable {depth : Nat} {fs : List (String × Json)}

mutual

/-- How many arrays and objects lie inside one another. -/
def nesting : Json → Nat
  | .array xs => itemsNesting xs + 1
  | .object fs => fieldsNesting fs + 1
  | _ => 0

def itemsNesting : List Json → Nat
  | [] => 0
  | x :: xs => max (nesting x) (itemsNesting xs)

def fieldsNesting : List (String × Json) → Nat
  | [] => 0
  | (_, x) :: fs => max (nesting x) (fieldsNesting fs)

end

mutual

def isOrdered : Json → Bool
  | .array xs => areOrdered xs
  | .object fs => fieldsAreOrdered fs
  | _ => true

def areOrdered : List Json → Bool
  | [] => true
  | x :: xs => isOrdered x && areOrdered xs

def fieldsAreOrdered : List (String × Json) → Bool
  | [] => true
  | (k, x) :: fs => isOrdered x && fs.all (k < ·.1) && fieldsAreOrdered fs

end

mutual

theorem isReadable_iff (j : Json) (depth : Nat) : isReadable depth j = true ↔
    isExact j = true ∧ isOrdered j = true ∧ nesting j ≤ depth := by
  match j with
  | .null | .bool _ | .string _ | .number (.integer _) | .number (.real _) =>
    simp [isReadable, isExact, isOrdered, nesting]
  | .array xs =>
    have hdepth : itemsNesting xs + 1 ≤ depth ↔ 0 < depth ∧ itemsNesting xs ≤ depth - 1 := by omega
    simp only [isReadable, isExact, isOrdered, nesting, Bool.and_eq_true, decide_eq_true_eq,
      areReadable_iff xs, hdepth]
    tauto
  | .object fs =>
    have hdepth : fieldsNesting fs + 1 ≤ depth ↔ 0 < depth ∧ fieldsNesting fs ≤ depth - 1 := by omega
    simp only [isReadable, isExact, isOrdered, nesting, Bool.and_eq_true, decide_eq_true_eq,
      fieldsAreReadable_parts fs, hdepth]
    tauto

theorem areReadable_iff (xs : List Json) (depth : Nat) : areReadable depth xs = true ↔
    areExact xs = true ∧ areOrdered xs = true ∧ itemsNesting xs ≤ depth := by
  match xs with
  | [] => simp [areReadable, areExact, areOrdered, itemsNesting]
  | x :: xs =>
    simp only [areReadable, areExact, areOrdered, itemsNesting, Bool.and_eq_true, isReadable_iff x,
      areReadable_iff xs, max_le_iff]
    tauto

theorem fieldsAreReadable_parts (fs : List (String × Json)) (depth : Nat) :
    fieldsAreReadable depth fs = true ↔
      fieldsAreExact fs = true ∧ fieldsAreOrdered fs = true ∧ fieldsNesting fs ≤ depth := by
  match fs with
  | [] => simp [fieldsAreReadable, fieldsAreExact, fieldsAreOrdered, fieldsNesting]
  | (k, x) :: fs =>
    simp only [fieldsAreReadable, fieldsAreExact, fieldsAreOrdered, fieldsNesting, Bool.and_eq_true,
      isReadable_iff x, fieldsAreReadable_parts fs, max_le_iff]
    tauto

end

theorem fieldsAreOrdered_iff : fieldsAreOrdered fs = true ↔
    (∀ f ∈ fs, isOrdered f.2 = true) ∧ fs.Pairwise (·.1 < ·.1) := by
  induction fs with
  | nil => simp [fieldsAreOrdered]
  | cons f fs ih =>
    simp only [fieldsAreOrdered, Bool.and_eq_true, List.all_eq_true, decide_eq_true_eq, ih,
      List.forall_mem_cons, List.pairwise_cons]
    tauto

theorem itemsNesting_le_iff {xs : List Json} :
    itemsNesting xs ≤ depth ↔ ∀ x ∈ xs, nesting x ≤ depth := by
  induction xs with
  | nil => simp [itemsNesting]
  | cons x xs ih => simp [itemsNesting, ih]

theorem fieldsNesting_le_iff : fieldsNesting fs ≤ depth ↔ ∀ f ∈ fs, nesting f.2 ≤ depth := by
  induction fs with
  | nil => simp [fieldsNesting]
  | cons f fs ih => simp [fieldsNesting, ih]

mutual

/-- What is read has its keys in order and nests no deeper than it may. -/
theorem value?_ordered {v : Json} (w : Written) (depth : Nat) (h : w.value? depth = some v) :
    isOrdered v = true ∧ nesting v ≤ depth := by
  match w with
  | .null | .bool _ => cases h; exact ⟨rfl, Nat.zero_le _⟩
  | .numeral n =>
    obtain ⟨k, -, rfl⟩ := Option.map_eq_some_iff.1 h
    exact ⟨rfl, Nat.zero_le _⟩
  | .string s =>
    obtain ⟨s, -, rfl⟩ := Option.map_eq_some_iff.1 h
    exact ⟨rfl, Nat.zero_le _⟩
  | .array ws =>
    rw [Written.value?] at h
    split at h
    · cases h
    · obtain ⟨xs, hxs, rfl⟩ := Option.map_eq_some_iff.1 h
      obtain ⟨hordered, hnesting⟩ := values?_ordered ws _ hxs
      exact ⟨hordered, by rw [nesting]; omega⟩
  | .object ws =>
    rw [Written.value?] at h
    split at h
    · cases h
    · obtain ⟨fs, hfs, rfl⟩ := Option.map_eq_some_iff.1 h
      obtain ⟨hordered, hnesting⟩ := fields?_ordered ws _ ⟨rfl, Nat.zero_le _⟩ hfs
      exact ⟨hordered, by rw [nesting]; omega⟩

theorem values?_ordered {xs : List Json} (ws : List Written) (depth : Nat)
    (h : Written.values? depth ws = some xs) : areOrdered xs = true ∧ itemsNesting xs ≤ depth := by
  match ws with
  | [] => cases h; exact ⟨rfl, Nat.zero_le _⟩
  | w :: ws =>
    rw [Written.values?] at h
    obtain ⟨x, hx, h⟩ := Option.bind_eq_some_iff.1 h
    obtain ⟨xs, hxs, h⟩ := Option.bind_eq_some_iff.1 h
    cases h
    obtain ⟨hordered, hnesting⟩ := value?_ordered w depth hx
    obtain ⟨hordered', hnesting'⟩ := values?_ordered ws depth hxs
    exact ⟨by rw [areOrdered, hordered, hordered']; rfl, max_le hnesting hnesting'⟩

theorem fields?_ordered {before fs : List (String × Json)} (ws : List (Option String × Written))
    (depth : Nat) (hbefore : fieldsAreOrdered before = true ∧ fieldsNesting before ≤ depth)
    (h : Written.fields? depth before ws = some fs) :
    fieldsAreOrdered fs = true ∧ fieldsNesting fs ≤ depth := by
  match ws with
  | [] => cases h; exact hbefore
  | (k, w) :: ws =>
    rw [Written.fields?] at h
    obtain ⟨x, hx, h⟩ := Option.bind_eq_some_iff.1 h
    obtain ⟨k, -, h⟩ := Option.bind_eq_some_iff.1 h
    obtain ⟨hordered, hnesting⟩ := value?_ordered w depth hx
    refine fields?_ordered ws depth ?_ h
    rw [fieldsAreOrdered_iff, fieldsNesting_le_iff] at hbefore ⊢
    refine ⟨⟨fun f hf => ?_, pairwise_insertField hbefore.1.2⟩, fun f hf => ?_⟩
    · rcases mem_insertField hf with rfl | hf
      · exact hordered
      · exact hbefore.1.1 f hf
    · rcases mem_insertField hf with rfl | hf
      · exact hnesting
      · exact hbefore.2 f hf

end

end Retrace.Json
