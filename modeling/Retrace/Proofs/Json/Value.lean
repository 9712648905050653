import Mathlib.Data.String.Basic
import Retrace.Proofs.Json.Text
import Retrace.Json.Record
import Retrace.Json.Value

/-!
Values and records from documents. A value that holds no reals and keeps its keys in order comes back
from its document, unless it nests too deep (`value?_written`, `value?_written_deep`), and a record
finds each of its own fields under its name (`record?_written`).
-/
namespace Retrace.Json

variable {depth : Nat} {j v : Json} {key : String} {before fs : List (String × Json)}

/-! ### Values -/

mutual

/-- A value without reals, with its keys in order, of at most so many arrays and objects inside one
another. -/
def isReadable (depth : Nat) : Json → Bool
  | .null | .bool _ | .string _ | .number (.integer _) => true
  | .number (.real _) => false
  | .array xs => 0 < depth && areReadable (depth - 1) xs
  | .object fs => 0 < depth && fieldsAreReadable (depth - 1) fs

def areReadable (depth : Nat) : List Json → Bool
  | [] => true
  | x :: xs => isReadable depth x && areReadable depth xs

def fieldsAreReadable (depth : Nat) : List (String × Json) → Bool
  | [] => true
  | (k, x) :: fs => isReadable depth x && fs.all (k < ·.1) && fieldsAreReadable depth fs

end

mutual

theorem isExact_of_isReadable (j : Json) (depth : Nat) (h : isReadable depth j = true) :
    isExact j = true := by
  match j with
  | .null | .bool _ | .string _ | .number (.integer _) => rfl
  | .number (.real _) => cases h
  | .array xs =>
    simp only [isReadable, Bool.and_eq_true] at h
    exact areExact_of_areReadable xs _ h.2
  | .object fs =>
    simp only [isReadable, Bool.and_eq_true] at h
    exact fieldsAreExact_of_fieldsAreReadable fs _ h.2

theorem areExact_of_areReadable (xs : List Json) (depth : Nat) (h : areReadable depth xs = true) :
    areExact xs = true := by
  match xs with
  | [] => rfl
  | x :: xs =>
    simp only [areReadable, Bool.and_eq_true] at h
    simp only [areExact, Bool.and_eq_true]
    exact ⟨isExact_of_isReadable x _ h.1, areExact_of_areReadable xs _ h.2⟩

theorem fieldsAreExact_of_fieldsAreReadable (fs : List (String × Json)) (depth : Nat)
    (h : fieldsAreReadable depth fs = true) : fieldsAreExact fs = true := by
  match fs with
  | [] => rfl
  | (k, x) :: fs =>
    simp only [fieldsAreReadable, Bool.and_eq_true] at h
    simp only [fieldsAreExact, Bool.and_eq_true]
    exact ⟨isExact_of_isReadable x _ h.1.1, fieldsAreExact_of_fieldsAreReadable fs _ h.2⟩

end

theorem mem_insertField {f : String × Json} (h : f ∈ insertField key v fs) : f = (key, v) ∨ f ∈ fs := by
  induction fs with
  | nil => simpa [insertField] using h
  | cons g fs ih =>
    obtain ⟨k, w⟩ := g
    rw [insertField] at h
    split at h
    · simpa using h
    · split at h
      · exact (List.mem_cons.1 h).imp_right (List.mem_cons_of_mem _)
      · rcases List.mem_cons.1 h with rfl | h
        · exact .inr List.mem_cons_self
        · exact (ih h).imp_right (List.mem_cons_of_mem _)

theorem lookup_insertField (key name : String) (v : Json) (fs : List (String × Json)) :
    (insertField key v fs).lookup name = if name = key then some v else fs.lookup name := by
  induction fs with
  | nil => by_cases h : name = key <;> simp [insertField, List.lookup_cons, h, beq_eq_false_iff_ne.mpr]
  | cons f fs ih =>
    obtain ⟨k, w⟩ := f
    rw [insertField]
    split
    · by_cases h : name = key <;> simp [List.lookup_cons, h, beq_eq_false_iff_ne.mpr]
    · split
      · next heq =>
        subst heq
        by_cases h : name = key <;> simp [List.lookup_cons, h, beq_eq_false_iff_ne.mpr]
      · next hne =>
        rw [List.lookup_cons, ih]
        by_cases h : name = key
        · simp [h, beq_eq_false_iff_ne.mpr hne]
        · simp [List.lookup_cons, h]

/-- A field is put where its key belongs. -/
theorem pairwise_insertField (h : fs.Pairwise (·.1 < ·.1)) :
    (insertField key v fs).Pairwise (·.1 < ·.1) := by
  induction fs with
  | nil => exact List.pairwise_singleton _ _
  | cons f fs ih =>
    obtain ⟨k, w⟩ := f
    obtain ⟨hlt, hfs⟩ := List.pairwise_cons.1 h
    rw [insertField]
    split
    · next hk =>
      refine List.pairwise_cons.2 ⟨fun f hf => ?_, h⟩
      rcases List.mem_cons.1 hf with rfl | hf
      · exact hk
      · exact String.lt_trans hk (hlt f hf)
    · next hk =>
      split
      · next heq => exact List.pairwise_cons.2 ⟨heq ▸ hlt, hfs⟩
      · next hne =>
        refine List.pairwise_cons.2 ⟨fun f hf => ?_, ih hfs⟩
        rcases mem_insertField hf with rfl | hf
        · exact (lt_trichotomy k key).resolve_right fun h => h.elim (fun h => hne h.symm) hk
        · exact hlt f hf

theorem fieldsAreReadable_iff : fieldsAreReadable depth fs = true ↔
    (∀ f ∈ fs, isReadable depth f.2 = true) ∧ fs.Pairwise (·.1 < ·.1) := by
  induction fs with
  | nil => simp [fieldsAreReadable]
  | cons f fs ih =>
    simp only [fieldsAreReadable, Bool.and_eq_true, List.all_eq_true, decide_eq_true_eq, ih,
      List.forall_mem_cons, List.pairwise_cons]
    tauto

theorem fieldsAreReadable_insertField (hv : isReadable depth v = true)
    (h : fieldsAreReadable depth fs = true) :
    fieldsAreReadable depth (insertField key v fs) = true := by
  obtain ⟨hall, hsorted⟩ := fieldsAreReadable_iff.1 h
  refine fieldsAreReadable_iff.2 ⟨fun f hf => ?_, pairwise_insertField hsorted⟩
  rcases mem_insertField hf with rfl | hf
  · exact hv
  · exact hall f hf

theorem insertField_last (h : ∀ f ∈ before, f.1 < key) :
    insertField key v before = before ++ [(key, v)] := by
  induction before with
  | nil => rfl
  | cons f before ih =>
    obtain ⟨k, w⟩ := f
    have hk : k < key := h _ List.mem_cons_self
    have hlt : ¬key < k := String.lt_asymm hk
    have hne : key ≠ k := fun heq => String.lt_irrefl k (heq ▸ hk)
    rw [insertField, if_neg hlt, if_neg hne, ih fun f hf => h f (List.mem_cons_of_mem _ hf)]
    rfl

mutual

/-- A readable value comes back from its document. -/
theorem value?_written (j : Json) (depth : Nat) (h : isReadable depth j = true) :
    (written j).value? depth = some j := by
  match j with
  | .null | .bool _ | .string _ => simp [written, Written.value?]
  | .number (.integer n) => simp [written, Written.value?, Numeral.number?_ofInt]
  | .number (.real _) => cases h
  | .array xs =>
    simp only [isReadable, Bool.and_eq_true, decide_eq_true_eq] at h
    rw [written, Written.value?, if_neg (Nat.ne_of_gt h.1), values?_written xs _ h.2]
    rfl
  | .object fs =>
    simp only [isReadable, Bool.and_eq_true, decide_eq_true_eq] at h
    rw [written, Written.value?, if_neg (Nat.ne_of_gt h.1), fields?_written fs _ [] (by simp) h.2]
    rfl

theorem values?_written (xs : List Json) (depth : Nat) (h : areReadable depth xs = true) :
    Written.values? depth (writtenItems xs) = some xs := by
  match xs with
  | [] => rfl
  | x :: xs =>
    simp only [areReadable, Bool.and_eq_true] at h
    simp [writtenItems, Written.values?, value?_written x _ h.1, values?_written xs _ h.2]

theorem fields?_written (fs : List (String × Json)) (depth : Nat) (before : List (String × Json))
    (hbefore : ∀ f ∈ before, ∀ f' ∈ fs, f.1 < f'.1) (h : fieldsAreReadable depth fs = true) :
    Written.fields? depth before (writtenFields fs) = some (before ++ fs) := by
  match fs with
  | [] => simp [writtenFields, Written.fields?]
  | (k, x) :: fs =>
    simp only [fieldsAreReadable, Bool.and_eq_true, List.all_eq_true, decide_eq_true_eq] at h
    have hlast := insertField_last (v := x) fun f hf => hbefore f hf (k, x) List.mem_cons_self
    have hrest := fields?_written fs depth (before ++ [(k, x)]) (fun f hf f' hf' => ?_) h.2
    · simp [writtenFields, Written.fields?, value?_written x _ h.1.1, hlast, hrest]
    · rcases List.mem_append.1 hf with hf | hf
      · exact hbefore f hf f' (List.mem_cons_of_mem _ hf')
      · rw [List.mem_singleton.1 hf]
        exact h.1.2 f' hf'

end

mutual

/-- A value that would be readable if it did not nest too deep does not come back. -/
theorem value?_written_deep {d : Nat} (j : Json) (depth : Nat) (h : isReadable d j = true)
    (hdeep : isReadable depth j = false) : (written j).value? depth = none := by
  match j with
  | .null | .bool _ | .string _ | .number (.integer _) => cases hdeep
  | .number (.real _) => cases h
  | .array xs =>
    simp only [isReadable, Bool.and_eq_true, decide_eq_true_eq] at h
    rw [written, Written.value?]
    split
    · rfl
    · next hd =>
      rw [values?_written_deep xs _ h.2 (by simpa [isReadable, Nat.pos_of_ne_zero hd] using hdeep)]
      rfl
  | .object fs =>
    simp only [isReadable, Bool.and_eq_true, decide_eq_true_eq] at h
    rw [written, Written.value?]
    split
    · rfl
    · next hd =>
      rw [fields?_written_deep fs _ [] h.2 (by simpa [isReadable, Nat.pos_of_ne_zero hd] using hdeep)]
      rfl

theorem values?_written_deep {d : Nat} (xs : List Json) (depth : Nat) (h : areReadable d xs = true)
    (hdeep : areReadable depth xs = false) : Written.values? depth (writtenItems xs) = none := by
  match xs with
  | [] => cases hdeep
  | x :: xs =>
    simp only [areReadable, Bool.and_eq_true] at h
    rw [areReadable, Bool.and_eq_false_iff] at hdeep
    rw [writtenItems, Written.values?]
    rcases hdeep with hx | hxs
    · simp [value?_written_deep x _ h.1 hx]
    · simp [values?_written_deep xs _ h.2 hxs]

theorem fields?_written_deep {d : Nat} (fs : List (String × Json)) (depth : Nat)
    (before : List (String × Json)) (h : fieldsAreReadable d fs = true)
    (hdeep : fieldsAreReadable depth fs = false) :
    Written.fields? depth before (writtenFields fs) = none := by
  match fs with
  | [] => cases hdeep
  | (k, x) :: fs =>
    simp only [fieldsAreReadable, Bool.and_eq_true] at h
    rw [fieldsAreReadable, Bool.and_eq_false_iff, Bool.and_eq_false_iff] at hdeep
    rw [writtenFields, Written.fields?]
    rcases hdeep with (hx | hall) | hfs
    · simp [value?_written_deep x _ h.1.1 hx]
    · rw [h.1.2] at hall
      cases hall
    · cases hv : (written x).value? depth with
      | none => simp
      | some v => simp [fields?_written_deep fs depth (insertField k v before) h.2 hfs]

end

/-! ### Records -/

theorem writtenFields_eq (fs : List (String × Json)) :
    writtenFields fs = fs.map fun f => (some f.1, written f.2) := by
  induction fs with
  | nil => rfl
  | cons f fs ih => simp [writtenFields, ih]

theorem writtenItems_eq (xs : List Json) : writtenItems xs = xs.map written := by
  induction xs with
  | nil => rfl
  | cons x xs ih => simp [writtenItems, ih]

variable {name : String} {names : List String} {ws : List (String × Written)}

theorem find_of_nodup (h : (ws.map (·.1)).Nodup) (name : String) :
    Written.find ws name = some (ws.filter (·.1 = name)) := by
  have hshort : (ws.filter (·.1 = name)).length ≤ 1 := by
    induction ws with
    | nil => simp
    | cons w ws ih =>
      rw [List.map_cons, List.nodup_cons] at h
      rw [List.filter_cons]
      split
      · next hw =>
        have hnone : ws.filter (·.1 = name) = [] := by
          rw [List.filter_eq_nil_iff]
          intro v hv hname
          refine h.1 (List.mem_map.2 ⟨v, hv, ?_⟩)
          rw [decide_eq_true_eq] at hw hname
          rw [hname, hw]
        simp [hnone]
      · exact ih h.2
  rw [Written.find]
  generalize ws.filter (·.1 = name) = found at hshort
  match found with
  | [] => rfl
  | [w] => rfl
  | w :: v :: ws => simp at hshort

theorem lookup_filter (ws : List (String × Written)) (name key : String) :
    (ws.filter (·.1 = name)).lookup key = if key = name then ws.lookup key else none := by
  induction ws with
  | nil => simp
  | cons w ws ih =>
    obtain ⟨k, v⟩ := w
    rw [List.filter_cons]
    by_cases hk : k = name <;> by_cases hkey : key = k <;>
      simp_all [List.lookup_cons, beq_eq_false_iff_ne.mpr]

theorem lookup_flatten (ws : List (String × Written)) (names : List String) (key : String) :
    (names.map fun name => ws.filter (·.1 = name)).flatten.lookup key =
      if key ∈ names then ws.lookup key else none := by
  induction names with
  | nil => simp
  | cons name names ih =>
    rw [List.map_cons, List.flatten_cons, List.lookup_append, lookup_filter, ih]
    by_cases h : key = name <;> by_cases h' : key ∈ names <;> simp_all

theorem mapM_writtenFields (h : (fs.map (·.1)).Nodup) :
    (writtenFields fs).mapM (fun (k, v) => k.map (·, v)) =
      some (fs.map fun f => (f.1, written f.2)) := by
  rw [writtenFields_eq, List.mapM_map]
  induction fs with
  | nil => rfl
  | cons f fs ih => simp [ih (List.nodup_cons.1 h).2]

/-- A record finds each of its own fields under its name. -/
theorem record?_written (h : (fs.map (·.1)).Nodup) (names : List String) :
    ∃ r, Written.record? names (written (.object fs)) = some r ∧ r.byPlace = false ∧
      ∀ name ∈ names, r.values.lookup name = (fs.lookup name).map written := by
  have hnodup : ((fs.map fun f => (f.1, written f.2)).map (·.1)).Nodup := by
    simpa [Function.comp_def] using h
  have hfind : names.mapM (Written.find (fs.map fun f => (f.1, written f.2))) =
      some (names.map fun name => (fs.map fun f => (f.1, written f.2)).filter (·.1 = name)) := by
    induction names with
    | nil => rfl
    | cons name names ih => simp [find_of_nodup hnodup, ih]
  have hlookup : ∀ name, (fs.map fun f => (f.1, written f.2)).lookup name =
      (fs.lookup name).map written := by
    intro name
    clear hnodup hfind h
    induction fs with
    | nil => rfl
    | cons f fs ih =>
      rw [List.map_cons, List.lookup_cons, ih, List.lookup_cons]
      split <;> rfl
  refine ⟨⟨(names.map fun name =>
    (fs.map fun f => (f.1, written f.2)).filter (·.1 = name)).flatten, false⟩, ?_, rfl, ?_⟩
  · simp only [written, Written.record?, mapM_writtenFields h, hfind, Option.bind_eq_bind, Option.bind_some]
    rfl
  · intro name hname
    rw [lookup_flatten, if_pos hname, hlookup]

end Retrace.Json
