import Retrace.Proofs.Encoding
import Retrace.Proofs.Json.Nesting

/-!
Documents and what they stand for: a transaction or a checkpoint comes back from its document, and
what is read from any document comes back from the document that is written for it
(`documents_round_trip`).
-/
namespace Retrace

open Json (Written Record isExact fieldsAreExact fieldsAreReadable nesting itemsNesting fieldsNesting
  greatestDepth)

theorem exists_of_mapM {α β : Type} {f : α → Option β} {xs : List α} {ys : List β}
    (h : xs.mapM f = some ys) :
    (∀ x ∈ xs, ∃ y ∈ ys, f x = some y) ∧ ∀ y ∈ ys, ∃ x ∈ xs, f x = some y := by
  induction xs generalizing ys with
  | nil =>
    obtain rfl : [] = ys := by simpa using h
    simp
  | cons x xs ih =>
    rw [List.mapM_cons] at h
    obtain ⟨y, hy, h⟩ := Option.bind_eq_some_iff.1 h
    obtain ⟨ys, hys, h⟩ := Option.bind_eq_some_iff.1 h
    cases h
    obtain ⟨hto, hfrom⟩ := ih hys
    refine ⟨fun z hz => ?_, fun z hz => ?_⟩
    · rcases List.mem_cons.1 hz with rfl | hz
      · exact ⟨y, List.mem_cons_self, hy⟩
      · exact (hto z hz).imp fun _ h => ⟨List.mem_cons_of_mem _ h.1, h.2⟩
    · rcases List.mem_cons.1 hz with rfl | hz
      · exact ⟨x, List.mem_cons_self, hy⟩
      · exact (hfrom z hz).imp fun _ h => ⟨List.mem_cons_of_mem _ h.1, h.2⟩

theorem isSome_mapM {α β : Type} {f : α → Option β} {xs : List α} (h : ∀ x ∈ xs, (f x).isSome) :
    (xs.mapM f).isSome := by
  induction xs with
  | nil => rfl
  | cons x xs ih =>
    obtain ⟨y, hy⟩ := Option.isSome_iff_exists.1 (h x List.mem_cons_self)
    obtain ⟨ys, hys⟩ := Option.isSome_iff_exists.1 (ih fun z hz => h z (List.mem_cons_of_mem _ hz))
    rw [List.mapM_cons, hy, hys]
    rfl

/-! ### Metadata -/

namespace Metadata

variable {m : Metadata} {depth : Nat}

theorem Exact.fits_of_nesting (hm : m.Exact) (h : fieldsNesting m ≤ depth) : m.fits depth = true := by
  obtain ⟨d, hd⟩ := hm
  obtain ⟨hexact, hordered, -⟩ := (Json.fieldsAreReadable_parts m d).1 hd
  exact (Json.fieldsAreReadable_parts m depth).2 ⟨hexact, hordered, h⟩

theorem Exact.fits_of_fields (hm : m.Exact) (fs : List (String × Json))
    (hfs : ∀ f ∈ m.toFields, f ∈ fs) (h : fieldsNesting fs ≤ depth + 1) : m.fits depth = true := by
  by_cases hne : m = []
  · rw [hne]
    rfl
  · have hmem : ("metadata", Json.object m) ∈ fs := hfs _ (by simp [toFields, hne])
    have hle := Json.fieldsNesting_le_iff.1 h _ hmem
    rw [nesting] at hle
    exact hm.fits_of_nesting (by omega)

theorem fits_of_ofWritten? {w : Written} (h : ofWritten? depth w = some m)
    (hexact : fieldsAreExact m = true) : m.fits depth = true := by
  rw [ofWritten?.eq_def] at h
  split at h
  · next ws =>
    obtain ⟨hordered, hnesting⟩ := Json.fields?_ordered ws depth ⟨rfl, Nat.zero_le _⟩ h
    exact (Json.fieldsAreReadable_parts m depth).2 ⟨hexact, hordered, hnesting⟩
  · cases h

end Metadata

/-! ### Fields that are read -/

section Fields

variable {α : Type} {r : Record} {name : String} {read : Written → Option α} {x : α}

theorem exists_of_required (h : r.required name read = some x) : ∃ w, read w = some x :=
  (Option.bind_eq_some_iff.1 h).imp fun _ h => h.2

theorem exists_of_optional (h : r.optional name read = some (some x)) : ∃ w, read w = some x := by
  rw [Record.optional] at h
  split at h
  · split at h <;> cases h
  · cases h
  · next w _ _ =>
    obtain ⟨y, hy, hyx⟩ := Option.map_eq_some_iff.1 h
    cases hyx
    exact ⟨w, hy⟩

theorem exists_of_withDefault {d : α} (h : r.withDefault name d read = some x) :
    x = d ∨ ∃ w, read w = some x := by
  rw [Record.withDefault] at h
  split at h
  · cases h; exact .inl rfl
  · exact .inr ⟨_, h⟩

theorem regular_of_text {w : Written} {t : Instant} (h : w.text?.bind Instant.ofText? = some t) :
    t.Regular := by
  obtain ⟨s, -, h⟩ := Option.bind_eq_some_iff.1 h
  exact Instant.regular_of_ofText? h

theorem fits_of_withDefault {m : Metadata} {depth : Nat}
    (h : r.withDefault name [] (Metadata.ofWritten? depth) = some m)
    (hexact : fieldsAreExact m = true) : m.fits depth = true := by
  rcases exists_of_withDefault h with rfl | ⟨w, hw⟩
  · rfl
  · exact Metadata.fits_of_ofWritten? hw hexact

theorem natural?_lt {bits n : Nat} {w : Written} (h : w.natural? bits = some n) : n < 2 ^ bits := by
  unfold Written.natural? at h
  split at h
  · split at h
    · split at h
      · next i _ hi =>
        cases h
        have : i.value < ((2 ^ bits : Nat) : Int) := hi.2
        omega
      · cases h
    · cases h
  · cases h

end Fields

theorem isSome_text?_ofString (s : String) : (Path.ofString s).text?.isSome = true := by
  rw [Path.text?, Path.ofString, Utf8.decode?_encode]
  rfl

/-! ### Operations -/

/-- The paths of the operation are texts. -/
def Operation.HasTexts (op : Operation) : Prop :=
  op.path.text?.isSome = true ∧ ∀ p ∈ op.previousPath, p.text?.isSome = true

namespace Operation

variable {op : Operation} {j : Json}

theorem HasTexts.isSome_toJson? (h : op.HasTexts) : op.toJson?.isSome = true := by
  obtain ⟨path, hpath⟩ := Option.isSome_iff_exists.1 h.1
  rw [toJson?, hpath]
  cases hprevious : op.previousPath with
  | none => rfl
  | some p =>
    obtain ⟨s, hs⟩ := Option.isSome_iff_exists.1 (h.2 p hprevious)
    simp only [hs, Option.map_some, Option.bind_eq_bind, Option.bind_some]
    rfl

theorem isReadable_of_nesting (hop : op.Regular) (h : op.toJson? = some j)
    (hj : nesting j ≤ greatestDepth - 2) : op.isReadable = true := by
  obtain ⟨path, previousPath, -, -, -, rfl⟩ := toJson?_eq h
  rw [nesting] at hj
  refine hop.metadata.fits_of_fields (op.fields path previousPath) (fun f hf => ?_) ?_
  · exact List.mem_append_right _ hf
  · rw [greatestDepth] at hj ⊢
    omega

theorem regular_of_ofWritten? {w : Written} (h : ofWritten? (greatestDepth - 4) w = some op)
    (hexact : fieldsAreExact op.metadata = true) :
    op.Regular ∧ op.HasTexts ∧ op.isReadable = true := by
  rw [ofWritten?] at h
  simp only [Option.bind_eq_bind, Option.bind_eq_some_iff, Option.pure_def, Option.some.injEq] at h
  obtain ⟨r, -, id, -, kind, -, path, -, previousPath, -, previousContent, -, currentContent, -,
    previousMode, hmode, checksum, -, timestamp, htimestamp, metadata, hmetadata, rfl⟩ := h
  have hfits := fits_of_withDefault hmetadata hexact
  obtain ⟨w', hw'⟩ := exists_of_required htimestamp
  refine ⟨⟨fun n hn => ?_, regular_of_text hw', _, hfits⟩, ⟨isSome_text?_ofString _, fun p hp => ?_⟩,
    hfits⟩
  · obtain ⟨w, hw⟩ := exists_of_optional (hmode.trans (congrArg some hn))
    exact natural?_lt hw
  · obtain ⟨s, -, rfl⟩ := Option.map_eq_some_iff.1 hp
    exact isSome_text?_ofString s

end Operation

/-! ### Transactions -/

namespace Transaction

/-- The paths of the operations are texts. -/
def HasTexts (t : Transaction) : Prop := ∀ op ∈ t.operations, op.HasTexts

/-- No metadata hold a real number. -/
def WithoutReals (t : Transaction) : Prop :=
  fieldsAreExact t.metadata = true ∧ ∀ op ∈ t.operations, fieldsAreExact op.metadata = true

variable {t : Transaction} {j : Json}

theorem toJson?_eq (h : t.toJson? = some j) :
    ∃ js, t.operations.mapM Operation.toJson? = some js ∧ j = .object (t.fields js) := by
  obtain ⟨js, hjs, h⟩ := Option.bind_eq_some_iff.1 h
  exact ⟨js, hjs, (Option.some.inj h).symm⟩

theorem HasTexts.exists_toText? (h : t.HasTexts) :
    ∃ j, t.toJson? = some j ∧ t.toText? = some j.indented := by
  obtain ⟨js, hjs⟩ := Option.isSome_iff_exists.1 (isSome_mapM fun op hop => (h op hop).isSome_toJson?)
  have hj : t.toJson? = some (.object (t.fields js)) := by
    rw [toJson?, hjs]
    rfl
  exact ⟨_, hj, by rw [toText?, hj]; rfl⟩

theorem isReadable_of_nesting (ht : t.Regular) (h : t.toJson? = some j)
    (hj : nesting j ≤ greatestDepth) : t.isReadable = true := by
  obtain ⟨js, hjs, rfl⟩ := toJson?_eq h
  rw [nesting] at hj
  have hfields : fieldsNesting (t.fields js) ≤ greatestDepth - 2 + 1 := by
    rw [greatestDepth] at hj ⊢
    omega
  have hmetadata : t.metadata.fits (greatestDepth - 2) = true :=
    ht.metadata.fits_of_fields (t.fields js) (fun f hf => List.mem_append_right _ hf) hfields
  have hitems : nesting (.array js) ≤ greatestDepth - 1 :=
    Json.fieldsNesting_le_iff.1 hfields ("operations", .array js) (by simp [fields])
  rw [isReadable, hmetadata, Bool.true_and, List.all_eq_true]
  intro op hop
  obtain ⟨j, hj, hopj⟩ := (exists_of_mapM hjs).1 op hop
  rw [nesting] at hitems
  refine Operation.isReadable_of_nesting (ht.operations op hop) hopj
    (Json.itemsNesting_le_iff.1 ?_ j hj)
  rw [greatestDepth] at hitems ⊢
  omega

/-- A transaction that is read is regular, has texts for paths and can be read again. -/
theorem regular_of_ofText? {text : String} (h : ofText? text = some t) (hexact : t.WithoutReals) :
    t.Regular ∧ t.HasTexts ∧ t.isReadable = true := by
  obtain ⟨w, -, h⟩ := Option.bind_eq_some_iff.1 h
  rw [ofWritten?] at h
  simp only [Option.bind_eq_bind, Option.bind_eq_some_iff, Option.pure_def, Option.some.injEq] at h
  obtain ⟨r, -, id, -, name, -, description, -, command, -, operations, hoperations, timestamp,
    htimestamp, status, -, rollbackTimestamp, hrollback, metadata, hmetadata, rfl⟩ := h
  have hfits := fits_of_withDefault hmetadata hexact.1
  obtain ⟨w', hw'⟩ := exists_of_required htimestamp
  have hops : ∀ op ∈ operations, op.Regular ∧ op.HasTexts ∧ op.isReadable = true := by
    intro op hop
    obtain ⟨w, hw⟩ := exists_of_required hoperations
    obtain ⟨ws, -, hws⟩ := Option.bind_eq_some_iff.1 hw
    obtain ⟨w, -, hw⟩ := (exists_of_mapM hws).2 op hop
    exact Operation.regular_of_ofWritten? hw (hexact.2 op hop)
  refine ⟨⟨fun op hop => (hops op hop).1, regular_of_text hw', fun now hnow => ?_, _, hfits⟩,
    fun op hop => (hops op hop).2.1, ?_⟩
  · obtain ⟨w, hw⟩ := exists_of_optional (hrollback.trans (congrArg some hnow))
    exact regular_of_text hw
  · rw [isReadable, hfits, Bool.true_and, List.all_eq_true]
    exact fun op hop => (hops op hop).2.2

end Transaction

/-! ### Checkpoints -/

namespace Checkpoint

variable {c : Checkpoint}

theorem isReadable_of_nesting (hc : c.Regular) (h : nesting c.toJson ≤ greatestDepth) :
    c.isReadable = true := by
  have hfields : nesting (.object c.fields) ≤ greatestDepth := h
  rw [nesting] at hfields
  exact hc.metadata.fits_of_fields c.fields (fun f hf => List.mem_append_right _ hf)
    (by rw [greatestDepth] at hfields ⊢; omega)

theorem regular_of_ofText? {text : String} (h : ofText? text = some c)
    (hexact : fieldsAreExact c.metadata = true) : c.Regular ∧ c.isReadable = true := by
  obtain ⟨w, -, h⟩ := Option.bind_eq_some_iff.1 h
  rw [ofWritten?] at h
  simp only [Option.bind_eq_bind, Option.bind_eq_some_iff, Option.pure_def, Option.some.injEq] at h
  obtain ⟨r, -, id, -, name, -, description, -, timestamp, htimestamp, ids, -, metadata, hmetadata,
    rfl⟩ := h
  have hfits := fits_of_withDefault hmetadata hexact
  obtain ⟨w', hw'⟩ := exists_of_required htimestamp
  exact ⟨⟨regular_of_text hw', _, hfits⟩, hfits⟩

end Checkpoint

/-- A transaction whose paths are texts has a document, and it comes back from it unless the document
nests too deep; so does a checkpoint. What is read from any text, however that was written, comes back
from its own document, unless its metadata hold reals. -/
theorem documents_round_trip :
    (∀ t : Transaction, t.Regular → t.HasTexts → (∀ j ∈ t.toJson?, nesting j ≤ greatestDepth) →
      ∃ text, t.toText? = some text ∧ Transaction.ofText? text = some t) ∧
    (∀ c : Checkpoint, c.Regular → nesting c.toJson ≤ greatestDepth →
      Checkpoint.ofText? c.toText = some c) ∧
    (∀ text t, Transaction.ofText? text = some t → t.WithoutReals →
      ∃ text', t.toText? = some text' ∧ Transaction.ofText? text' = some t) ∧
    ∀ text c, Checkpoint.ofText? text = some c → fieldsAreExact c.metadata = true →
      Checkpoint.ofText? c.toText = some c := by
  refine ⟨fun t ht htexts hdepth => ?_, fun c hc hdepth => ?_, fun text t h hexact => ?_,
    fun text c h hexact => ?_⟩
  · obtain ⟨j, hj, htext⟩ := htexts.exists_toText?
    refine ⟨_, htext, ?_⟩
    rw [Transaction.ofText?_toText? ht htext, if_pos (Transaction.isReadable_of_nesting ht hj (hdepth j hj))]
  · rw [Checkpoint.ofText?_toText hc, if_pos (Checkpoint.isReadable_of_nesting hc hdepth)]
  · obtain ⟨hregular, htexts, hreadable⟩ := Transaction.regular_of_ofText? h hexact
    obtain ⟨j, -, htext⟩ := htexts.exists_toText?
    exact ⟨_, htext, by rw [Transaction.ofText?_toText? hregular htext, if_pos hreadable]⟩
  · obtain ⟨hregular, hreadable⟩ := Checkpoint.regular_of_ofText? h hexact
    rw [Checkpoint.ofText?_toText hregular, if_pos hreadable]

namespace Sample

def notedOperation : Operation :=
  ⟨"o", .chmod, .ofString "/p/f", none, some "", some "\x01", some 0o755, none, ⟨59, 1500000000⟩,
    [("a", .array [.null, .object [("b", .bool true)]])]⟩

def nested : Nat → Json
  | 0 => .null
  | n + 1 => .array [nested n]

def noted : Transaction :=
  ⟨"t", "n", "", "", [notedOperation], ⟨400000000000, 5⟩, .rolledBack, some ⟨-1, 0⟩, [("k", .ofNat 1)]⟩

end Sample

theorem documents_round_trip_noted :
    ∃ text, Sample.noted.toText? = some text ∧ Transaction.ofText? text = some Sample.noted := by
  have hop : Sample.notedOperation.Regular :=
    ⟨by decide, by decide, 2, by decide⟩
  have hregular : Sample.noted.Regular :=
    ⟨by simpa [Sample.noted] using hop, by decide, by decide, 0, by decide⟩
  have htexts : Sample.noted.HasTexts := by
    have hpath : (Path.ofString "/p/f").text?.isSome = true := by decide +kernel
    simpa [Transaction.HasTexts, Operation.HasTexts, Sample.noted, Sample.notedOperation] using hpath
  refine documents_round_trip.1 Sample.noted hregular htexts fun j hj => ?_
  have hall : (Sample.noted.toJson?.all fun j => nesting j ≤ greatestDepth) = true := by decide +kernel
  rw [Option.mem_def.1 hj] at hall
  exact of_decide_eq_true hall

end Retrace
