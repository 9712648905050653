import Retrace.Checkpoint
import Retrace.Proofs.Json.Value
import Retrace.Proofs.Text.Utf8
import Retrace.Proofs.Time.Text
import Retrace.Transaction

/-!
Transactions and checkpoints come back from their documents (`Transaction.ofText?_toText?`,
`Checkpoint.ofText?_toText`). Their metadata are exact: they hold no reals and keep their keys in
order. A document whose metadata nest too deep is not read at all.
-/
namespace Retrace

open Json (Written Record written isExact areExact fieldsAreExact isReadable areReadable
  fieldsAreReadable greatestDepth)

namespace Metadata

/-- Metadata without reals and with their keys in order. -/
def Exact (m : Metadata) : Prop := ∃ depth, fieldsAreReadable depth m = true

def fits (depth : Nat) (m : Metadata) : Bool := fieldsAreReadable depth m

theorem Exact.set {m : Metadata} (hm : m.Exact) (name : String) {v : Json}
    (hv : ∀ depth, Json.isReadable depth v = true) : (m.set name v).Exact :=
  hm.imp fun depth h => Json.fieldsAreReadable_insertField (hv depth) h

theorem ofWritten?_written {m : Metadata} (hm : m.Exact) (depth : Nat) :
    ofWritten? depth (written (.object m)) = if m.fits depth then some m else none := by
  obtain ⟨d, hd⟩ := hm
  rw [written, ofWritten?]
  split
  · next hfits => simp [Json.fields?_written m depth [] (by simp) hfits]
  · next hfits => exact Json.fields?_written_deep m depth [] hd (by simpa [fits] using hfits)

end Metadata

/-! ### Fields -/

section Fields

variable {α : Type} {name key : String} {f : α → Json} {o : Option α} {m : Metadata} {depth : Nat}

@[simp]
theorem lookup_optionalField (name key : String) (f : α → Json) (o : Option α) :
    (Operation.optionalField name f o).lookup key = if key = name then o.map f else none := by
  cases o with
  | none => simp [Operation.optionalField]
  | some x =>
    by_cases h : key = name <;> simp [Operation.optionalField, List.lookup_cons, h, beq_eq_false_iff_ne.mpr]

@[simp]
theorem lookup_toFields (m : Metadata) (key : String) :
    m.toFields.lookup key = if key = "metadata" ∧ m ≠ [] then some (.object m) else none := by
  by_cases hm : m = []
  · simp [Metadata.toFields, hm]
  · by_cases h : key = "metadata" <;>
      simp [Metadata.toFields, hm, List.lookup_cons, h, beq_eq_false_iff_ne.mpr]

theorem sublist_optionalField (name : String) (f : α → Json) (o : Option α) :
    ((Operation.optionalField name f o).map (·.1)).Sublist [name] := by
  cases o <;> simp [Operation.optionalField]

theorem sublist_toFields (m : Metadata) : (m.toFields.map (·.1)).Sublist ["metadata"] := by
  by_cases hm : m = [] <;> simp [Metadata.toFields, hm]

theorem fieldsAreExact_append (fs gs : List (String × Json)) :
    fieldsAreExact (fs ++ gs) = (fieldsAreExact fs && fieldsAreExact gs) := by
  induction fs with
  | nil => simp [fieldsAreExact]
  | cons f fs ih => simp [fieldsAreExact, ih, Bool.and_assoc]

theorem fieldsAreExact_optionalField (h : ∀ x, isExact (f x) = true) :
    fieldsAreExact (Operation.optionalField name f o) = true := by
  cases o <;> simp [Operation.optionalField, fieldsAreExact, h]

theorem fieldsAreExact_toFields (h : m.Exact) : fieldsAreExact m.toFields = true := by
  obtain ⟨depth, h⟩ := h
  by_cases hm : m = []
  · simp [Metadata.toFields, hm, fieldsAreExact]
  · simp [Metadata.toFields, hm, fieldsAreExact, isExact,
      Json.fieldsAreExact_of_fieldsAreReadable m depth h]

theorem required_of_lookup {r : Record} {j : Json} {read : Written → Option α}
    (h : r.values.lookup name = (some j).map written) : r.required name read = read (written j) := by
  rw [Record.required, h]
  rfl

theorem optional_of_lookup {r : Record} {o : Option α} {read : Written → Option α}
    (hplace : r.byPlace = false) (h : r.values.lookup name = (o.map f).map written)
    (hnull : ∀ x, written (f x) ≠ .null) (hread : ∀ x ∈ o, read (written (f x)) = some x) :
    r.optional name read = some o := by
  rw [Record.optional, h]
  cases o with
  | none => simp [hplace]
  | some x =>
    have hx := hread x rfl
    have hx' := hnull x
    simp only [Option.map_some]
    rw [hx, Option.map_some]

theorem metadata_of_lookup {r : Record} (hm : m.Exact)
    (h : r.values.lookup "metadata" = (m.toFields.lookup "metadata").map written) :
    r.withDefault "metadata" [] (Metadata.ofWritten? depth) =
      if m.fits depth then some m else none := by
  rw [Record.withDefault, h, lookup_toFields]
  by_cases hne : m = []
  · simp [hne, Metadata.fits, fieldsAreReadable]
  · simp [hne, Metadata.ofWritten?_written hm]

theorem instant_of_text {t : Instant} (ht : t.Regular) :
    ((written (.string t.toText)).text? >>= Instant.ofText?) = some t := by
  simp [written, Written.text?, Instant.ofText?_toText ht]

end Fields

/-! ### Operations -/

/-- An operation whose mode has 32 bits, whose time is regular and whose metadata are exact. -/
structure Operation.Regular (op : Operation) : Prop where
  previousMode : ∀ n ∈ op.previousMode, n < 2 ^ 32
  timestamp : op.timestamp.Regular
  metadata : op.metadata.Exact

/-- The metadata do not nest too deep for a document. -/
def Operation.isReadable (op : Operation) : Bool := op.metadata.fits (greatestDepth - 4)

theorem ofString_of_text? {p : Path} {s : String} (h : p.text? = some s) : Path.ofString s = p := by
  rw [Path.ofString, Utf8.encode_of_decode? h]

theorem natural?_ofNat {n : Nat} (h : n < 2 ^ 32) :
    (written (.ofNat n)).natural? 32 = some n := by
  have hlt : n < 4294967296 := by norm_num at h; exact h
  have hbounds : -0x8000000000000000 ≤ (n : Int) ∧ (n : Int) < 0x10000000000000000 := by omega
  have hn : Json.ofNat n = .number (.integer ⟨n, hbounds⟩) := by
    rw [Json.ofNat, Json.Integer.ofInt?, dif_pos hbounds]
    rfl
  rw [hn, written, Written.natural?, Json.Numeral.number?_ofInt ⟨n, hbounds⟩]
  have hpow : Nat.pow 2 32 = 4294967296 := by decide
  simp only [hpow]
  rw [if_pos (by constructor <;> omega)]
  simp

theorem written_ofNat_ne_null (n : Nat) : written (.ofNat n) ≠ .null := by
  simp [Json.ofNat, written]

theorem isExact_ofNat (n : Nat) : isExact (.ofNat n) = true := by
  simp [Json.ofNat, isExact]

theorem variant?_kind (k : Operation.Kind) :
    Operation.Kind.ofWritten? (written (.string k.name)) = some k := by
  simp [Operation.Kind.ofWritten?, written, Written.variant?, Operation.Kind.ofName?_name]

namespace Operation

variable {op : Operation} {j : Json}

def fields (op : Operation) (path : String) (previousPath : Option String) : List (String × Json) :=
  [("id", .string op.id), ("type", .string op.kind.name), ("path", .string path)] ++
    optionalField "previous_path" .string previousPath ++
    optionalField "previous_content" .string op.previousContent ++
    optionalField "current_content" .string op.currentContent ++
    optionalField "previous_mode" .ofNat op.previousMode ++
    optionalField "checksum" .string op.checksum ++
    [("timestamp", .string op.timestamp.toText)] ++ op.metadata.toFields

theorem toJson?_eq (h : op.toJson? = some j) : ∃ path previousPath, op.path.text? = some path ∧
    (∀ p ∈ op.previousPath, ∃ s ∈ previousPath, p.text? = some s) ∧
    (op.previousPath = none → previousPath = none) ∧ j = .object (op.fields path previousPath) := by
  rw [toJson?] at h
  cases hprevious : op.previousPath with
  | none =>
    simp only [hprevious, Option.bind_eq_bind] at h
    obtain ⟨path, hpath, h⟩ := Option.bind_eq_some_iff.1 h
    exact ⟨path, none, hpath, by simp, by simp, (Option.some.inj h).symm⟩
  | some p =>
    simp only [hprevious, Option.bind_eq_bind] at h
    obtain ⟨path, hpath, h⟩ := Option.bind_eq_some_iff.1 h
    obtain ⟨previousPath, hp, h⟩ := Option.bind_eq_some_iff.1 h
    obtain ⟨s, hs, rfl⟩ := Option.map_eq_some_iff.1 hp
    exact ⟨path, some s, hpath, by simpa using hs, by simp, (Option.some.inj h).symm⟩

theorem nodup_fields (op : Operation) (path : String) (previousPath : Option String) :
    ((op.fields path previousPath).map (·.1)).Nodup := by
  have hsub : ((op.fields path previousPath).map (·.1)).Sublist fieldNames := by
    simp only [fields, List.map_append]
    exact ((((((((List.Sublist.refl ["id", "type", "path"]).append
      (sublist_optionalField "previous_path" _ _)).append
      (sublist_optionalField "previous_content" _ _)).append
      (sublist_optionalField "current_content" _ _)).append
      (sublist_optionalField "previous_mode" _ _)).append
      (sublist_optionalField "checksum" _ _)).append
      (List.Sublist.refl ["timestamp"])).append (sublist_toFields _))
  exact hsub.nodup (by decide)

/-- A regular operation comes back from its document, if it is readable. -/
theorem ofWritten?_written (hop : op.Regular) (h : op.toJson? = some j) :
    ofWritten? (greatestDepth - 4) (written j) = if op.isReadable then some op else none := by
  obtain ⟨path, previousPath, hpath, hprevious, hnone, rfl⟩ := toJson?_eq h
  obtain ⟨r, hr, hplace, hlookup⟩ :=
    Json.record?_written (nodup_fields op path previousPath) fieldNames
  have hlook : ∀ {name o}, (op.fields path previousPath).lookup name = o → name ∈ fieldNames →
      r.values.lookup name = o.map written := fun ho hn => by rw [hlookup _ hn, ho]
  have hid : r.required "id" Written.text? = some op.id :=
    required_of_lookup (j := .string op.id) (hlook (by simp [fields]) (by decide))
  have hkind : r.required "type" Kind.ofWritten? = some op.kind :=
    (required_of_lookup (j := .string op.kind.name)
      (hlook (by simp [fields, List.lookup_cons]) (by decide))).trans (variant?_kind op.kind)
  have hpathText : r.required "path" Written.text? = some path :=
    required_of_lookup (j := .string path)
      (hlook (by simp [fields, List.lookup_cons]) (by decide))
  have hpreviousText : r.optional "previous_path" Written.text? = some previousPath :=
    optional_of_lookup (f := Json.string) hplace
      (hlook (by simp [fields, List.lookup_cons, List.lookup_append]) (by decide))
      (by simp [written]) (fun _ _ => rfl)
  have hpreviousContent : r.optional "previous_content" Written.text? = some op.previousContent :=
    optional_of_lookup (f := Json.string) hplace
      (hlook (by simp [fields, List.lookup_cons, List.lookup_append]) (by decide))
      (by simp [written]) (fun _ _ => rfl)
  have hcurrentContent : r.optional "current_content" Written.text? = some op.currentContent :=
    optional_of_lookup (f := Json.string) hplace
      (hlook (by simp [fields, List.lookup_cons, List.lookup_append]) (by decide))
      (by simp [written]) (fun _ _ => rfl)
  have hmode : r.optional "previous_mode" (Written.natural? 32) = some op.previousMode :=
    optional_of_lookup (f := Json.ofNat) hplace
      (hlook (by simp [fields, List.lookup_cons, List.lookup_append]) (by decide))
      written_ofNat_ne_null (fun n hn => natural?_ofNat (hop.previousMode n hn))
  have hchecksum : r.optional "checksum" Written.text? = some op.checksum :=
    optional_of_lookup (f := Json.string) hplace
      (hlook (by simp [fields, List.lookup_cons, List.lookup_append]) (by decide))
      (by simp [written]) (fun _ _ => rfl)
  have htimestamp : (r.required "timestamp" fun w => w.text?.bind Instant.ofText?) =
      some op.timestamp :=
    (required_of_lookup (j := .string op.timestamp.toText)
      (hlook (by simp [fields, List.lookup_cons, List.lookup_append]) (by decide))).trans
      (instant_of_text hop.timestamp)
  have hmetadata : r.withDefault "metadata" [] (Metadata.ofWritten? (greatestDepth - 4)) =
      if op.isReadable then some op.metadata else none :=
    metadata_of_lookup hop.metadata
      (hlook (by simp [fields, List.lookup_cons, List.lookup_append]) (by decide))
  have hback : previousPath.map Path.ofString = op.previousPath := by
    cases hop' : op.previousPath with
    | none => simp [hnone hop']
    | some p =>
      obtain ⟨s, hs, hp⟩ := hprevious p hop'
      rw [Option.mem_def.1 hs, Option.map_some, ofString_of_text? hp]
  simp only [ofWritten?, hr, hid, hkind, hpathText, hpreviousText, hpreviousContent,
    hcurrentContent, hmode, hchecksum, htimestamp, hmetadata, hback, ofString_of_text? hpath,
    Option.bind_eq_bind, Option.bind_some]
  split <;> rfl

theorem isExact_of_toJson? (hop : op.Regular) (h : op.toJson? = some j) : isExact j = true := by
  obtain ⟨path, previousPath, -, -, -, rfl⟩ := toJson?_eq h
  have htext : ∀ name o, fieldsAreExact (optionalField name .string o) = true :=
    fun _ _ => fieldsAreExact_optionalField fun _ => rfl
  simp [isExact, fields, fieldsAreExact_append, fieldsAreExact, htext,
    fieldsAreExact_optionalField isExact_ofNat, fieldsAreExact_toFields hop.metadata]

end Operation

/-! ### Transactions -/

/-- A transaction with regular times and operations and exact metadata. -/
structure Transaction.Regular (t : Transaction) : Prop where
  operations : ∀ op ∈ t.operations, op.Regular
  timestamp : t.timestamp.Regular
  rollbackTimestamp : ∀ now ∈ t.rollbackTimestamp, now.Regular
  metadata : t.metadata.Exact

/-- No metadata nest too deep for the document. -/
def Transaction.isReadable (t : Transaction) : Bool :=
  t.metadata.fits (greatestDepth - 2) && t.operations.all Operation.isReadable

namespace Transaction

open Operation (optionalField)

variable {t : Transaction}

def fields (t : Transaction) (operations : List Json) : List (String × Json) :=
  [("id", .string t.id), ("name", .string t.name), ("description", .string t.description),
    ("command", .string t.command), ("operations", .array operations),
    ("timestamp", .string t.timestamp.toText), ("status", .string t.status.name)] ++
  optionalField "rollback_timestamp" (.string ·.toText) t.rollbackTimestamp ++ t.metadata.toFields

theorem nodup_fields (t : Transaction) (operations : List Json) :
    ((t.fields operations).map (·.1)).Nodup := by
  have hsub : ((t.fields operations).map (·.1)).Sublist fieldNames := by
    simp only [fields, List.map_append]
    exact ((List.Sublist.refl ["id", "name", "description", "command", "operations", "timestamp",
      "status"]).append (sublist_optionalField "rollback_timestamp" _ _)).append
      (sublist_toFields _)
  exact hsub.nodup (by decide)

theorem mapM_ofWritten? {ops : List Operation} {js : List Json} (h : ∀ op ∈ ops, op.Regular)
    (hjs : ops.mapM Operation.toJson? = some js) : areExact js = true ∧
      (js.map written).mapM (Operation.ofWritten? (greatestDepth - 4)) =
        if ops.all Operation.isReadable then some ops else none := by
  induction ops generalizing js with
  | nil =>
    obtain rfl : [] = js := by simpa using hjs
    exact ⟨rfl, rfl⟩
  | cons op ops ih =>
    have hop := h op List.mem_cons_self
    rw [List.mapM_cons] at hjs
    obtain ⟨j, hj, hjs⟩ := Option.bind_eq_some_iff.1 hjs
    obtain ⟨rest, hrest, hjs⟩ := Option.bind_eq_some_iff.1 hjs
    obtain rfl := Option.some.inj hjs
    obtain ⟨hexact, hread⟩ := ih (fun o ho => h o (List.mem_cons_of_mem _ ho)) hrest
    refine ⟨by simp [areExact, hexact, Operation.isExact_of_toJson? hop hj], ?_⟩
    rw [List.map_cons, List.mapM_cons, hread, Operation.ofWritten?_written hop hj, List.all_cons]
    cases op.isReadable <;> cases ops.all Operation.isReadable <;> rfl

theorem ofWritten?_written {operations : List Json} (ht : t.Regular)
    (hread : (operations.map written).mapM (Operation.ofWritten? (greatestDepth - 4)) =
      if t.operations.all Operation.isReadable then some t.operations else none) :
    ofWritten? (written (.object (t.fields operations))) = if t.isReadable then some t else none := by
  obtain ⟨r, hr, hplace, hlookup⟩ := Json.record?_written (nodup_fields t operations) fieldNames
  have hlook : ∀ {name o}, (t.fields operations).lookup name = o → name ∈ fieldNames →
      r.values.lookup name = o.map written := fun ho hn => by rw [hlookup _ hn, ho]
  have hid : r.required "id" Written.text? = some t.id :=
    required_of_lookup (j := .string t.id) (hlook (by simp [fields]) (by decide))
  have hname : r.required "name" Written.text? = some t.name :=
    required_of_lookup (j := .string t.name)
      (hlook (by simp [fields, List.lookup_cons]) (by decide))
  have hdescription : r.required "description" Written.text? = some t.description :=
    required_of_lookup (j := .string t.description)
      (hlook (by simp [fields, List.lookup_cons]) (by decide))
  have hcommand : r.required "command" Written.text? = some t.command :=
    required_of_lookup (j := .string t.command)
      (hlook (by simp [fields, List.lookup_cons]) (by decide))
  have hoperations : (r.required "operations" fun w =>
      w.items?.bind (List.mapM (Operation.ofWritten? (greatestDepth - 4)))) =
      if t.operations.all Operation.isReadable then some t.operations else none := by
    rw [required_of_lookup (j := .array operations)
      (hlook (by simp [fields, List.lookup_cons]) (by decide)), written, Json.writtenItems_eq]
    exact hread
  have htimestamp : (r.required "timestamp" fun w => w.text?.bind Instant.ofText?) =
      some t.timestamp :=
    (required_of_lookup (j := .string t.timestamp.toText)
      (hlook (by simp [fields, List.lookup_cons]) (by decide))).trans (instant_of_text ht.timestamp)
  have hstatus : r.required "status" Status.ofWritten? = some t.status := by
    rw [required_of_lookup (j := .string t.status.name)
      (hlook (by simp [fields, List.lookup_cons]) (by decide))]
    simp [Status.ofWritten?, written, Written.variant?, Status.ofName?_name]
  have hrollback : (r.optional "rollback_timestamp" fun w => w.text?.bind Instant.ofText?) =
      some t.rollbackTimestamp :=
    optional_of_lookup (f := fun now : Instant => Json.string now.toText) hplace
      (hlook (by simp [fields, List.lookup_cons, List.lookup_append]) (by decide))
      (by simp [written]) (fun now hnow => instant_of_text (ht.rollbackTimestamp now hnow))
  have hmetadata : r.withDefault "metadata" [] (Metadata.ofWritten? (greatestDepth - 2)) =
      if t.metadata.fits (greatestDepth - 2) then some t.metadata else none :=
    metadata_of_lookup ht.metadata
      (hlook (by simp [fields, List.lookup_cons, List.lookup_append]) (by decide))
  simp only [ofWritten?, hr, hid, hname, hdescription, hcommand, hoperations, htimestamp, hstatus,
    hrollback, hmetadata, Option.bind_eq_bind, Option.bind_some, isReadable]
  by_cases hops : t.operations.all Operation.isReadable = true <;>
    by_cases hm : t.metadata.fits (greatestDepth - 2) = true <;>
    simp only [hops, hm, if_true, if_false, Bool.false_eq_true, Bool.and_self, Bool.and_false,
      Bool.false_and, Option.bind_some, Option.bind_none, Option.pure_def]

/-- A regular transaction comes back from its document, if it is readable. -/
theorem ofText?_toText? {text : String} (ht : t.Regular) (htext : t.toText? = some text) :
    ofText? text = if t.isReadable then some t else none := by
  rw [toText?, toJson?] at htext
  obtain ⟨j, hj, rfl⟩ := Option.map_eq_some_iff.1 htext
  obtain ⟨js, hjs, hj⟩ := Option.bind_eq_some_iff.1 hj
  obtain rfl : .object (t.fields js) = j := Option.some.inj hj
  obtain ⟨hexact, hread⟩ := mapM_ofWritten? ht.operations hjs
  have hfields : isExact (.object (t.fields js)) = true := by
    have hrollback : ∀ o : Option Instant,
        fieldsAreExact (optionalField "rollback_timestamp" (.string ·.toText) o) = true :=
      fun _ => fieldsAreExact_optionalField fun _ => rfl
    simp [isExact, fields, fieldsAreExact_append, fieldsAreExact, hexact, hrollback,
      fieldsAreExact_toFields ht.metadata]
  rw [ofText?, Json.ofText?_indented hfields]
  exact ofWritten?_written ht hread

end Transaction

/-! ### Checkpoints -/

/-- A checkpoint with a regular time and exact metadata. -/
structure Checkpoint.Regular (c : Checkpoint) : Prop where
  timestamp : c.timestamp.Regular
  metadata : c.metadata.Exact

/-- The metadata do not nest too deep for the document. -/
def Checkpoint.isReadable (c : Checkpoint) : Bool := c.metadata.fits (greatestDepth - 2)

namespace Checkpoint

variable {c : Checkpoint}

def fields (c : Checkpoint) : List (String × Json) :=
  [("id", .string c.id), ("name", .string c.name), ("description", .string c.description),
    ("timestamp", .string c.timestamp.toText),
    ("transaction_ids", .ofStrings c.transactionIds)] ++ c.metadata.toFields

theorem nodup_fields (c : Checkpoint) : (c.fields.map (·.1)).Nodup := by
  have hsub : (c.fields.map (·.1)).Sublist fieldNames := by
    simp only [fields, List.map_append]
    exact (List.Sublist.refl ["id", "name", "description", "timestamp", "transaction_ids"]).append
      (sublist_toFields _)
  exact hsub.nodup (by decide)

theorem mapM_text? (ids : List String) :
    ((ids.map Json.string).map written).mapM Written.text? = some ids := by
  induction ids with
  | nil => rfl
  | cons id ids ih =>
    rw [List.map_cons, List.map_cons, List.mapM_cons, ih]
    rfl

theorem areExact_ofStrings (ids : List String) : areExact (ids.map .string) = true := by
  induction ids with
  | nil => rfl
  | cons id ids ih => simp [areExact, isExact, ih]

theorem ofWritten?_written (hc : c.Regular) :
    ofWritten? (written (.object c.fields)) = if c.isReadable then some c else none := by
  obtain ⟨r, hr, hplace, hlookup⟩ := Json.record?_written (nodup_fields c) fieldNames
  have hlook : ∀ {name o}, c.fields.lookup name = o → name ∈ fieldNames →
      r.values.lookup name = o.map written := fun ho hn => by rw [hlookup _ hn, ho]
  have hid : r.required "id" Written.text? = some c.id :=
    required_of_lookup (j := .string c.id) (hlook (by simp [fields]) (by decide))
  have hname : r.required "name" Written.text? = some c.name :=
    required_of_lookup (j := .string c.name)
      (hlook (by simp [fields, List.lookup_cons]) (by decide))
  have hdescription : r.required "description" Written.text? = some c.description :=
    required_of_lookup (j := .string c.description)
      (hlook (by simp [fields, List.lookup_cons]) (by decide))
  have htimestamp : (r.required "timestamp" fun w => w.text?.bind Instant.ofText?) =
      some c.timestamp :=
    (required_of_lookup (j := .string c.timestamp.toText)
      (hlook (by simp [fields, List.lookup_cons]) (by decide))).trans (instant_of_text hc.timestamp)
  have hids : (r.required "transaction_ids" fun w => w.items?.bind (List.mapM Written.text?)) =
      some c.transactionIds := by
    rw [required_of_lookup (j := .ofStrings c.transactionIds)
      (hlook (by simp [fields, List.lookup_cons]) (by decide)), Json.ofStrings, written,
      Json.writtenItems_eq]
    exact mapM_text? c.transactionIds
  have hmetadata : r.withDefault "metadata" [] (Metadata.ofWritten? (greatestDepth - 2)) =
      if c.isReadable then some c.metadata else none :=
    metadata_of_lookup hc.metadata (hlook (by simp [fields, List.lookup_cons]) (by decide))
  simp only [ofWritten?, hr, hid, hname, hdescription, htimestamp, hids, hmetadata,
    Option.bind_eq_bind, Option.bind_some]
  split <;> rfl

/-- A regular checkpoint comes back from its document, if its metadata fit. -/
theorem ofText?_toText (hc : c.Regular) :
    ofText? c.toText = if c.isReadable then some c else none := by
  have hfields : isExact (.object c.fields) = true := by
    simp [isExact, fields, fieldsAreExact, Json.ofStrings, areExact_ofStrings,
      fieldsAreExact_toFields hc.metadata]
  have htext : c.toText = (Json.object c.fields).indented := rfl
  rw [ofText?, htext, Json.ofText?_indented hfields]
  exact ofWritten?_written hc

end Checkpoint
end Retrace
