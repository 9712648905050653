import Mathlib.Data.List.Induction
import Mathlib.Tactic.Common
import Retrace.CommandLine.Render
import Retrace.Proofs.Text.Utf8

/-!
How the arguments of one command are read (`Reads`). An option knows its words and what is found of
them (`Given`), and so does an argument by place (`Placed`); together they are the arguments of a
command, which are read back as they were given (`Arguments.matched`).
-/
namespace Retrace.CommandLine

open Reading

variable {g : Grammar} {r r' s : Reading} {f : Found} {k : ValueKind} {w : Word}
  {ws us rest : List Word} {name : String} {n : Nat}

/-! ### Words -/

theorem word_option (name : String) : word ("--" ++ name) = dash :: dash :: word name :=
  Utf8.encode_append "--" name

theorem word_valued (name : String) (v : Word) :
    word ("--" ++ name ++ "=") ++ v = dash :: dash :: (word name ++ equals :: v) := by
  have hend : word ("--" ++ name ++ "=") = word ("--" ++ name) ++ [equals] := Utf8.encode_append _ "="
  rw [hend, word_option]
  simp

theorem splitAttached_attached (h : equals ∉ w) (v : Word) :
    splitAttached (w ++ equals :: v) = (w, some v) := by
  have hname : (w ++ equals :: v).takeWhile (· ≠ equals) = w := by
    rw [List.takeWhile_append_of_pos fun b hb => by simpa using fun hc : b = equals => h (hc ▸ hb)]
    simp
  simp only [splitAttached, hname, List.drop_left]

theorem splitAttached_bare (h : equals ∉ w) : splitAttached w = (w, none) := by
  have hname : (w ++ []).takeWhile (· ≠ equals) = w ++ [] :=
    List.takeWhile_append_of_pos fun b hb => by simpa using fun hc : b = equals => h (hc ▸ hb)
  rw [List.append_nil] at hname
  simp only [splitAttached, hname, List.drop_length]

theorem toList_toString (n : Nat) : (toString n).toList = Nat.toDigits 10 n := by simp

theorem natural?_toString (n : Nat) : Value.natural? (toString n) = some n := by
  have hdigit : ∀ c ∈ Nat.toDigits 10 n, c.isDigit = true := fun c hc =>
    Nat.isDigit_of_mem_toDigits (by omega) (by omega) hc
  have hvalue := Nat.ofDigitChars_ten_toDigits (n := n)
  rw [Nat.ofDigitChars_eq_foldl] at hvalue
  rw [Value.natural?, toList_toString]
  cases hds : Nat.toDigits 10 n with
  | nil => exact absurd hds Nat.toDigits_ne_nil
  | cons c ds =>
    rw [hds] at hdigit hvalue
    have hplus : c ≠ '+' := by
      rintro rfl
      exact absurd (hdigit _ List.mem_cons_self) (by decide)
    have hall : (c :: ds).all Char.isDigit = true := List.all_eq_true.2 hdigit
    simpa [hplus, hall] using hvalue

theorem days?_toString (n : Nat) : Value.days? (toString n) = some n := by
  have h := natural?_toString n
  rw [Value.days?]
  split
  · next r hr =>
    have hminus : '-' ∈ Nat.toDigits 10 n := by rw [← toList_toString, hr]; exact List.mem_cons_self
    exact absurd (Nat.isDigit_of_mem_toDigits (by omega) (by omega) hminus) (by decide)
  · exact h

theorem read_text (s : String) : Value.read (word s) .text = .ok (.text s) := by
  rw [Value.read, Value.textOf, word, Utf8.decode?_encode]
  rfl

theorem read_path {p : Path} (hp : p.bytes ≠ []) : Value.read p.bytes .path = .ok (.path p) := if_neg hp

theorem read_count (h : n < Nat.pow 2 64) : Value.read (word (toString n)) .count = .ok (.number n) := by
  rw [Value.read, Value.textOf, word, Utf8.decode?_encode]
  change Value.bounded 64 (Value.natural? (toString n)) = _
  rw [natural?_toString, Value.bounded, if_pos h]

theorem read_days (h : n < Nat.pow 2 32) : Value.read (word (toString n)) .days = .ok (.number n) := by
  rw [Value.read, Value.textOf, word, Utf8.decode?_encode]
  change Value.bounded 32 (Value.days? (toString n)) = _
  rw [days?_toString, Value.bounded, if_pos h]

/-! ### Reading on -/

def Grammar.Unnamed (g : Grammar) (w : Word) : Prop :=
  (g.commands ≠ [] → w ≠ Grammar.help) ∧ g.command? w = none

/-- The arguments of one command, read one after the other. -/
inductive Reads (g : Grammar) : Reading → List Word → Reading → Prop
  | nil (r : Reading) : Reads g r [] r
  | cons {r s r' : Reading} {w : Word} {ws : List Word} (hw : r.mayName = true → g.Unnamed w)
    (hs : r.step g w = .ok s) (h : Reads g s ws r') : Reads g r (w :: ws) r'

theorem Reads.append (h : Reads g r ws s) (h' : Reads g s us r') : Reads g r (ws ++ us) r' := by
  induction h with
  | nil => exact h'
  | cons hw hs _ ih => exact .cons hw hs (ih h')

theorem Reads.single (hw : r.mayName = true → g.Unnamed w) (hs : r.step g w = .ok s) : Reads g r [w] s :=
  .cons hw hs (.nil s)

theorem matchFrom_reads (h : Reads g r ws r') (rest : List Word) :
    matchFrom g r (ws ++ rest) = matchFrom g r' rest := by
  induction h with
  | nil => rfl
  | @cons r s r' w ws hw hs _ ih =>
    have hhelp : (r.mayName && !g.commands.isEmpty && w = Grammar.help) = false := by
      by_cases hname : r.mayName = true
      · by_cases hc : g.commands = []
        · simp [hc]
        · simpa [hc, hname] using (hw hname).1 hc
      · simp [hname]
    have hnone : (if r.mayName then g.command? w else none) = none := by
      split
      · next hname => exact (hw hname).2
      · rfl
    rw [List.cons_append, matchFrom, if_neg (by simp [hhelp]), hnone, hs]
    exact ih

theorem matchFrom_command {c : Grammar} (hr : r.mayName = true) (hw : w ≠ Grammar.help)
    (hc : g.command? w = some (name, c)) :
    matchFrom g r (w :: rest) = (matchFrom c {} rest).bind fun m =>
      (r.check g true).map fun f => ⟨name :: m.names, f :: m.levels⟩ := by
  rw [matchFrom, if_neg (by simp [hw]), if_pos hr, hc]
  rfl

theorem matchFrom_named {c : Grammar} {m : Matched} (hr : r.mayName = true) (hw : w ≠ Grammar.help)
    (hc : g.command? w = some (name, c)) (hm : matchFrom c {} rest = .ok m)
    (hf : r.check g true = .ok f) :
    matchFrom g r (w :: rest) = .ok ⟨name :: m.names, f :: m.levels⟩ := by
  rw [matchFrom_command hr hw hc, hm, hf]
  rfl

/-! ### Options -/

def Grammar.option? (g : Grammar) (name : String) : Option Argument :=
  g.options.find? (·.long.any (· = name))

def Grammar.Offers (g : Grammar) (name id : String) (effect : Effect) : Prop :=
  (g.option? name).any (fun a => a.id = id ∧ a.effect = effect) = true ∧
    equals ∉ word name ∧ word name ≠ [] ∧
      g.commands.all fun c => c.1.all fun n => (word n).head? ≠ some dash

instance (g : Grammar) (name id : String) (effect : Effect) : Decidable (g.Offers name id effect) :=
  inferInstanceAs (Decidable (_ ∧ _ ∧ _ ∧ _))

namespace Grammar.Offers

variable {id : String} {effect : Effect}

theorem argument (h : g.Offers name id effect) :
    ∃ a, a.id = id ∧ a.effect = effect ∧
      g.options.find? (·.long.any (Utf8.encode · = word name)) = some a := by
  obtain ⟨a, ha, hid⟩ := (Option.any_eq_true _ _).1 h.1
  obtain ⟨rfl, rfl⟩ := of_decide_eq_true hid
  exact ⟨a, rfl, rfl, by simpa only [word, Utf8.encode_inj, Grammar.option?] using ha⟩

theorem unnamed (h : g.Offers name id effect) (w : Word) : g.Unnamed (dash :: w) := by
  have hhelp : Grammar.help.head? = some 104 := by decide
  refine ⟨fun _ hc => by rw [← hc] at hhelp; exact absurd hhelp (by simp [dash]), ?_⟩
  have hnone : g.commands.find? (·.1.any (Utf8.encode · = dash :: w)) = none := by
    refine List.find?_eq_none.2 fun c hc => ?_
    have hc := List.all_eq_true.1 h.2.2.2 c hc
    simp only [List.any_eq_true, not_exists, not_and, decide_eq_true_eq]
    intro n hn heq
    have hhead := List.all_eq_true.1 hc n hn
    rw [word, heq] at hhead
    simp at hhead
  rw [Grammar.command?, hnone]
  rfl

theorem reads_valued {k : ValueKind} (h : g.Offers name id effect)
    (heffect : effect = .value k ∨ effect = .values k) (v : Word) (f' : Found)
    (hstore : ∀ a : Argument, a.id = id → a.effect = effect →
      Reading.store { found := f } a [v] = .ok { found := f' }) :
    Reads g { found := f } (valued name v) { found := f' } := by
  obtain ⟨a, hid, ha, hfind⟩ := h.argument
  have htakes : takesValue a = true := by rcases heffect with h | h <;> rw [takesValue, ha, h]
  refine .single (fun _ => by rw [word_valued]; exact h.unnamed _) ?_
  rw [word_valued, step, if_neg (by simp), if_neg (by simp), if_pos (by simp)]
  simp only [List.drop_succ_cons, List.drop_zero, splitAttached_attached h.2.1, long, hfind, htakes]
  exact hstore a hid ha

end Grammar.Offers

/-- An option as it is given or left out: its words, and what is found of it. -/
structure Given (g : Grammar) where
  id : String
  words : List Word
  notes : Found
  own : ∀ other, other ≠ id → notes.lookup other = none
  reads : ∀ f : Found, f.lookup id = none → Reads g { found := f } words { found := f ++ notes }

namespace Given

/-- A flag. -/
def flag (g : Grammar) (name id : String) (h : g.Offers name id .flag) (on : Bool) : Given g where
  id := id
  words := CommandLine.flag name on
  notes := if on then [(id, [])] else []
  own other hne := by cases on <;> simp [List.lookup_cons, beq_eq_false_iff_ne.mpr hne]
  reads f hf := by
    cases on with
    | false => rw [if_neg Bool.false_ne_true, List.append_nil]; exact .nil _
    | true =>
      obtain ⟨a, rfl, ha, hfind⟩ := h.argument
      refine .single (fun _ => by rw [word_option]; exact h.unnamed _) ?_
      rw [word_option, step, if_neg (by simp), if_neg (by simpa using h.2.2.1), if_pos (by simp)]
      simp only [List.drop_succ_cons, List.drop_zero, splitAttached_bare h.2.1, long, hfind, takesValue,
        ha, take, settle, store, hf, bind, Except.bind, Option.isSome_none, Bool.false_eq_true, if_false,
        if_true]

/-- An option that may have a value. -/
def valued? {α : Type} (g : Grammar) (name id : String) (k : ValueKind) (h : g.Offers name id (.value k))
    (encode : α → Word) (value : α → Value) (o : Option α)
    (hread : ∀ y ∈ o, Value.read (encode y) k = .ok (value y)) : Given g where
  id := id
  words := CommandLine.valued? name (o.map encode)
  notes := match o with
    | none => []
    | some y => [(id, [value y])]
  own other hne := by cases o <;> simp [List.lookup_cons, beq_eq_false_iff_ne.mpr hne]
  reads f hf := by
    cases o with
    | none => rw [List.append_nil]; exact .nil _
    | some y =>
      refine h.reads_valued (.inl rfl) _ _ fun a hid ha => ?_
      subst hid
      simp only [store, ha, hf, hread y rfl, bind, Except.bind, pure, Except.pure, Option.isSome_none,
        Bool.false_eq_true, if_false]

@[simp] theorem id_flag {id : String} (h : g.Offers name id .flag) (on : Bool) :
    (flag g name id h on).id = id := rfl

@[simp] theorem words_flag {id : String} (h : g.Offers name id .flag) (on : Bool) :
    (flag g name id h on).words = CommandLine.flag name on := rfl

section

variable {α : Type} {id : String} {encode : α → Word} {value : α → Value}

@[simp] theorem id_valued? {o : Option α} (h : g.Offers name id (.value k))
    (hread : ∀ y ∈ o, Value.read (encode y) k = .ok (value y)) :
    (valued? g name id k h encode value o hread).id = id := rfl

@[simp] theorem words_valued? {o : Option α} (h : g.Offers name id (.value k))
    (hread : ∀ y ∈ o, Value.read (encode y) k = .ok (value y)) :
    (valued? g name id k h encode value o hread).words = CommandLine.valued? name (o.map encode) := rfl

def gathered (id : String) (xs : List Value) : Found := if xs = [] then [] else [(id, xs)]

theorem lookup_gathered (id : String) (xs : List Value) : ((gathered id xs).lookup id).getD [] = xs := by
  by_cases hxs : xs = []
  · rw [gathered, if_pos hxs, hxs]; rfl
  · rw [gathered, if_neg hxs, List.lookup_cons_self]; rfl

theorem filter_gathered (id : String) (xs : List Value) : (gathered id xs).filter (·.1 ≠ id) = [] := by
  by_cases hxs : xs = []
  · rw [gathered, if_pos hxs]; rfl
  · rw [gathered, if_neg hxs, List.filter_cons_of_neg (by simp)]; rfl

/-- An option that may be given many times. -/
def each {α : Type} (g : Grammar) (name id : String) (k : ValueKind) (h : g.Offers name id (.values k))
    (encode : α → Word) (value : α → Value) (ys : List α)
    (hread : ∀ y ∈ ys, Value.read (encode y) k = .ok (value y)) : Given g where
  id := id
  words := ys.flatMap fun y => valued name (encode y)
  notes := gathered id (ys.map value)
  own other hne := by
    by_cases hys : ys = [] <;> simp [gathered, hys, List.lookup_cons, beq_eq_false_iff_ne.mpr hne]
  reads f hf := by
    induction ys using List.reverseRecOn with
    | nil => rw [List.map_nil, gathered, if_pos rfl, List.append_nil]; exact .nil _
    | append_singleton ys y ih =>
      rw [List.flatMap_append, List.flatMap_singleton]
      refine (ih fun z hz => hread z (by simp [hz])).append
        (h.reads_valued (.inr rfl) _ _ fun a hid ha => ?_)
      subst hid
      have hbefore : ((f ++ gathered a.id (ys.map value)).lookup a.id).getD [] = ys.map value := by
        rw [List.lookup_append, hf, Option.none_or, lookup_gathered]
      have hothers : (f ++ gathered a.id (ys.map value)).filter (·.1 ≠ a.id) = f := by
        rw [List.filter_append, filter_gathered, List.append_nil, List.filter_eq_self]
        exact fun y hy => decide_eq_true (bne_iff_ne.1 (List.lookup_eq_none_iff.1 hf y hy)).symm
      simp only [store, ha, hread y (by simp), hbefore, hothers, bind, Except.bind, pure, Except.pure]
      rw [List.map_append, List.map_singleton, gathered, if_neg (by simp)]

@[simp] theorem id_each {ys : List α} (h : g.Offers name id (.values k))
    (hread : ∀ y ∈ ys, Value.read (encode y) k = .ok (value y)) :
    (each g name id k h encode value ys hread).id = id := rfl

@[simp] theorem words_each {ys : List α} (h : g.Offers name id (.values k))
    (hread : ∀ y ∈ ys, Value.read (encode y) k = .ok (value y)) :
    (each g name id k h encode value ys hread).words = ys.flatMap fun y => valued name (encode y) := rfl

end

theorem lookup_notes {gs : List (Given g)} {id : String} (h : id ∉ gs.map (·.id)) :
    (gs.flatMap (·.notes)).lookup id = none := by
  induction gs with
  | nil => rfl
  | cons o gs ih =>
    rw [List.map_cons, List.mem_cons, not_or] at h
    rw [List.flatMap_cons, List.lookup_append, o.own id h.1, ih h.2, Option.none_or]

theorem reads_all (gs : List (Given g)) (h : (gs.map (·.id)).Nodup) :
    Reads g {} (gs.flatMap (·.words)) { found := gs.flatMap (·.notes) } := by
  induction gs using List.reverseRecOn with
  | nil => exact .nil _
  | append_singleton gs o ih =>
    rw [List.map_append, List.nodup_append] at h
    simp only [List.flatMap_append, List.flatMap_singleton]
    refine (ih h.1).append (o.reads _ (lookup_notes fun hc => ?_))
    exact h.2.2 _ hc _ (by simp) rfl

end Given

/-! ### Arguments by place -/

/-- An argument given by place, with its word and the value that is read. -/
structure Placed where
  argument : Argument
  kind : ValueKind
  word : Word
  value : Value
  effect : argument.effect = .value kind
  read : Value.read word kind = .ok value

namespace Placed

def id (q : Placed) : String := q.argument.id

def note (q : Placed) : String × List Value := (q.argument.id, [q.value])

def text (name : String) (required : Bool) (s : String) : Placed :=
  ⟨Grammar.place name .text required, .text, CommandLine.word s, .text s, rfl, read_text s⟩

def path (name : String) (required : Bool) (p : Path) (hp : p.bytes ≠ []) : Placed :=
  ⟨Grammar.place name .path required, .path, p.bytes, .path p, rfl, read_path hp⟩

@[simp] theorem id_text (name : String) (required : Bool) (s : String) :
    (text name required s).id = name := rfl

@[simp] theorem word_text (name : String) (required : Bool) (s : String) :
    (text name required s).word = CommandLine.word s := rfl

@[simp] theorem word_path (name : String) (required : Bool) (p : Path) (hp : p.bytes ≠ []) :
    (path name required p hp).word = p.bytes := rfl

@[simp] theorem id_path (name : String) (required : Bool) (p : Path) (hp : p.bytes ≠ []) :
    (path name required p hp).id = name := rfl

/-- After two dashes words are taken for one place after the other, whatever they are. -/
theorem reads_all (qs : List Placed) (hplaces : qs.map (·.argument) <+: g.places)
    (h : (qs.map (·.id)).Nodup) (hf : ∀ q ∈ qs, f.lookup q.id = none) :
    ∃ r, Reads g { found := f, trailing := true } (qs.map (·.word)) r ∧ r.trailing = true ∧
      r.placed = qs.length ∧
      r.settle = .ok { found := f ++ qs.map note, placed := qs.length, trailing := true } := by
  induction qs using List.reverseRecOn with
  | nil => exact ⟨_, .nil _, rfl, rfl, by rw [List.map_nil, List.append_nil]; rfl⟩
  | append_singleton qs q ih =>
    simp only [List.map_append, List.map_singleton] at hplaces h ⊢
    rw [List.nodup_append] at h
    obtain ⟨r, hreads, htrailing, hplaced, hsettle⟩ := ih ((List.prefix_append _ _).trans hplaces) h.1
      fun q hq => hf q (by simp [hq])
    have hnext : g.places[qs.length]? = some q.argument := by
      obtain ⟨others, hothers⟩ := hplaces
      rw [← hothers]
      simp
    have hnew : (f ++ qs.map note).lookup q.argument.id = none := by
      rw [List.lookup_append, show f.lookup q.argument.id = none from hf q (by simp), Option.none_or,
        List.lookup_eq_none_iff]
      rintro _ hn
      obtain ⟨q', hq', rfl⟩ := List.mem_map.1 hn
      exact bne_iff_ne.2 fun hc =>
        h.2.2 _ (List.mem_map_of_mem hq') _ (List.mem_singleton_self _) hc.symm
    let r' : Reading :=
      { found := f ++ qs.map note
        pending := some (q.argument, [q.word])
        placed := qs.length + 1
        trailing := true }
    refine ⟨r', hreads.append (.single (fun hname => ?_) ?_), rfl, by simp [r'], ?_⟩
    · simp [mayName, htrailing] at hname
    · rw [step, if_pos htrailing, plain]
      simp [r', htrailing, hplaced, hnext, hsettle, bind, Except.bind, pure, Except.pure]
    · simp [r', settle, store, q.effect, q.read, hnew, note, bind, Except.bind, pure, Except.pure]

end Placed

/-! ### Commands -/

theorem check_settled {below : Bool} (hs : r.settle = .ok s) (hc : g.commands = [] ∨ below = true)
    (hexcl : ∀ p ∈ g.exclusive, s.found.lookup p.1 = none ∨ s.found.lookup p.2 = none)
    (hplaces : ∀ a ∈ g.places, a.required = true → s.found.lookup a.id ≠ none) :
    r.check g below = .ok s.found := by
  have hbelow : (!g.commands.isEmpty && !below) = false := by rcases hc with h | h <;> simp [h]
  have hfree : (g.exclusive.any fun p => (s.found.lookup p.1).isSome && (s.found.lookup p.2).isSome) =
      false := by
    refine List.any_eq_false.2 fun p hp => ?_
    rcases hexcl p hp with h | h <;> simp [h]
  have hgiven : (g.places.any fun a => a.required && !(s.found.lookup a.id).isSome) = false := by
    refine List.any_eq_false.2 fun a ha => ?_
    cases hreq : a.required with
    | false => simp
    | true => simpa using Option.isSome_iff_ne_none.2 (hplaces a ha hreq)
  simp only [check, hs, hbelow, hfree, hgiven, bind, Except.bind, pure, Except.pure, Bool.false_eq_true,
    if_false]

def foundOf (gs : List (Given g)) (qs : List Placed) : Found :=
  gs.flatMap (·.notes) ++ qs.map Placed.note

/-- The arguments of a command without others below it. None of them is one of the program's options. -/
structure Arguments (g : Grammar) where
  options : List (Given g)
  places : List Placed
  leaf : g.commands = [] := by rfl
  distinct : ("verbose" :: "project" :: (options.map (·.id) ++ places.map (·.id))).Nodup := by simp
  placed : places.map (·.argument) <+: g.places := by exact List.prefix_refl _
  left : ∀ a ∈ g.places.drop places.length, a.required = false := by exact List.forall_mem_nil _
  compatible : ∀ p ∈ g.exclusive, (foundOf options places).lookup p.1 = none ∨
    (foundOf options places).lookup p.2 = none := by exact List.forall_mem_nil _

namespace Arguments

def words (A : Arguments g) : List Word := A.options.flatMap (·.words) ++ byPlace (A.places.map (·.word))

def found (A : Arguments g) : Found := foundOf A.options A.places

theorem lookup_none (A : Arguments g) {id : String} (h : id ∉ A.options.map (·.id))
    (h' : id ∉ A.places.map (·.id)) : A.found.lookup id = none := by
  rw [found, foundOf, List.lookup_append, Given.lookup_notes h, Option.none_or, List.lookup_eq_none_iff]
  rintro _ hn
  obtain ⟨q, hq, rfl⟩ := List.mem_map.1 hn
  exact bne_iff_ne.2 fun hc => h' (List.mem_map.2 ⟨q, hq, hc.symm⟩)

theorem required (A : Arguments g) : ∀ a ∈ g.places, a.required = true → A.found.lookup a.id ≠ none := by
  intro a ha hreq
  obtain ⟨others, hothers⟩ := A.placed
  have hleft := A.left
  rw [← hothers] at ha hleft
  rcases List.mem_append.1 ha with ha | ha
  · obtain ⟨q, hq, rfl⟩ := List.mem_map.1 ha
    intro hnone
    have hne := List.lookup_eq_none_iff.1 hnone q.note (List.mem_append_right _ (List.mem_map_of_mem hq))
    exact bne_iff_ne.1 hne rfl
  · rw [hleft a (by simpa using ha)] at hreq
    cases hreq

theorem own (A : Arguments g) : A.found.lookup "verbose" = none ∧ A.found.lookup "project" = none := by
  have h := List.nodup_cons.1 A.distinct
  have h' := List.nodup_cons.1 h.2
  simp only [List.mem_cons, List.mem_append, not_or] at h h'
  exact ⟨A.lookup_none h.1.2.1 h.1.2.2, A.lookup_none h'.1.1 h'.1.2⟩

/-- A command is read with its arguments. -/
theorem matched (A : Arguments g) : matchFrom g {} A.words = .ok ⟨[], [A.found]⟩ := by
  have hids := (List.nodup_cons.1 (List.nodup_cons.1 A.distinct).2).2
  obtain ⟨hoptions, hplaces, hdisjoint⟩ := List.nodup_append.1 hids
  have hreads := Given.reads_all A.options hoptions
  have hunnamed : ∀ w, g.Unnamed w := fun w =>
    ⟨fun hc => absurd A.leaf hc, by rw [Grammar.command?, A.leaf]; rfl⟩
  by_cases hnil : A.places = []
  · have hfound : A.found = A.options.flatMap (·.notes) := by
      rw [found, foundOf, hnil, List.map_nil, List.append_nil]
    have hcheck : Reading.check g false { found := A.found } = .ok A.found :=
      check_settled (s := { found := A.found }) rfl (.inl A.leaf) A.compatible A.required
    have hread := matchFrom_reads hreads []
    rw [words, hnil, List.map_nil, byPlace, if_pos rfl, hread, ← hfound, matchFrom, hcheck]
    rfl
  · obtain ⟨r, hplaced, -, -, hsettle⟩ := Placed.reads_all (f := A.options.flatMap (·.notes)) A.places
      A.placed hplaces
      fun q hq => Given.lookup_notes fun hc => hdisjoint _ hc _ (List.mem_map_of_mem hq) rfl
    have hdashes : Reads g { found := A.options.flatMap (·.notes) } [word "--"]
        { found := A.options.flatMap (·.notes), trailing := true } := .single (fun _ => hunnamed _) rfl
    have hcheck : r.check g false = .ok A.found :=
      check_settled hsettle (.inl A.leaf) A.compatible A.required
    have hread := matchFrom_reads ((hreads.append hdashes).append hplaced) []
    rw [List.append_nil, List.append_assoc] at hread
    rw [words, byPlace, if_neg (by simpa using hnil)]
    refine hread.trans ?_
    rw [matchFrom, hcheck]
    rfl

end Arguments

end Retrace.CommandLine
