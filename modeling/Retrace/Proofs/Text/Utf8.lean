import Mathlib.Data.List.Basic
import Mathlib.Tactic.Common
import Retrace.Text.Utf8

/-!
Text written as bytes and read back. A character is read from its own bytes (`scan_char`), so that
text comes back whole; only no bytes at all are read as no text.
-/
namespace Retrace.Utf8

variable {b low high : UInt8} {left code : Nat} {r : Bytes}

theorem begin_one (h : b.toNat < 0x80) : begin b = ([some (Char.ofNat b.toNat)], .idle) := by
  simp [begin, UInt8.lt_iff_toNat_lt, h]

theorem begin_two (h : 0xC2 ≤ b.toNat) (h' : b.toNat < 0xE0) :
    begin b = ([], .within 1 (b.toNat - 0xC0) 0x80 0xBF) := by
  simp [begin, UInt8.lt_iff_toNat_lt, show ¬b.toNat < 128 by omega, show ¬b.toNat < 194 by omega, h']

theorem begin_three (h : 0xE0 ≤ b.toNat) (h' : b.toNat < 0xF0) :
    ∃ low high : UInt8, begin b = ([], .within 2 (b.toNat - 0xE0) low high) ∧
      low.toNat = (if b.toNat = 0xE0 then 0xA0 else 0x80) ∧
      high.toNat = if b.toNat = 0xED then 0x9F else 0xBF := by
  have h₁ : ¬b.toNat < 128 := by omega
  have h₂ : ¬b.toNat < 194 := by omega
  have h₃ : ¬b.toNat < 224 := by omega
  simp only [begin, UInt8.lt_iff_toNat_lt, ← UInt8.toNat_inj, UInt8.reduceToNat, h₁, h₂, h₃, h',
    if_false, if_true]
  split
  · next hb => exact ⟨0xA0, 0xBF, by simp [hb], rfl, by simp [hb]⟩
  · split
    · next hb => exact ⟨0x80, 0x9F, by simp [hb], rfl, rfl⟩
    · exact ⟨0x80, 0xBF, rfl, rfl, rfl⟩

theorem begin_four (h : 0xF0 ≤ b.toNat) (h' : b.toNat ≤ 0xF4) :
    ∃ low high : UInt8, begin b = ([], .within 3 (b.toNat - 0xF0) low high) ∧
      low.toNat = (if b.toNat = 0xF0 then 0x90 else 0x80) ∧
      high.toNat = if b.toNat = 0xF4 then 0x8F else 0xBF := by
  have h₁ : ¬b.toNat < 128 := by omega
  have h₂ : ¬b.toNat < 194 := by omega
  have h₃ : ¬b.toNat < 224 := by omega
  have h₄ : ¬b.toNat < 240 := by omega
  have h₅ : b.toNat ≠ 224 := by omega
  have h₆ : b.toNat ≠ 237 := by omega
  simp only [begin, UInt8.lt_iff_toNat_lt, ← UInt8.toNat_inj, UInt8.reduceToNat, h₁, h₂, h₃, h₄, h₅,
    h₆, if_false]
  split
  · next hb => exact ⟨0x90, 0xBF, by simp [hb], rfl, by simp [hb]⟩
  · split
    · next hb => exact ⟨0x80, 0xBF, rfl, rfl, by simp [show b.toNat ≠ 244 by omega]⟩
    · next hb =>
      have hb : b.toNat = 244 := by omega
      exact ⟨0x80, 0x8F, by simp [hb], rfl, by simp [hb]⟩

theorem step_within (h : low.toNat ≤ b.toNat) (h' : b.toNat ≤ high.toNat) :
    step (.within left code low high) b =
      if left ≤ 1 then ([some (Char.ofNat (64 * code + (b.toNat - 0x80)))], .idle)
      else ([], .within (left - 1) (64 * code + (b.toNat - 0x80)) 0x80 0xBF) := by
  simp [step, UInt8.le_iff_toNat_le, h, h']

theorem scan_cons (s : State) (b : UInt8) (r : Bytes) :
    scan s (b :: r) = (step s b).1 ++ scan (step s b).2 r := by
  cases s <;> rfl

theorem scan_tail (h : 0x80 ≤ b.toNat) (h' : b.toNat ≤ 0xBF) (hleft : 1 < left) :
    scan (.within left code 0x80 0xBF) (b :: r) =
      scan (.within (left - 1) (64 * code + (b.toNat - 0x80)) 0x80 0xBF) r := by
  rw [scan_cons, step_within (by simpa using h) (by simpa using h'), if_neg (by omega)]
  rfl

theorem scan_last (h : 0x80 ≤ b.toNat) (h' : b.toNat ≤ 0xBF) :
    scan (.within 1 code 0x80 0xBF) (b :: r) =
      some (Char.ofNat (64 * code + (b.toNat - 0x80))) :: scan .idle r := by
  rw [scan_cons, step_within (by simpa using h) (by simpa using h'), if_pos (Nat.le_refl 1)]
  rfl

/-- A character is read from its own bytes. -/
theorem scan_char (c : Char) (r : Bytes) :
    scan .idle (String.utf8EncodeChar c ++ r) = some c :: scan .idle r := by
  have hvalid : c.val.toNat < 0xD800 ∨ 0xDFFF < c.val.toNat ∧ c.val.toNat < 0x110000 := c.valid
  have hc : Char.ofNat c.val.toNat = c := Char.ofNat_toNat c
  generalize hv : c.val.toNat = v at *
  have hbyte : ∀ n, n < 256 → (UInt8.ofNat n).toNat = n := fun n hn => by simp; omega
  simp only [String.utf8EncodeChar, hv]
  split
  · have hb := hbyte v (by omega)
    rw [List.singleton_append, scan_cons, step, begin_one (by omega), hb, hc]
    rfl
  split
  · have h₀ := hbyte (v / 64 % 32 + 192) (by omega)
    have h₁ := hbyte (v % 64 + 128) (by omega)
    rw [List.cons_append, scan_cons, step, begin_two (by omega) (by omega), List.nil_append,
      List.singleton_append, scan_last (by omega) (by omega), h₀, h₁,
      show 64 * (v / 64 % 32 + 192 - 192) + (v % 64 + 128 - 128) = v by omega, hc]
  split
  · have h₀ := hbyte (v / 4096 % 16 + 224) (by omega)
    have h₁ := hbyte (v / 64 % 64 + 128) (by omega)
    have h₂ := hbyte (v % 64 + 128) (by omega)
    obtain ⟨low, high, hbegin, hlow, hhigh⟩ :=
      begin_three (b := UInt8.ofNat (v / 4096 % 16 + 224)) (by omega) (by omega)
    rw [List.cons_append, scan_cons, step, hbegin, List.nil_append, List.cons_append, scan_cons,
      step_within (by rw [h₀] at hlow; split at hlow <;> omega)
        (by rw [h₀] at hhigh; split at hhigh <;> omega), if_neg (by omega), List.nil_append,
      List.singleton_append, scan_last (by omega) (by omega), h₀, h₁, h₂,
      show 64 * (64 * (v / 4096 % 16 + 224 - 224) + (v / 64 % 64 + 128 - 128)) +
        (v % 64 + 128 - 128) = v by omega, hc]
  · have h₀ := hbyte (v / 262144 % 8 + 240) (by omega)
    have h₁ := hbyte (v / 4096 % 64 + 128) (by omega)
    have h₂ := hbyte (v / 64 % 64 + 128) (by omega)
    have h₃ := hbyte (v % 64 + 128) (by omega)
    obtain ⟨low, high, hbegin, hlow, hhigh⟩ :=
      begin_four (b := UInt8.ofNat (v / 262144 % 8 + 240)) (by omega) (by omega)
    rw [List.cons_append, scan_cons, step, hbegin, List.nil_append, List.cons_append, scan_cons,
      step_within (by rw [h₀] at hlow; split at hlow <;> omega)
        (by rw [h₀] at hhigh; split at hhigh <;> omega), if_neg (by omega), List.nil_append,
      List.cons_append, scan_tail (by omega) (by omega) (by omega), List.singleton_append,
      scan_last (by omega) (by omega), h₀, h₁, h₂, h₃,
      show 64 * (64 * (64 * (v / 262144 % 8 + 240 - 240) + (v / 4096 % 64 + 128 - 128)) +
        (v / 64 % 64 + 128 - 128)) + (v % 64 + 128 - 128) = v by omega, hc]

theorem scan_chars (cs : List Char) :
    scan .idle (cs.flatMap String.utf8EncodeChar) = cs.map some := by
  induction cs with
  | nil => rfl
  | cons c cs ih => rw [List.flatMap_cons, scan_char, ih, List.map_cons]

theorem decode?_encode (s : String) : decode? (encode s) = some s := by
  have hchars : ∀ cs : List Char, (cs.map some).mapM id = some cs := fun cs => by
    induction cs with
    | nil => rfl
    | cons c cs ih => simp [ih]
  rw [decode?, chars?, encode, scan_chars, hchars, Option.map_some, String.ofList_toList]

theorem lossy_encode (s : String) : lossy (encode s) = s := by
  rw [lossy, encode, scan_chars, List.map_map,
    show (fun o : Option Char => o.getD '\uFFFD') ∘ some = id from rfl, List.map_id,
    String.ofList_toList]

theorem encode_injective : Function.Injective encode := fun s t h => by
  have := congrArg decode? h
  rwa [decode?_encode, decode?_encode, Option.some.injEq] at this

@[simp] theorem encode_inj {s t : String} : encode s = encode t ↔ s = t := encode_injective.eq_iff

theorem encode_append (s t : String) : encode (s ++ t) = encode s ++ encode t := by
  simp [encode]

theorem begin_ne_nil (b : UInt8) : (begin b).1 ≠ [] ∨ (begin b).2 ≠ .idle := by
  have hdone : ∀ c : Option Char, ([c], State.idle).1 ≠ [] ∨ ([c], State.idle).2 ≠ .idle :=
    fun c => .inl (List.cons_ne_nil c [])
  have hmore : ∀ left code low high, (([], .within left code low high) :
      List (Option Char) × State).1 ≠ [] ∨ State.within left code low high ≠ .idle :=
    fun _ _ _ _ => .inr nofun
  -- one bound of the table after the other
  have hite : ∀ {p : Prop} [Decidable p] {x y : List (Option Char) × State},
      x.1 ≠ [] ∨ x.2 ≠ .idle → y.1 ≠ [] ∨ y.2 ≠ .idle →
        (if p then x else y).1 ≠ [] ∨ (if p then x else y).2 ≠ .idle := by
    intro p _ x y hx hy
    by_cases hp : p
    · rwa [if_pos hp]
    · rwa [if_neg hp]
  exact hite (hdone _) <| hite (hdone _) <| hite (hmore ..) <| hite (hmore ..) <|
    hite (hmore ..) <| hite (hmore ..) <| hite (hmore ..) <| hite (hmore ..) <|
    hite (hmore ..) (hdone _)

theorem scan_ne_nil (s : State) (h : s ≠ .idle ∨ r ≠ []) : scan s r ≠ [] := by
  induction r generalizing s with
  | nil =>
    cases s with
    | idle => simp at h
    | within => simp [scan]
  | cons b r ih =>
    rw [scan_cons]
    by_cases hs : (step s b).2 = .idle
    · have hout : (step s b).1 ≠ [] := by
        cases s with
        | idle => exact (begin_ne_nil b).resolve_right (not_not_intro hs)
        | within left code low high =>
          revert hs
          simp only [step]
          split_ifs <;> simp
      simp [hout]
    · simp [ih _ (.inl hs)]

theorem lossy_eq_empty_iff (b : Bytes) : lossy b = "" ↔ b = [] := by
  constructor
  · intro h
    by_contra hb
    have hscan := scan_ne_nil .idle (.inr hb)
    have hlist := congrArg String.toList h
    simp [lossy, hscan] at hlist
  · rintro rfl
    rfl

/-! ### Bytes that are text -/

theorem begin_none (h : 0x80 ≤ b.toNat) (h' : b.toNat < 0xC2 ∨ 0xF4 < b.toNat) :
    begin b = ([none], .idle) := by
  have h₁ : ¬b.toNat < 128 := by omega
  rcases h' with h' | h'
  · simp [begin, UInt8.lt_iff_toNat_lt, h₁, h']
  · simp [begin, UInt8.lt_iff_toNat_lt, ← UInt8.toNat_inj, h₁, show ¬b.toNat < 194 by omega,
      show ¬b.toNat < 224 by omega, show b.toNat ≠ 224 by omega, show b.toNat ≠ 237 by omega,
      show ¬b.toNat < 240 by omega, show b.toNat ≠ 240 by omega, show ¬b.toNat < 244 by omega,
      show b.toNat ≠ 244 by omega]

theorem exists_cons_of_scan (h : none ∉ scan (.within left code low high) r) :
    ∃ y r', r = y :: r' ∧ low.toNat ≤ y.toNat ∧ y.toNat ≤ high.toNat ∧
      none ∉ (step (.within left code low high) y).1 ++
        scan (step (.within left code low high) y).2 r' := by
  cases r with
  | nil => simp [scan] at h
  | cons y r =>
    rw [scan_cons] at h
    by_cases hy : low ≤ y ∧ y ≤ high
    · exact ⟨y, r, rfl, UInt8.le_iff_toNat_le.1 hy.1, UInt8.le_iff_toNat_le.1 hy.2, h⟩
    · simp [step, hy] at h

theorem exists_tail (h : none ∉ scan (.within left code 0x80 0xBF) r) (hl : 1 < left) :
    ∃ y r', r = y :: r' ∧ 0x80 ≤ y.toNat ∧ y.toNat ≤ 0xBF ∧
      none ∉ scan (.within (left - 1) (64 * code + (y.toNat - 0x80)) 0x80 0xBF) r' := by
  obtain ⟨y, r', rfl, hlow, hhigh, h⟩ := exists_cons_of_scan h
  rw [step_within hlow hhigh, if_neg (by omega), List.nil_append] at h
  exact ⟨y, r', rfl, hlow, hhigh, h⟩

theorem exists_last (h : none ∉ scan (.within 1 code 0x80 0xBF) r) :
    ∃ y r', r = y :: r' ∧ 0x80 ≤ y.toNat ∧ y.toNat ≤ 0xBF := by
  obtain ⟨y, r', rfl, hlow, hhigh, -⟩ := exists_cons_of_scan h
  exact ⟨y, r', rfl, hlow, hhigh⟩

theorem toNat_ofNat {n : Nat} (h : n < 0xD800 ∨ 0xDFFF < n ∧ n < 0x110000) :
    (Char.ofNat n).val.toNat = n := by
  have hvalid : n.isValidChar := h
  rw [Char.ofNat, dif_pos hvalid]
  rfl

/-- Unbroken bytes begin with the bytes of a character. -/
theorem exists_char (h : none ∉ scan .idle (b :: r)) :
    ∃ c r', b :: r = String.utf8EncodeChar c ++ r' := by
  rw [scan_cons, step] at h
  have hbyte : ∀ (n : Nat) (x : UInt8), n = x.toNat → UInt8.ofNat n = x := fun n x hn => by
    rw [hn]; exact UInt8.ofNat_toNat
  by_cases h₁ : b.toNat < 0x80
  · refine ⟨Char.ofNat b.toNat, r, ?_⟩
    have hv := toNat_ofNat (n := b.toNat) (by omega)
    simp only [String.utf8EncodeChar, hv]
    rw [if_pos (by omega), hbyte _ b (by omega)]
    rfl
  by_cases h₂ : b.toNat < 0xC2 ∨ 0xF4 < b.toNat
  · rw [begin_none (by omega) h₂] at h
    simp at h
  by_cases h₃ : b.toNat < 0xE0
  · rw [begin_two (by omega) h₃, List.nil_append] at h
    obtain ⟨y, r', rfl, hy, hy'⟩ := exists_last h
    refine ⟨Char.ofNat (64 * (b.toNat - 0xC0) + (y.toNat - 0x80)), r', ?_⟩
    have hv := toNat_ofNat (n := 64 * (b.toNat - 0xC0) + (y.toNat - 0x80)) (by omega)
    simp only [String.utf8EncodeChar, hv]
    rw [if_neg (by omega), if_pos (by omega), hbyte _ b (by omega), hbyte _ y (by omega)]
    rfl
  by_cases h₄ : b.toNat < 0xF0
  · obtain ⟨low, high, hbegin, hlow, hhigh⟩ := begin_three (b := b) (by omega) h₄
    rw [hbegin, List.nil_append] at h
    obtain ⟨y, r', rfl, hy, hy', h⟩ := exists_cons_of_scan h
    rw [step_within hy hy', if_neg (by omega), List.nil_append] at h
    obtain ⟨z, r'', rfl, hz, hz'⟩ := exists_last h
    have hylow : 0x80 ≤ y.toNat := by split at hlow <;> omega
    have hyhigh : y.toNat ≤ 0xBF := by split at hhigh <;> omega
    have hlong : 0x800 ≤ 64 * (64 * (b.toNat - 0xE0) + (y.toNat - 0x80)) + (z.toNat - 0x80) := by
      split at hlow <;> omega
    have hvalid : 64 * (64 * (b.toNat - 0xE0) + (y.toNat - 0x80)) + (z.toNat - 0x80) < 0xD800 ∨
        0xDFFF < 64 * (64 * (b.toNat - 0xE0) + (y.toNat - 0x80)) + (z.toNat - 0x80) := by
      split at hhigh <;> omega
    refine ⟨Char.ofNat (64 * (64 * (b.toNat - 0xE0) + (y.toNat - 0x80)) + (z.toNat - 0x80)), r'', ?_⟩
    have hv := toNat_ofNat
      (n := 64 * (64 * (b.toNat - 0xE0) + (y.toNat - 0x80)) + (z.toNat - 0x80)) (by omega)
    simp only [String.utf8EncodeChar, hv]
    rw [if_neg (by omega), if_neg (by omega), if_pos (by omega), hbyte _ b (by omega),
      hbyte _ y (by omega), hbyte _ z (by omega)]
    rfl
  · obtain ⟨low, high, hbegin, hlow, hhigh⟩ := begin_four (b := b) (by omega) (by omega)
    rw [hbegin, List.nil_append] at h
    obtain ⟨y, r', rfl, hy, hy', h⟩ := exists_cons_of_scan h
    rw [step_within hy hy', if_neg (by omega), List.nil_append] at h
    obtain ⟨z, r'', rfl, hz, hz', h⟩ := exists_tail h (by omega)
    obtain ⟨u, rest, rfl, hu, hu'⟩ := exists_last h
    have hylow : 0x80 ≤ y.toNat := by split at hlow <;> omega
    have hyhigh : y.toNat ≤ 0xBF := by split at hhigh <;> omega
    generalize hcode : 64 * (64 * (64 * (b.toNat - 0xF0) + (y.toNat - 0x80)) + (z.toNat - 0x80)) +
      (u.toNat - 0x80) = code
    have hlong : 0x10000 ≤ code := by split at hlow <;> omega
    have hvalid : code < 0x110000 := by split at hhigh <;> omega
    refine ⟨Char.ofNat code, rest, ?_⟩
    have hv := toNat_ofNat (n := code) (by omega)
    simp only [String.utf8EncodeChar, hv]
    rw [if_neg (by omega), if_neg (by omega), if_neg (by omega), hbyte _ b (by omega),
      hbyte _ y (by omega), hbyte _ z (by omega), hbyte _ u (by omega)]
    rfl

/-- Unbroken bytes are the bytes of their text. -/
theorem encode_of_decode? {b : Bytes} {s : String} (h : decode? b = some s) : encode s = b := by
  have hwhole : ∀ n, ∀ b : Bytes, b.length ≤ n → none ∉ scan .idle b →
      ∃ cs : List Char, b = cs.flatMap String.utf8EncodeChar := by
    intro n
    induction n with
    | zero => exact fun b hb _ => ⟨[], by simpa using hb⟩
    | succ n ih =>
      intro b hb hnone
      cases b with
      | nil => exact ⟨[], rfl⟩
      | cons x r =>
        obtain ⟨c, r', hr⟩ := exists_char hnone
        have hshort : r'.length ≤ n := by
          have hlength := congrArg List.length hr
          have hpos : 0 < (String.utf8EncodeChar c).length := by
            simp only [String.utf8EncodeChar]
            split_ifs <;> simp
          simp only [List.length_cons, List.length_append] at hlength hb
          omega
        rw [hr, scan_char] at hnone
        obtain ⟨cs, hcs⟩ := ih r' hshort fun hc => hnone (List.mem_cons_of_mem _ hc)
        exact ⟨c :: cs, by rw [hr, hcs, List.flatMap_cons]⟩
  have hnone : none ∉ scan .idle b := by
    intro hc
    rw [decode?, chars?] at h
    have hfail : ∀ os : List (Option Char), none ∈ os → os.mapM id = none := by
      intro os hos
      induction os with
      | nil => simp at hos
      | cons o os ih =>
        cases o with
        | none => rfl
        | some c =>
          have hrest := ih (by simpa using hos)
          simp [hrest]
    simp [hfail _ hc] at h
  obtain ⟨cs, rfl⟩ := hwhole b.length b (Nat.le_refl _) hnone
  have hback : decode? (cs.flatMap String.utf8EncodeChar) = some (String.ofList cs) := by
    have := decode?_encode (String.ofList cs)
    rwa [encode, String.toList_ofList] at this
  rw [hback, Option.some.injEq] at h
  rw [← h, encode, String.toList_ofList]

theorem encode_lossy_eq_iff (b : Bytes) : encode (lossy b) = b ↔ (decode? b).isSome := by
  constructor
  · intro h
    rw [← h, decode?_encode]
    rfl
  · intro h
    obtain ⟨s, hs⟩ := Option.isSome_iff_exists.1 h
    rw [← encode_of_decode? hs, lossy_encode]

/-! ### Plain text -/

theorem encode_ascii (cs : List Char) (h : ∀ c ∈ cs, c.toNat < 0x80) :
    encode (String.ofList cs) = cs.map fun c => UInt8.ofNat c.toNat := by
  rw [encode, String.toList_ofList]
  induction cs with
  | nil => rfl
  | cons c cs ih =>
    have hc : c.val.toNat ≤ 0x7f := Nat.le_of_lt_succ (h c List.mem_cons_self)
    rw [List.flatMap_cons, ih fun d hd => h d (List.mem_cons_of_mem _ hd), String.utf8EncodeChar,
      if_pos hc]
    rfl

end Retrace.Utf8
