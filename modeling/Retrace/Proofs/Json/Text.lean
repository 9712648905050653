import Mathlib.Tactic.Common
import Retrace.Json.Printer
import Retrace.Json.Reader
import Retrace.Json.Number

/-!
Printed values read back. The text of a value without reals is cut into its tokens (`scan?_value`),
and those spell the value again (`ofText?_indented`).
-/
namespace Retrace.Json

/-! ### Integers -/

def Numeral.ofInt (n : Int) : Numeral where
  negative := n < 0
  whole := (Nat.toDigits 10 n.natAbs).map fun c => c.toNat - 48
  fraction := []
  power := none

namespace Numeral

variable {ds r : List Char}

theorem spanDigits_append (hd : ∀ c ∈ ds, c.isDigit = true) (hr : ∀ c ∈ r.head?, c.isDigit = false) :
    spanDigits (ds ++ r) = (ds.map fun c => c.toNat - 48, r) := by
  induction ds with
  | nil =>
    cases r with
    | nil => rfl
    | cons c r => simp [spanDigits, hr c (by simp)]
  | cons c ds ih =>
    have hrest := ih fun c hc => hd c (List.mem_cons_of_mem _ hc)
    simp only [spanDigits, Prod.mk.injEq] at hrest ⊢
    simp [hd c List.mem_cons_self, hrest.1, hrest.2]

theorem isDigit_of_mem_toDigits {n : Nat} {c : Char} (h : c ∈ Nat.toDigits 10 n) : c.isDigit = true :=
  Nat.isDigit_of_mem_toDigits (by omega) (by omega) h

theorem ofDigits_toDigits (n : Nat) :
    ofDigits ((Nat.toDigits 10 n).map fun c => c.toNat - 48) = n := by
  have h := Nat.ofDigitChars_ten_toDigits (n := n)
  rw [Nat.ofDigitChars_eq_foldl] at h
  rw [ofDigits, List.foldl_map]
  exact h

theorem toNat_digitChar : ∀ n < 10, (Nat.digitChar n).toNat - 48 = n := by decide

theorem head?_toDigits {n : Nat} (hn : 0 < n) :
    ((Nat.toDigits 10 n).map fun c => c.toNat - 48).head? ≠ some 0 := by
  induction n using Nat.strongRecOn with
  | ind n ih =>
    by_cases h : n < 10
    · rw [Nat.toDigits_of_lt_base h]
      simp [toNat_digitChar n h, Nat.ne_of_gt hn]
    · rw [Nat.toDigits_of_base_le (by omega) (by omega), List.map_append, List.head?_append]
      have hrest := ih (n / 10) (by omega) (by omega)
      cases hd : ((Nat.toDigits 10 (n / 10)).map fun c => c.toNat - 48).head? with
      | none => simp [Nat.toDigits_ne_nil] at hd
      | some d => simpa [hd] using hrest

theorem unsigned?_toDigits (negative : Bool) (n : Nat) : unsigned? negative (Nat.toDigits 10 n) =
    some ⟨negative, (Nat.toDigits 10 n).map fun c => c.toNat - 48, [], none⟩ := by
  have hspan := spanDigits_append (r := []) (fun c (h : c ∈ Nat.toDigits 10 n) => isDigit_of_mem_toDigits h)
    (by simp)
  rw [List.append_nil] at hspan
  have hlead : ((Nat.toDigits 10 n).map fun c => c.toNat - 48).head? = some 0 →
      ((Nat.toDigits 10 n).map fun c => c.toNat - 48).length = 1 := by
    intro h
    rcases Nat.eq_zero_or_pos n with rfl | hn
    · simp [Nat.toDigits_zero]
    · exact absurd h (head?_toDigits hn)
  have hne : (Nat.toDigits 10 n).map (fun c => c.toNat - 48) ≠ [] := by
    simp [Nat.toDigits_ne_nil]
  rw [unsigned?, hspan]
  dsimp only
  rw [guard, if_pos ⟨hne, hlead⟩]
  rfl

theorem toList_toString (n : Int) : (toString n).toList =
    if n < 0 then '-' :: Nat.toDigits 10 n.natAbs else Nat.toDigits 10 n.natAbs := by
  cases n with
  | ofNat n =>
    rw [if_neg (by simp)]
    exact Nat.toList_repr
  | negSucc n =>
    rw [if_pos (Int.negSucc_lt_zero n)]
    change ("-" ++ (n + 1).repr).toList = _
    rw [String.toList_append, Nat.toList_repr]
    rfl

theorem ofChars?_toString (n : Int) : ofChars? (toString n).toList = some (ofInt n) := by
  rw [toList_toString]
  split
  · next h => rw [ofChars?, unsigned?_toDigits, ofInt, decide_eq_true h]
  · next h =>
    have hminus : ∀ r, Nat.toDigits 10 n.natAbs ≠ '-' :: r := fun r hc => by
      have := isDigit_of_mem_toDigits (hc ▸ List.mem_cons_self : '-' ∈ Nat.toDigits 10 n.natAbs)
      exact absurd this (by decide)
    rw [ofChars?, unsigned?_toDigits, ofInt, decide_eq_false h]
    exact hminus

theorem number?_ofInt (n : Integer) : (ofInt n.value).number? = some (.integer n) := by
  obtain ⟨n, hn⟩ := n
  have hinteger : Integer.ofInt? n = some ⟨n, hn⟩ := dif_pos hn
  simp only [number?, ofInt, ofDigits_toDigits, true_and, if_true, decide_eq_true_eq]
  by_cases h : n < 0
  · have habs : -(n.natAbs : Int) = n := by omega
    rw [if_pos h, if_neg (by omega), habs, hinteger]
    rfl
  · have habs : (n.natAbs : Int) = n := by omega
    rw [if_neg h, habs, hinteger]
    rfl

end Numeral

/-! ### Strings -/

open Lexer Token

variable {found : List Token} {read : List Unit16} {r : List Char}

def Unit16.ofChar (c : Char) : Unit16 :=
  if (Printer.escapeChar c).length = 6 then .code c.toNat else .char c

theorem hexDigit?_hexDigit : ∀ n < 16, Bytes.hexDigit? (Bytes.hexDigit n) = some n := by decide

theorem scan?_cons {s : Lexer.State} (z : Lexer.State) {c : Char}
    (h : Lexer.step? s c = some ([], z)) : scan? s found (c :: r) = scan? z found r := by
  simp [scan?, h]

theorem scan?_unicode {n : Nat} (hn : n < 0x20) :
    scan? (.quoted read) found
        (['\\', 'u', '0', '0', Bytes.hexDigit (n / 16), Bytes.hexDigit (n % 16)] ++ r) =
      scan? (.quoted (.code n :: read)) found r := by
  have hhigh := hexDigit?_hexDigit (n / 16) (by omega)
  have hlow := hexDigit?_hexDigit (n % 16) (by omega)
  have hfirst : Lexer.step? (.unicode read 2 0) (Bytes.hexDigit (n / 16)) =
      some ([], .unicode read 1 (n / 16)) := by
    simp [Lexer.step?, hhigh]
  have hsecond : Lexer.step? (.unicode read 1 (n / 16)) (Bytes.hexDigit (n % 16)) =
      some ([], .quoted (.code n :: read)) := by
    simp [Lexer.step?, hlow, Nat.div_add_mod]
  simp only [List.cons_append, List.nil_append]
  rw [scan?_cons (.escaped read) rfl, scan?_cons (.unicode read 4 0) rfl,
    scan?_cons (.unicode read 3 0) rfl, scan?_cons (.unicode read 2 0) rfl,
    scan?_cons _ hfirst, scan?_cons _ hsecond]

theorem scan?_escapeChar (c : Char) :
    scan? (.quoted read) found (Printer.escapeChar c ++ r) =
      scan? (.quoted (Unit16.ofChar c :: read)) found r := by
  have hshort : ∀ e : Char, Unit16.ofEscape? e = some c → e ≠ 'u' →
      scan? (.quoted read) found (['\\', e] ++ r) = scan? (.quoted (.char c :: read)) found r := by
    intro e he hu
    simp only [List.cons_append, List.nil_append]
    rw [scan?_cons (.escaped read) rfl, scan?_cons (.quoted (.char c :: read))]
    simp [Lexer.step?, hu, he]
  rw [Unit16.ofChar]
  by_cases h₁ : c = '"'
  · subst h₁; exact hshort _ rfl (by decide)
  by_cases h₂ : c = '\\'
  · subst h₂; exact hshort _ rfl (by decide)
  by_cases h₃ : c = '\x08'
  · subst h₃; exact hshort _ rfl (by decide)
  by_cases h₄ : c = '\x0c'
  · subst h₄; exact hshort _ rfl (by decide)
  by_cases h₅ : c = '\n'
  · subst h₅; exact hshort _ rfl (by decide)
  by_cases h₆ : c = '\r'
  · subst h₆; exact hshort _ rfl (by decide)
  by_cases h₇ : c = '\t'
  · subst h₇; exact hshort _ rfl (by decide)
  simp only [Printer.escapeChar, h₁, h₂, h₃, h₄, h₅, h₆, h₇, if_false]
  by_cases h : c.toNat < 0x20
  · simp only [h, if_true]
    exact scan?_unicode h
  · simp only [h, if_false]
    rw [List.singleton_append, scan?_cons (.quoted (.char c :: read))]
    · rfl
    · simp [Lexer.step?, h₁, h₂, h]

theorem ofChar_eq (c : Char) :
    Unit16.ofChar c = .char c ∨ Unit16.ofChar c = .code c.toNat ∧ c.toNat < 0x20 := by
  rw [Unit16.ofChar]
  split
  · next h =>
    refine .inr ⟨rfl, ?_⟩
    simp only [Printer.escapeChar] at h
    split_ifs at h with h₁ h₂ h₃ h₄ h₅ h₆ h₇ h₈
    all_goals first | exact h₈ | simp at h
  · exact .inl rfl

theorem chars?_ofChar (cs : List Char) : Unit16.chars? (cs.map Unit16.ofChar) = some cs := by
  induction cs with
  | nil => rw [List.map_nil, Unit16.chars?]
  | cons c cs ih =>
    rw [List.map_cons]
    rcases ofChar_eq c with h | ⟨h, hsmall⟩
    · rw [h, Unit16.chars?, ih]
      rfl
    · have hhigh : Unit16.isHigh c.toNat = false := by simp [Unit16.isHigh]; omega
      have hlow : Unit16.isLow c.toNat = false := by simp [Unit16.isLow]; omega
      rw [h]
      cases hrest : cs.map Unit16.ofChar with
      | nil =>
        rw [hrest] at ih
        simp [Unit16.chars?, hhigh, hlow, ih]
      | cons u us =>
        rw [hrest] at ih
        cases u with
        | char e => simp [Unit16.chars?, hhigh, hlow, ih]
        | code e => simp [Unit16.chars?, hhigh, hlow, ih]

theorem scan?_chars (cs : List Char) :
    scan? (.quoted read) found (cs.flatMap Printer.escapeChar ++ r) =
      scan? (.quoted ((cs.map Unit16.ofChar).reverse ++ read)) found r := by
  induction cs generalizing read with
  | nil => rfl
  | cons c cs ih =>
    rw [List.flatMap_cons, List.append_assoc, scan?_escapeChar, ih]
    simp

theorem scan?_quote (s : String) :
    scan? .between found (Printer.quote s ++ r) = scan? .between (.string (some s) :: found) r := by
  rw [Printer.quote, List.append_assoc, List.cons_append, scan?_cons (.quoted []) rfl, scan?_chars]
  have hend : Lexer.step? (.quoted ((s.toList.map Unit16.ofChar).reverse ++ [])) '"' =
      some ([.string (some s)], .between) := by
    simp [Lexer.step?, stringOf, chars?_ofChar]
  rw [List.singleton_append, scan?, hend]
  rfl

/-! ### Tokens -/

/-- What may follow a word or a numeral. -/
def Ends (r : List Char) : Prop := ∀ c ∈ r.head?, isLetter c = false ∧ isNumeral c = false

theorem scan?_finish {s : Lexer.State} {t : Token} (ht : finish? s = some [t]) (hr : Ends r)
    (hs : ∀ c, isLetter c = false → isNumeral c = false → Lexer.step? s c = close? s c) :
    scan? s found r = scan? .between (t :: found) r := by
  cases r with
  | nil =>
    have hend : finish? .between = some [] := rfl
    simp [scan?, ht, hend]
  | cons c r =>
    obtain ⟨hletter, hnumeral⟩ := hr c (by simp)
    have hstep := hs c hletter hnumeral
    rw [close?, ht] at hstep
    have hbetween : Lexer.step? .between c = Lexer.start? c := rfl
    cases hc : Lexer.start? c with
    | none => simp [scan?, hstep, hbetween, hc]
    | some x => simp [scan?, hstep, hbetween, hc]

theorem scan?_digits {ds read : List Char} (hd : ∀ c ∈ ds, isNumeral c = true) :
    scan? (.numeral read) found (ds ++ r) = scan? (.numeral (ds.reverse ++ read)) found r := by
  induction ds generalizing read with
  | nil => rfl
  | cons c ds ih =>
    rw [List.cons_append, scan?_cons (.numeral (c :: read)), ih fun c hc => hd c (List.mem_cons_of_mem _ hc)]
    · simp
    · simp [Lexer.step?, hd c List.mem_cons_self]

theorem scan?_integer (n : Int) (hr : Ends r) :
    scan? .between found ((toString n).toList ++ r) =
      scan? .between (.numeral (Numeral.ofInt n) :: found) r := by
  have hall : ∀ c ∈ (toString n).toList, c = '-' ∨ c.isDigit = true := by
    intro c hc
    rw [Numeral.toList_toString] at hc
    split at hc
    · rcases List.mem_cons.1 hc with rfl | hc
      · exact .inl rfl
      · exact .inr (Numeral.isDigit_of_mem_toDigits hc)
    · exact .inr (Numeral.isDigit_of_mem_toDigits hc)
  have hnumeral : ∀ c ∈ (toString n).toList, isNumeral c = true := fun c hc => by
    rcases hall c hc with rfl | h
    · rfl
    · simp [isNumeral, h]
  cases hds : (toString n).toList with
  | nil =>
    rw [Numeral.toList_toString] at hds
    split at hds
    · cases hds
    · exact absurd hds Nat.toDigits_ne_nil
  | cons c ds =>
    have hfirst : Lexer.step? .between c = some ([], .numeral [c]) := by
      rcases hall c (hds ▸ List.mem_cons_self) with rfl | hc
      · rfl
      · have hne : ∀ e : Char, e.isDigit = false → c ≠ e := by
          rintro e he rfl
          rw [hc] at he
          cases he
        simp [Lexer.step?, Lexer.start?, isBlank, hc, hne ' ' rfl, hne '\t' rfl, hne '\n' rfl,
          hne '\r' rfl, hne '"' rfl]
    rw [List.cons_append, scan?_cons _ hfirst,
      scan?_digits fun c hc => hnumeral c (hds ▸ List.mem_cons_of_mem _ hc)]
    refine scan?_finish ?_ hr fun c _ h => by simp [Lexer.step?, h]
    have := Numeral.ofChars?_toString n
    rw [hds] at this
    simp [finish?, this]

theorem scan?_newline (n : Nat) :
    scan? .between found (Printer.indented.newline n ++ r) = scan? .between found r := by
  have hblanks : ∀ k, scan? .between found (List.replicate k ' ' ++ r) = scan? .between found r := by
    intro k
    induction k with
    | zero => rfl
    | succ k ih => rw [List.replicate_succ, List.cons_append, scan?_cons .between rfl, ih]
  change scan? .between found ('\n' :: (List.replicate (2 * n) ' ' ++ r)) = _
  rw [scan?_cons .between rfl, hblanks]

/-! ### Values -/

mutual

def isExact : Json → Bool
  | .null | .bool _ | .string _ | .number (.integer _) => true
  | .number (.real _) => false
  | .array xs => areExact xs
  | .object fs => fieldsAreExact fs

def areExact : List Json → Bool
  | [] => true
  | x :: xs => isExact x && areExact xs

def fieldsAreExact : List (String × Json) → Bool
  | [] => true
  | (_, x) :: fs => isExact x && fieldsAreExact fs

end

mutual

/-- The tokens that a value without reals is printed as. -/
def tokens : Json → List Token
  | .null | .number (.real _) => [.null]
  | .bool b => [.bool b]
  | .number (.integer n) => [.numeral (.ofInt n.value)]
  | .string s => [.string (some s)]
  | .array [] => [.openArray, .closeArray]
  | .array (x :: xs) => .openArray :: (tokens x ++ (itemTokens xs ++ [.closeArray]))
  | .object [] => [.openObject, .closeObject]
  | .object ((k, x) :: fs) =>
    .openObject :: .string (some k) :: .colon :: (tokens x ++ (fieldTokens fs ++ [.closeObject]))

def itemTokens : List Json → List Token
  | [] => []
  | x :: xs => .comma :: (tokens x ++ itemTokens xs)

def fieldTokens : List (String × Json) → List Token
  | [] => []
  | (k, x) :: fs => .comma :: .string (some k) :: .colon :: (tokens x ++ fieldTokens fs)

end

theorem ends_newline (n : Nat) : Ends (Printer.indented.newline n ++ r) := by
  intro c hc
  obtain rfl : '\n' = c := by simpa [Printer.indented] using hc
  exact ⟨rfl, rfl⟩

theorem ends_cons {c : Char} (h : isLetter c = false) (h' : isNumeral c = false) : Ends (c :: r) := by
  intro e he
  obtain rfl : c = e := by simpa using he
  exact ⟨h, h'⟩

theorem scan?_punctuation {c : Char} {t : Token} (h : Lexer.start? c = some ([t], .between)) :
    scan? .between found (c :: r) = scan? .between (t :: found) r := by
  have hstep : Lexer.step? .between c = some ([t], .between) := h
  simp [scan?, hstep]

theorem scan?_word {c : Char} {cs : List Char} {t : Token} (hc : Lexer.start? c = some ([], .word [c]))
    (hcs : cs.all isLetter = true) (ht : keyword? (c :: cs) = some t) (hr : Ends r) :
    scan? .between found (c :: cs ++ r) = scan? .between (t :: found) r := by
  have hletters : ∀ read : List Char, ∀ es : List Char, (∀ e ∈ es, isLetter e = true) →
      scan? (.word read) found (es ++ r) = scan? (.word (es.reverse ++ read)) found r := by
    intro read es hes
    induction es generalizing read with
    | nil => rfl
    | cons e es ih =>
      rw [List.cons_append, scan?_cons (.word (e :: read)),
        ih _ fun e he => hes e (List.mem_cons_of_mem _ he)]
      · simp
      · simp [Lexer.step?, hes e List.mem_cons_self]
  have hstep : Lexer.step? .between c = some ([], .word [c]) := hc
  rw [List.cons_append, scan?_cons _ hstep, hletters _ _ (List.all_eq_true.1 hcs)]
  exact scan?_finish (by simp [finish?, ht]) hr fun e he _ => by simp [Lexer.step?, he]

theorem ends_items (xs : List Json) (n : Nat) (hr : Ends r) :
    Ends (Printer.items Printer.indented n xs ++ r) := by
  cases xs with
  | nil => exact hr
  | cons x xs => exact ends_cons rfl rfl

theorem ends_fields (fs : List (String × Json)) (n : Nat) (hr : Ends r) :
    Ends (Printer.fields Printer.indented n fs ++ r) := by
  cases fs with
  | nil => exact hr
  | cons f fs => exact ends_cons rfl rfl

theorem scan?_colon :
    scan? .between found (Printer.indented.colon ++ r) = scan? .between (.colon :: found) r := by
  change scan? .between found (':' :: ' ' :: r) = _
  rw [scan?_punctuation rfl, scan?_cons .between rfl]

mutual

/-- A printed value is cut into its tokens. -/
theorem scan?_value (j : Json) (hj : isExact j = true) (n : Nat) (found : List Token) (r : List Char)
    (hr : Ends r) :
    scan? .between found (Printer.value Printer.indented n j ++ r) =
      scan? .between ((tokens j).reverse ++ found) r := by
  match j with
  | .null => exact scan?_word rfl rfl rfl hr
  | .bool true => exact scan?_word rfl rfl rfl hr
  | .bool false => exact scan?_word rfl rfl rfl hr
  | .number (.integer m) =>
    rw [Printer.value, Printer.number, scan?_integer m.value hr]
    rfl
  | .number (.real x) => cases hj
  | .string s =>
    rw [Printer.value, scan?_quote]
    rfl
  | .array [] =>
    rw [Printer.value, List.cons_append, List.singleton_append, scan?_punctuation rfl,
      scan?_punctuation rfl]
    rfl
  | .array (x :: xs) =>
    simp only [isExact, areExact, Bool.and_eq_true] at hj
    simp only [Printer.value, List.append_assoc, List.cons_append, List.nil_append]
    rw [scan?_punctuation rfl, scan?_newline,
      scan?_value x hj.1 _ _ _ (ends_items xs _ (ends_newline n)),
      scan?_items xs hj.2 _ _ _ (ends_newline n), scan?_newline, scan?_punctuation rfl]
    simp [tokens]
  | .object [] =>
    rw [Printer.value, List.cons_append, List.singleton_append, scan?_punctuation rfl,
      scan?_punctuation rfl]
    rfl
  | .object ((k, x) :: fs) =>
    simp only [isExact, fieldsAreExact, Bool.and_eq_true] at hj
    simp only [Printer.value, List.append_assoc, List.cons_append, List.nil_append]
    rw [scan?_punctuation rfl, scan?_newline, scan?_quote, scan?_colon,
      scan?_value x hj.1 _ _ _ (ends_fields fs _ (ends_newline n)),
      scan?_fields fs hj.2 _ _ _ (ends_newline n), scan?_newline, scan?_punctuation rfl]
    simp [tokens]

theorem scan?_items (xs : List Json) (hxs : areExact xs = true) (n : Nat) (found : List Token)
    (r : List Char) (hr : Ends r) :
    scan? .between found (Printer.items Printer.indented n xs ++ r) =
      scan? .between ((itemTokens xs).reverse ++ found) r := by
  match xs with
  | [] => rfl
  | x :: xs =>
    simp only [areExact, Bool.and_eq_true] at hxs
    simp only [Printer.items, List.append_assoc, List.cons_append]
    rw [scan?_punctuation rfl, scan?_newline, scan?_value x hxs.1 _ _ _ (ends_items xs _ hr),
      scan?_items xs hxs.2 _ _ _ hr]
    simp [itemTokens]

theorem scan?_fields (fs : List (String × Json)) (hfs : fieldsAreExact fs = true) (n : Nat)
    (found : List Token) (r : List Char) (hr : Ends r) :
    scan? .between found (Printer.fields Printer.indented n fs ++ r) =
      scan? .between ((fieldTokens fs).reverse ++ found) r := by
  match fs with
  | [] => rfl
  | (k, x) :: fs =>
    simp only [fieldsAreExact, Bool.and_eq_true] at hfs
    simp only [Printer.fields, List.append_assoc, List.cons_append]
    rw [scan?_punctuation rfl, scan?_newline, scan?_quote, scan?_colon,
      scan?_value x hfs.1 _ _ _ (ends_fields fs _ hr), scan?_fields fs hfs.2 _ _ _ hr]
    simp [fieldTokens]

end

/-! ### Documents -/

mutual

def written : Json → Written
  | .null | .number (.real _) => .null
  | .bool b => .bool b
  | .number (.integer n) => .numeral (.ofInt n.value)
  | .string s => .string (some s)
  | .array xs => .array (writtenItems xs)
  | .object fs => .object (writtenFields fs)

def writtenItems : List Json → List Written
  | [] => []
  | x :: xs => written x :: writtenItems xs

def writtenFields : List (String × Json) → List (Option String × Written)
  | [] => []
  | (k, x) :: fs => (some k, written x) :: writtenFields fs

end

section Reader

open Reader

variable {above : List Frame} {ts : List Token}

theorem run?_cons {s z : Reader.State} {t : Token} (h : Reader.step? s t = some z) :
    run? s (t :: ts) = run? z ts := by
  simp [run?, h]

mutual

/-- The tokens of a value hand that value on, wherever one may start. -/
theorem run?_value (j : Json) (s : Reader.State) (above : List Frame) (ts : List Token)
    (hs : ∀ t, t ≠ .closeArray → Reader.step? s t = Reader.start? above t) :
    run? s (tokens j ++ ts) = run? (put (written j) above) ts := by
  match j with
  | .null | .number (.real _) | .bool b | .number (.integer n) | .string x =>
    exact run?_cons (hs _ (by simp))
  | .array [] =>
    exact (run?_cons (hs _ (by simp))).trans (run?_cons rfl)
  | .array (x :: xs) =>
    simp only [tokens, List.cons_append, List.append_assoc, List.nil_append]
    rw [run?_cons (hs .openArray (by simp)), run?_value x _ (.array [] :: above) _ ?_]
    · rw [put, run?_items xs, run?_cons rfl, List.reverse_append]
      simp [written, writtenItems]
    · intro t ht
      cases t <;> first | rfl | exact absurd rfl ht
  | .object [] =>
    exact (run?_cons (hs _ (by simp))).trans (run?_cons rfl)
  | .object ((k, x) :: fs) =>
    simp only [tokens, List.cons_append, List.append_assoc, List.nil_append]
    rw [run?_cons (hs .openObject (by simp)), run?_cons rfl, run?_cons rfl,
      run?_value x _ _ _ fun _ _ => rfl, put, run?_fields fs, run?_cons rfl, List.reverse_append]
    simp [written, writtenFields]

theorem run?_items (xs : List Json) (done : List Written) (above : List Frame) (ts : List Token) :
    run? (.afterItem done above) (itemTokens xs ++ ts) =
      run? (.afterItem ((writtenItems xs).reverse ++ done) above) ts := by
  match xs with
  | [] => rfl
  | x :: xs =>
    simp only [itemTokens, List.cons_append, List.append_assoc]
    rw [run?_cons rfl, run?_value x _ _ _ fun _ _ => rfl, put, run?_items xs]
    simp [writtenItems]

theorem run?_fields (fs : List (String × Json)) (done : List (Option String × Written))
    (above : List Frame) (ts : List Token) :
    run? (.afterField done above) (fieldTokens fs ++ ts) =
      run? (.afterField ((writtenFields fs).reverse ++ done) above) ts := by
  match fs with
  | [] => rfl
  | (k, x) :: fs =>
    simp only [fieldTokens, List.cons_append, List.append_assoc]
    rw [run?_cons rfl, run?_cons rfl, run?_cons rfl, run?_value x _ _ _ fun _ _ => rfl, put,
      run?_fields fs]
    simp [writtenFields]

end

end Reader

/-- The text of a value without reals spells that value. -/
theorem ofText?_indented {j : Json} (hj : isExact j = true) :
    Written.ofText? j.indented = some (written j) := by
  have hscan := scan?_value j hj 0 [] [] (by simp [Ends])
  have hend : scan? .between ((tokens j).reverse ++ []) [] = some (tokens j) := by
    simp [scan?, finish?]
  rw [hend, List.append_nil] at hscan
  have hrun := run?_value j (.value []) [] [] fun _ _ => rfl
  rw [List.append_nil] at hrun
  simp only [Written.ofText?, Token.ofText?, indented, String.toList_ofList, hscan, Option.bind_eq_bind,
    Option.bind_some, hrun]
  rfl

end Retrace.Json
