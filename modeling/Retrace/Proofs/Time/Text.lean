import Mathlib.Data.List.Induction
import Mathlib.Data.List.TakeWhile
import Mathlib.Tactic.Ring
import Retrace.Proofs.Time.Calendar
import Retrace.Time.Reader

/-!
Points in time come back from their texts (`ofText?_toText`), and what is read is a point in time
(`regular_of_ofText?`).
-/
namespace Retrace.Instant

open Text (zeroPadded skipBlanks isBlank)
open Reader

/-! ### Numbers at a fixed width -/

def padded (w n : Nat) : List Char :=
  List.replicate (w - (Nat.toDigits 10 n).length) '0' ++ Nat.toDigits 10 n

variable {w n least greatest : Nat} {r : List Char} {c : Char}

theorem toList_zeroPadded (w n : Nat) : (zeroPadded w n).toList = padded w n := by
  simp [zeroPadded, padded, ← Nat.toList_repr, String.length_toList]

theorem isDigit_of_mem_padded (h : c ∈ padded w n) : c.isDigit = true := by
  rcases List.mem_append.1 h with h | h
  · rw [List.eq_of_mem_replicate h]; rfl
  · exact Nat.isDigit_of_mem_toDigits (by omega) (by omega) h

theorem toNat_of_isDigit (h : c.isDigit = true) : 48 ≤ c.toNat ∧ c.toNat ≤ 57 := by
  simpa [Char.isDigit, UInt32.le_iff_toNat_le] using h

theorem isBlank_of_isDigit (h : c.isDigit = true) : isBlank c = false := by
  have := toNat_of_isDigit h
  simp only [isBlank, Bool.or_eq_false_iff, Bool.and_eq_false_iff, decide_eq_false_iff_not,
    beq_eq_false_iff_ne]
  omega

theorem padded_ne_nil (w n : Nat) : padded w n ≠ [] := by
  simp [padded, Nat.toDigits_ne_nil]

theorem length_padded (hw : 0 < w) (hn : n < 10 ^ w) : (padded w n).length = w := by
  have := (Nat.length_toDigits_le_iff (b := 10) (by omega) hw).2 hn
  simp only [padded, List.length_append, List.length_replicate]
  omega

theorem ofDigits_padded (w n : Nat) : ofDigits (padded w n) = n := by
  have hzeros : ∀ k, (List.replicate k '0').foldl (fun n c => 10 * n + (c.toNat - 48)) 0 = 0 := by
    intro k
    induction k with
    | zero => rfl
    | succ k ih => rw [List.replicate_succ, List.foldl_cons]; exact ih
  have h := Nat.ofDigitChars_ten_toDigits (n := n)
  rw [Nat.ofDigitChars_eq_foldl] at h
  rw [ofDigits, padded, List.foldl_append, hzeros]
  exact h

theorem takeWhile_padded (hr : ∀ c ∈ r.head?, c.isDigit = false) :
    (padded w n ++ r).takeWhile Char.isDigit = padded w n := by
  rw [List.takeWhile_append_of_pos fun c hc => isDigit_of_mem_padded hc]
  cases r with
  | nil => simp
  | cons c r => simp [hr c (by simp)]

theorem number?_padded (hw : 0 < w) (hn : n < 10 ^ w) :
    number? w (padded w n ++ r) = some (n, r) := by
  have hlen := length_padded hw hn
  have htake : (padded w n ++ r).take w = padded w n := by
    rw [List.take_append_of_le_length (by omega), List.take_of_length_le (by omega)]
  have hall := takeWhile_padded (w := w) (n := n) (r := []) (by simp)
  rw [List.append_nil] at hall
  simp only [number?, htake, hall, padded_ne_nil, if_false, ofDigits_padded, List.drop_left]

theorem number?_padded_of_head (hr : ∀ c ∈ r.head?, c.isDigit = false) :
    number? (padded w n ++ r).length (padded w n ++ r) = some (n, r) := by
  simp only [number?, List.take_length, takeWhile_padded hr, padded_ne_nil, if_false, ofDigits_padded,
    List.drop_left]

theorem exists_padded (w n : Nat) (r : List Char) :
    ∃ c cs, padded w n ++ r = c :: cs ∧ c.isDigit = true := by
  obtain ⟨c, cs, h⟩ := List.exists_cons_of_ne_nil (padded_ne_nil w n)
  exact ⟨c, cs ++ r, by rw [h]; rfl, isDigit_of_mem_padded (h ▸ List.mem_cons_self)⟩

theorem skipBlanks_padded (w n : Nat) (r : List Char) :
    skipBlanks (padded w n ++ r) = padded w n ++ r := by
  obtain ⟨c, cs, h, hc⟩ := exists_padded w n r
  rw [h, skipBlanks, List.dropWhile_cons_of_neg (by simp [isBlank_of_isDigit hc])]

theorem field?_padded (hl : least ≤ n) (hg : n ≤ greatest) (hn : n < 100) :
    field? least greatest (padded 2 n ++ r) = some (n, r) := by
  have hread : number? 2 (padded 2 n ++ r) = some (n, r) := number?_padded (by omega) hn
  simp [field?, skipBlanks_padded, hread, hl, hg]

theorem mark?_cons (hc : isBlank c = false) : mark? c (c :: r) = some r := by
  simp [mark?, skipBlanks, hc]

/-! ### Dates and times of day -/

theorem year?_yearText (y : Int) (hr : ∀ c ∈ r.head?, c.isDigit = false) :
    year? ((yearText y).toList ++ r) = some (y, r) := by
  rw [yearText]
  split
  · next h =>
    have hn : y.toNat < 10 ^ 4 := by omega
    obtain ⟨c, cs, hcs, hc⟩ := exists_padded 4 y.toNat r
    have hminus : c ≠ '-' := by rintro rfl; cases hc
    have hplus : c ≠ '+' := by rintro rfl; cases hc
    have hnumber := number?_padded (w := 4) (r := r) (by omega) hn
    rw [toList_zeroPadded, year?, skipBlanks_padded]
    rw [hcs] at hnumber ⊢
    split
    · next heq => exact absurd (List.cons.inj heq).1 hminus
    · next heq => exact absurd (List.cons.inj heq).1 hplus
    · simp only [hnumber, Option.map_some, Option.some.injEq, Prod.mk.injEq, and_true]
      omega
  · next h =>
    have hnumber := number?_padded_of_head (w := 4) (n := y.natAbs) hr
    split
    · next hneg =>
      have : ("-" ++ zeroPadded 4 y.natAbs).toList ++ r = '-' :: (padded 4 y.natAbs ++ r) := by
        rw [String.toList_append, toList_zeroPadded]; rfl
      rw [this, year?]
      change ((number? _ _).map _) = _
      rw [hnumber, Option.map_some, Option.some.injEq, Prod.mk.injEq]
      exact ⟨by omega, rfl⟩
    · next hneg =>
      have : ("+" ++ zeroPadded 4 y.natAbs).toList ++ r = '+' :: (padded 4 y.natAbs ++ r) := by
        rw [String.toList_append, toList_zeroPadded]; rfl
      rw [this, year?]
      change ((number? _ _).map _) = _
      rw [hnumber, Option.map_some, Option.some.injEq, Prod.mk.injEq]
      exact ⟨by omega, rfl⟩

theorem date?_dateText {d : Date} (hd : d.isValid = true) :
    date? ((dateText d).toList ++ r) = some (d, r) := by
  have hbounds : (1 ≤ d.month ∧ d.month ≤ 12) ∧ 1 ≤ d.day ∧ d.day ≤ 31 := by
    have h31 : Date.daysInMonth d.year d.month ≤ 31 := by
      rw [Date.daysInMonth]; split
      · split <;> omega
      · split <;> omega
    simp only [Date.isValid, Bool.and_eq_true, decide_eq_true_eq] at hd
    omega
  have htext : (dateText d).toList ++ r = (yearText d.year).toList ++
      ('-' :: (padded 2 d.month ++ ('-' :: (padded 2 d.day ++ r)))) := by
    simp [dateText, toList_zeroPadded]
  have hminus : isBlank '-' = false := by decide
  rw [htext, date?, year?_yearText d.year (by intro c hc; cases hc; rfl)]
  simp only [Option.bind_eq_bind, Option.bind_some, mark?_cons hminus,
    field?_padded hbounds.1.1 hbounds.1.2 (show d.month < 100 by omega),
    field?_padded hbounds.2.1 hbounds.2.2 (show d.day < 100 by omega), hd, if_true]
  rfl

theorem fraction?_fractionText {c : Char} {cs : List Char} (hn : n < 1000000000)
    (hc : c.isDigit = false) (hpoint : c ≠ '.') :
    fraction? ((fractionText n).toList ++ c :: cs) = some (n, c :: cs) := by
  have hparts : ∀ w k, 0 < w → w ≤ 9 → k < 10 ^ w → k * 10 ^ (9 - w) = n →
      fraction? (("." ++ zeroPadded w k).toList ++ c :: cs) = some (n, c :: cs) := by
    intro w k hw hw' hk hkn
    have htext : ("." ++ zeroPadded w k).toList ++ c :: cs =
        '.' :: (padded w k ++ c :: cs) := by
      rw [String.toList_append, toList_zeroPadded]; rfl
    have htake : (padded w k).take 9 = padded w k :=
      List.take_of_length_le (by rw [length_padded hw hk]; exact hw')
    rw [htext, fraction?, takeWhile_padded (by intro x hx; cases hx; exact hc)]
    simp only [padded_ne_nil, if_false, htake, ofDigits_padded, length_padded hw hk]
    rw [show Nat.pow 10 (9 - w) = 10 ^ (9 - w) from rfl, hkn, List.drop_left' (length_padded hw hk)]
  rw [fractionText]
  split
  · next h =>
    rw [h]
    change fraction? (c :: cs) = _
    rw [fraction?]
    intro cs' heq
    exact hpoint (List.cons.inj heq).1
  · split
    · exact hparts 3 _ (by omega) (by omega) (by omega) (by omega)
    · split
      · exact hparts 6 _ (by omega) (by omega) (by omega) (by omega)
      · exact hparts 9 _ (by omega) (by omega) (by omega) (by omega)

/-- An instant in a year that can be represented; a leap second follows the last second of a
minute. -/
structure Regular (t : Instant) : Prop where
  inRange : t.inRange = true
  nanos : t.nanos < 2000000000
  leap : 1000000000 ≤ t.nanos → t.seconds % 60 = 59

instance (t : Instant) : Decidable t.Regular :=
  decidable_of_iff
    (t.inRange = true ∧ t.nanos < 2000000000 ∧ (1000000000 ≤ t.nanos → t.seconds % 60 = 59))
    ⟨fun h => ⟨h.1, h.2.1, h.2.2⟩, fun h => ⟨h.1, h.2, h.3⟩⟩

theorem clock?_clockText {t : Instant} {c : Char} {cs : List Char} (ht : t.Regular)
    (hc : c.isDigit = false) (hpoint : c ≠ '.') :
    clock? (t.clockText.toList ++ ((fractionText (t.nanos % 1000000000)).toList ++ c :: cs)) =
      some ((t.seconds % 86400).toNat, t.nanos, c :: cs) := by
  have hcolon : isBlank ':' = false := by decide
  obtain ⟨-, hnanos, hleap⟩ := ht
  have hs : (t.seconds % 86400).toNat < 86400 := by omega
  have hleap : 1000000000 ≤ t.nanos → (t.seconds % 86400).toNat % 60 = 59 := by omega
  rw [clockText]
  generalize (t.seconds % 86400).toNat = s at hs hleap
  simp only [String.toList_append, toList_zeroPadded, List.append_assoc]
  change clock? (padded 2 (s / 3600) ++ (':' :: (padded 2 (s / 60 % 60) ++
    (':' :: (padded 2 (s % 60 + t.nanos / 1000000000) ++ _))))) = _
  rw [clock?]
  simp only [Option.bind_eq_bind, Option.bind_some, mark?_cons hcolon,
    field?_padded (Nat.zero_le _) (show s / 3600 ≤ 23 by omega) (by omega),
    field?_padded (Nat.zero_le _) (show s / 60 % 60 ≤ 59 by omega) (by omega),
    field?_padded (Nat.zero_le _) (show s % 60 + t.nanos / 1000000000 ≤ 60 by omega) (by omega),
    fraction?_fractionText (Nat.mod_lt _ (by omega)) hc hpoint]
  rw [show 3600 * (s / 3600) + 60 * (s / 60 % 60) + min (s % 60 + t.nanos / 1000000000) 59 = s by omega,
    show (if s % 60 + t.nanos / 1000000000 = 60 then t.nanos % 1000000000 + 1000000000
      else t.nanos % 1000000000) = t.nanos by split <;> omega]
  rfl

theorem Regular.isValid_date {t : Instant} (h : t.Regular) : t.date.isValid = true := by
  have hrange := h.inRange
  rw [Instant.inRange, Bool.and_eq_true] at hrange
  obtain ⟨hleast, hgreatest⟩ := hrange
  have hleast := of_decide_eq_true hleast
  have hgreatest := of_decide_eq_true hgreatest
  rw [leastSecond] at hleast
  rw [greatestSecond] at hgreatest
  have hyear := Date.year_ofDays (t.seconds / 86400) (by omega) (by omega)
  exact Date.isValid_ofDays _ hyear.1 hyear.2

/-- A point in time comes back from its text. -/
theorem ofText?_toText {t : Instant} (h : t.Regular) : ofText? t.toText = some t := by
  have htext : t.toText.toList = (dateText t.date).toList ++ 'T' ::
      (t.clockText.toList ++ ((fractionText (t.nanos % 1000000000)).toList ++ 'Z' :: [])) := by
    have hT : "T".toList = ['T'] := rfl
    have hZ : "Z".toList = ['Z'] := rfl
    simp only [toText, String.toList_append, List.append_assoc, hT, hZ, List.cons_append,
      List.nil_append]
  have hoffset : offset? ['Z'] = some (0, []) := by decide
  rw [ofText?, htext, instant?, date?_dateText h.isValid_date]
  simp only [Option.bind_eq_bind, Option.bind_some, true_or, if_true,
    clock?_clockText h (c := 'Z') (by decide) (by decide), hoffset]
  have hseconds : t.date.toDays * 86400 + ((t.seconds % 86400).toNat : Int) - 0 = t.seconds := by
    rw [date, Date.toDays_ofDays]
    omega
  rw [hseconds]
  simp [skipBlanks, h.inRange]

/-! ### What is read -/

theorem ofDigits_lt {ds : List Char} (h : ∀ c ∈ ds, c.isDigit = true) : ofDigits ds < 10 ^ ds.length := by
  rw [ofDigits]
  induction ds using List.reverseRecOn with
  | nil => decide
  | append_singleton ds c ih =>
    rw [List.foldl_append, List.foldl_cons, List.foldl_nil, List.length_append, List.length_singleton,
      pow_succ]
    have hlt := ih fun c hc => h c (List.mem_append_left _ hc)
    have hc := toNat_of_isDigit (h c (List.mem_append_right _ List.mem_cons_self))
    omega

theorem fraction?_lt {cs : List Char} (h : fraction? cs = some (n, r)) : n < 1000000000 := by
  rw [fraction?.eq_def] at h
  split at h
  · next cs =>
    dsimp only at h
    split at h
    · cases h
    · cases h
      have hlen : ((cs.takeWhile Char.isDigit).take 9).length ≤ 9 := List.length_take_le _ _
      have hlt : ofDigits ((cs.takeWhile Char.isDigit).take 9) <
          10 ^ ((cs.takeWhile Char.isDigit).take 9).length :=
        ofDigits_lt fun c hc => List.mem_takeWhile_imp (List.mem_of_mem_take hc)
      generalize ((cs.takeWhile Char.isDigit).take 9).length = k at hlen hlt
      calc _ < 10 ^ k * 10 ^ (9 - k) := Nat.mul_lt_mul_of_pos_right hlt (by positivity)
        _ = 10 ^ 9 := by rw [← pow_add, Nat.add_sub_cancel' hlen]
        _ = _ := by norm_num
  · cases h
    decide

theorem clock?_leap {s : Nat} {cs : List Char} (h : clock? cs = some (s, n, r)) :
    n < 2000000000 ∧ (1000000000 ≤ n → s % 60 = 59) := by
  rw [clock?] at h
  obtain ⟨⟨hour, r₁⟩, -, h⟩ := Option.bind_eq_some_iff.1 h
  obtain ⟨r₂, -, h⟩ := Option.bind_eq_some_iff.1 h
  obtain ⟨⟨minute, r₃⟩, -, h⟩ := Option.bind_eq_some_iff.1 h
  obtain ⟨r₄, -, h⟩ := Option.bind_eq_some_iff.1 h
  obtain ⟨⟨second, r₅⟩, -, h⟩ := Option.bind_eq_some_iff.1 h
  obtain ⟨⟨nanos, r₆⟩, hnanos, h⟩ := Option.bind_eq_some_iff.1 h
  have hlt := fraction?_lt hnanos
  cases h
  split <;> omega

theorem offset?_minutes {cs : List Char} {east : Int} (h : offset? cs = some (east, r)) :
    east % 60 = 0 := by
  rw [offset?] at h
  split at h
  · cases h; rfl
  · split at h
    · cases h; rfl
    · cases h; rfl
    · obtain ⟨⟨sign, r₁⟩, -, h⟩ := Option.bind_eq_some_iff.1 h
      obtain ⟨⟨hour, r₂⟩, -, h⟩ := Option.bind_eq_some_iff.1 h
      obtain ⟨⟨minute, r₃⟩, -, h⟩ := Option.bind_eq_some_iff.1 h
      dsimp only at h
      split at h
      · cases h
        rw [show sign * (3600 * (hour : Int) + 60 * minute) = 60 * (sign * (60 * hour + minute)) by ring]
        exact Int.mul_emod_right _ _
      · cases h

/-- What is read is a point in time that can be represented. -/
theorem regular_of_ofText? {text : String} {t : Instant} (h : ofText? text = some t) : t.Regular := by
  rw [ofText?, instant?] at h
  obtain ⟨⟨date, r₁⟩, -, h⟩ := Option.bind_eq_some_iff.1 h
  dsimp only at h
  split at h
  · cases h
  · split at h
    · obtain ⟨⟨second, nanos, r₂⟩, hclock, h⟩ := Option.bind_eq_some_iff.1 h
      obtain ⟨⟨east, r₃⟩, hoffset, h⟩ := Option.bind_eq_some_iff.1 h
      dsimp only at h
      split at h
      · next hend =>
        cases h
        obtain ⟨hnanos, hleap⟩ := clock?_leap hclock
        have hminutes := offset?_minutes hoffset
        refine ⟨hend.2, hnanos, fun hn => ?_⟩
        have := hleap hn
        dsimp only
        omega
      · cases h
    · cases h

end Retrace.Instant
