import Mathlib.Tactic.Linarith
import Mathlib.Tactic.IntervalCases
import Retrace.Time.Instant

/-!
The calendar counts every day once: a date is the date of its day (`toDays_ofDays`), and the days
between the bounds have dates that exist (`isValid_ofDays`).
-/
namespace Retrace.Date

/-! ### Years and months from March

A cycle of four hundred years has `c` centuries, `k` spans of four years, `t` years and `d` days. -/

section

variable {n c r k s t d e : Int}

theorem century_eq (hn : n = 36524 * c + r) (hc : 0 ≤ c ∧ c ≤ 3) (hr : 0 ≤ r ∧ r ≤ 36524)
    (hlast : r = 36524 → c = 3) : n / 36524 - n / 146096 = c := by
  by_cases h : r = 36524
  · have := hlast h
    subst this h
    subst hn
    rfl
  · have h₁ : n / 36524 = c := by omega
    have h₂ : n / 146096 = 0 := by omega
    omega

theorem leap_eq (hn : n = 36524 * c + (1461 * k + s)) :
    n / 1460 = 25 * c + k + (24 * c + k + s) / 1460 := by
  omega

theorem year_eq (hc : 0 ≤ c ∧ c ≤ 3) (hk : 0 ≤ k ∧ k ≤ 24) (ht : 0 ≤ t ∧ t ≤ 3)
    (hd : 0 ≤ d ∧ d ≤ 365) (hlast : d = 365 → t = 3) : (365 * t + d - (24 * c + k + (365 * t + d)) / 1460) / 365 = t := by
  rcases (by omega : t = 0 ∨ t = 1 ∨ t = 2 ∨ t = 3) with rfl | rfl | rfl | rfl
  all_goals omega

theorem year_of_parts (hn : n = 36524 * c + r) (hr : r = 1461 * k + (365 * t + d))
    (hc : 0 ≤ c ∧ c ≤ 3) (hk : 0 ≤ k ∧ k ≤ 24) (ht : 0 ≤ t ∧ t ≤ 3) (hd : 0 ≤ d ∧ d ≤ 365)
    (hleap : d = 365 → t = 3) (hlast : r ≤ 36524 ∧ (r = 36524 → c = 3)) :
    (n - n / 1460 + n / 36524 - n / 146096) / 365 = 100 * c + 4 * k + t := by
  have hr₀ : 0 ≤ r := by rw [hr]; linarith
  have h₁ := century_eq hn hc ⟨hr₀, hlast.1⟩ hlast.2
  have h₂ := leap_eq (hn.trans (congrArg (36524 * c + ·) hr))
  have h₃ := year_eq hc hk ht hd hleap
  have h₄ : n - n / 1460 + n / 36524 - n / 146096 =
      365 * t + d - (24 * c + k + (365 * t + d)) / 1460 + (100 * c + 4 * k) * 365 := by
    linarith
  rw [h₄, Int.add_mul_ediv_right _ _ (by decide), h₃]
  linarith

/-- The year of a day in a cycle of four hundred years, and the day of that year, from March. -/
theorem exists_year (n : Int) (h : 0 ≤ n) (h' : n < 146097) :
    ∃ y k, (n - n / 1460 + n / 36524 - n / 146096) / 365 = y ∧ n = 365 * y + y / 4 - y / 100 + k ∧
      0 ≤ y ∧ y < 400 ∧ 0 ≤ k ∧ k ≤ 365 ∧
      (k = 365 → (y + 1) % 4 = 0 ∧ ((y + 1) % 100 ≠ 0 ∨ (y + 1) % 400 = 0)) := by
  obtain ⟨c, r, hn, hc, hr, hlast⟩ : ∃ c r, n = 36524 * c + r ∧ (0 ≤ c ∧ c ≤ 3) ∧
      (0 ≤ r ∧ r ≤ 36524) ∧ (r = 36524 → c = 3) := by
    by_cases hn : n = 146096
    · exact ⟨3, 36524, by omega, by omega, by omega, by omega⟩
    · exact ⟨n / 36524, n % 36524, by omega, by omega, by omega, by omega⟩
  clear h h'
  obtain ⟨k, s, hs, hk, hsb⟩ : ∃ k s, r = 1461 * k + s ∧ (0 ≤ k ∧ k ≤ 24) ∧ (0 ≤ s ∧ s ≤ 1460) := by
    clear hn hlast hc
    exact ⟨r / 1461, r % 1461, by omega, by omega, by omega⟩
  obtain ⟨t, d, ht, htb, hd, hleap⟩ : ∃ t d, s = 365 * t + d ∧ (0 ≤ t ∧ t ≤ 3) ∧ (0 ≤ d ∧ d ≤ 365) ∧
      (d = 365 → t = 3) := by
    clear hn hs hr hk hc hlast
    by_cases h : s = 1460
    · exact ⟨3, 365, by omega, by omega, by omega, by omega⟩
    · exact ⟨s / 365, s % 365, by omega, by omega, by omega, by omega⟩
  subst ht
  refine ⟨100 * c + 4 * k + t, d, year_of_parts hn hs hc hk htb hd hleap ⟨hr.2, hlast⟩, ?_⟩
  have h₁ : (100 * c + 4 * k + t) / 4 = 25 * c + k := by clear hn hs hlast; omega
  have h₂ : (100 * c + 4 * k + t) / 100 = c := by clear hn hs hlast h₁; omega
  rw [h₁, h₂]
  clear h₁ h₂
  refine ⟨by linarith, by omega, by omega, hd.1, hd.2, fun h => ?_⟩
  obtain rfl := hleap h
  by_cases hk' : k = 24
  · subst hk'
    have hc' : c = 3 := hlast (by linarith)
    subst hc'
    exact ⟨rfl, .inr rfl⟩
  · clear hn hs hlast
    exact ⟨by omega, .inl (by omega)⟩

end

theorem exists_month (k : Int) (h : 0 ≤ k) (h' : k ≤ 365) :
    ∃ (m : Nat) (d : Nat), (5 * k + 2) / 153 = m ∧ k - (153 * (m : Int) + 2) / 5 + 1 = d ∧ m ≤ 11 ∧
      1 ≤ d ∧ d ≤ 31 ∧ (m = 1 ∨ m = 3 ∨ m = 6 ∨ m = 8 → d ≤ 30) ∧
      (m = 11 → d ≤ 29 ∧ (d = 29 → k = 365)) ∧ (10 ≤ m ↔ 306 ≤ k) := by
  obtain ⟨m, hm⟩ := Int.eq_ofNat_of_zero_le (show 0 ≤ (5 * k + 2) / 153 by omega)
  have hm' : m ≤ 11 := by omega
  obtain ⟨d, hd⟩ := Int.eq_ofNat_of_zero_le (show 0 ≤ k - (153 * (m : Int) + 2) / 5 + 1 by omega)
  refine ⟨m, d, hm, hd, hm', ?_⟩
  interval_cases m <;> omega

/-! ### Dates -/

/-- How the date of a day is found: the cycle, the year in it and the day of that year. -/
theorem exists_ofDays (n : Int) :
    ∃ (q y k : Int) (m d : Nat), n + epochShift = q * cycle + (365 * y + y / 4 - y / 100 + k) ∧
      0 ≤ y ∧ y < 400 ∧ k = (153 * (m : Int) + 2) / 5 + d - 1 ∧ m ≤ 11 ∧ 1 ≤ d ∧ d ≤ 31 ∧
      (m = 1 ∨ m = 3 ∨ m = 6 ∨ m = 8 → d ≤ 30) ∧
      (m = 11 → d ≤ 29 ∧ (d = 29 → isLeapYear (q * 400 + y + 1))) ∧ 0 ≤ k ∧ k ≤ 365 ∧
      ofDays n = if m < 10 then ⟨q * 400 + y, m + 3, d⟩ else ⟨q * 400 + y + 1, m - 9, d⟩ := by
  obtain ⟨y, k, hyear, hday, hy, hy', hk, hk', hleap⟩ := exists_year ((n + epochShift) % cycle)
    (Int.emod_nonneg _ (by decide)) (Int.emod_lt_of_pos _ (by decide))
  obtain ⟨m, d, hm, hd, hm', hd₁, hd₂, hshort, hlast, -⟩ := exists_month k hk hk'
  refine ⟨(n + epochShift) / cycle, y, k, m, d, ?_, hy, hy', by omega, hm', hd₁, hd₂, hshort, ?_,
    hk, hk', ?_⟩
  · rw [← hday]
    have := Int.emod_add_mul_ediv (n + epochShift) cycle
    linarith
  · intro h
    refine ⟨(hlast h).1, fun hd => ?_⟩
    have := hleap ((hlast h).2 hd)
    simp only [isLeapYear, Bool.and_eq_true, Bool.or_eq_true, decide_eq_true_eq]
    omega
  · have hinYear : (n + epochShift) % cycle - (365 * y + y / 4 - y / 100) = k := by linarith
    simp only [ofDays, hyear, hinYear, hm, hd]
    split
    · rw [if_neg (by omega), if_pos (by omega)]
      simp; omega
    · rw [if_pos (by omega), if_neg (by omega)]
      simp; omega

/-- A date is the date of its day. -/
theorem toDays_ofDays (n : Int) : (ofDays n).toDays = n := by
  obtain ⟨q, y, k, m, d, hn, hy, hy', hk, hm, -, -, -, -, -, -, h⟩ := exists_ofDays n
  rw [h]
  have hyear : (q * 400 + y) % 400 = y := by clear hn hk; omega
  have hcycle : (q * 400 + y) / 400 = q := by clear hn hk hyear; omega
  split
  · simp only [toDays, if_neg (show ¬m + 3 ≤ 2 by omega), hyear, hcycle]
    have : ((m + 3 : Nat) : Int) - 3 = m := by omega
    rw [this]
    linarith
  · have hmonth : m - 9 ≤ 2 := by omega
    have : ((m - 9 : Nat) : Int) + 9 = m := by omega
    simp only [toDays, if_pos hmonth, this, Int.add_sub_cancel, hyear, hcycle]
    linarith

theorem isValid_ofDays (n : Int) (h : leastYear ≤ (ofDays n).year)
    (h' : (ofDays n).year ≤ greatestYear) : (ofDays n).isValid := by
  obtain ⟨q, y, k, m, d, -, -, -, -, hm, hd₁, hd₂, hshort, hlast, -, -, hof⟩ := exists_ofDays n
  rw [hof] at h h' ⊢
  split at h <;> rename_i hm'
  · simp only [if_pos hm'] at h' ⊢
    simp only [isValid, Bool.and_eq_true, decide_eq_true_eq, daysInMonth]
    refine ⟨⟨⟨⟨⟨h, h'⟩, by omega⟩, by omega⟩, hd₁⟩, ?_⟩
    rw [if_neg (by omega)]
    split
    · exact hshort (by omega)
    · exact hd₂
  · simp only [if_neg hm'] at h' ⊢
    simp only [isValid, Bool.and_eq_true, decide_eq_true_eq, daysInMonth]
    refine ⟨⟨⟨⟨⟨h, h'⟩, by omega⟩, by omega⟩, hd₁⟩, ?_⟩
    split
    · have hm₁₁ : m = 11 := by omega
      split <;> rename_i hl
      · exact (hlast hm₁₁).1
      · have := (hlast hm₁₁).2
        have := (hlast hm₁₁).1
        rcases Nat.lt_or_ge d 29 with hd | hd
        · omega
        · exact absurd ((hlast hm₁₁).2 (by omega)) hl
    · rw [if_neg (by omega)]
      exact hd₂

/-- The day of a date bounds its year. -/
theorem year_ofDays (n : Int) (h : (Date.mk leastYear 1 1).toDays ≤ n)
    (h' : n ≤ (Date.mk greatestYear 12 31).toDays) :
    leastYear ≤ (ofDays n).year ∧ (ofDays n).year ≤ greatestYear := by
  obtain ⟨q, y, k, m, d, hn, hy, hy', hk, hm, hd₁, hd₂, -, -, hk₀, hk₁, hof⟩ := exists_ofDays n
  have hleast : (Date.mk leastYear 1 1).toDays = -96465292 := by decide
  have hgreatest : (Date.mk greatestYear 12 31).toDays = 95026236 := by decide
  have hmonth : m < 10 ↔ k ≤ 305 := by omega
  rw [hleast] at h
  rw [hgreatest] at h'
  simp only [leastYear, greatestYear, epochShift, cycle] at hn ⊢
  have hw₀ : 0 ≤ 365 * y + y / 4 - y / 100 + k := by clear hn hk; omega
  have hw₁ : 365 * y + y / 4 - y / 100 + k ≤ 146096 := by clear hn hk; omega
  have hq : -656 ≤ q ∧ q ≤ 655 := by
    generalize 365 * y + y / 4 - y / 100 + k = w at hn hw₀ hw₁
    omega
  have hleastYear : q = -656 → 256 ≤ y ∧ (y = 256 → 306 ≤ k) := by
    rintro rfl
    clear hk hw₀ hw₁ hmonth
    omega
  have hgreatestYear : q = 655 → y ≤ 142 ∧ (y = 142 → k ≤ 305) := by
    rintro rfl
    clear hk hw₀ hw₁ hmonth
    omega
  clear hn hw₀ hw₁ hk
  rw [hof]
  split <;> dsimp only <;> omega

end Retrace.Date
