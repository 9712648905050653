import Retrace.Manager.Retention

/-!
Instants in order, and the lists that show transactions by age. A list sorted newest first holds no
transaction before an older one.
-/
namespace Retrace

namespace Instant

variable {x y z : Instant}

theorem lt_iff : x.lt y = true ↔ x.seconds < y.seconds ∨ x.seconds = y.seconds ∧ x.nanos < y.nanos := by
  simp only [lt, decide_eq_true_eq]
  change (compare x.seconds y.seconds).then (compare x.nanos y.nanos) = .lt ↔ _
  rw [Ordering.then_eq_lt, Int.compare_eq_lt, Int.compare_eq_eq, Nat.compare_eq_lt]

theorem lt_trans (h : x.lt y = true) (h' : y.lt z = true) : x.lt z = true := by
  rw [lt_iff] at *
  omega

theorem lt_asymm (h : x.lt y = true) : y.lt x = false := by
  rw [← Bool.not_eq_true, lt_iff]
  rw [lt_iff] at h
  omega

theorem lt_trichotomy (x y : Instant) : x.lt y = true ∨ x = y ∨ y.lt x = true := by
  rw [lt_iff, lt_iff]
  by_cases hs : x.seconds = y.seconds
  · by_cases hn : x.nanos = y.nanos
    · right; left
      cases x; cases y
      simp_all
    · omega
  · omega

theorem not_lt_iff : (!y.lt x) = true ↔ x.lt y = true ∨ x = y := by
  rw [Bool.not_eq_true']
  constructor
  · intro h
    rcases lt_trichotomy x y with hlt | heq | hgt
    · exact .inl hlt
    · exact .inr heq
    · rw [h] at hgt; cases hgt
  · rintro (h | rfl)
    · exact lt_asymm h
    · rw [← Bool.not_eq_true, lt_iff]
      omega

theorem not_lt_trans (h : (!y.lt x) = true) (h' : (!z.lt y) = true) : (!z.lt x) = true := by
  rw [not_lt_iff] at *
  rcases h with h | rfl
  · rcases h' with h' | rfl
    · exact .inl (lt_trans h h')
    · exact .inl h
  · exact h'

theorem not_lt_total (x y : Instant) : ((!y.lt x) || (!x.lt y)) = true := by
  rw [Bool.or_eq_true, not_lt_iff, not_lt_iff]
  rcases lt_trichotomy x y with h | h | h
  · exact .inl (.inl h)
  · exact .inl (.inr h)
  · exact .inr (.inl h)

theorem not_lt_antisymm (h : (!y.lt x) = true) (h' : (!x.lt y) = true) : x = y := by
  rcases not_lt_iff.1 h with hlt | heq
  · rw [hlt] at h'; cases h'
  · exact heq

end Instant

namespace Transaction

variable {t u : Transaction}

theorem newestFirst_iff : t.newestFirst u = true ↔
    u.timestamp.lt t.timestamp = true ∨ t.timestamp = u.timestamp ∧ t.id ≤ u.id := by
  simp [newestFirst]

theorem newestFirst_trans (t u v : Transaction) (h : t.newestFirst u = true)
    (h' : u.newestFirst v = true) : t.newestFirst v = true := by
  rw [newestFirst_iff] at *
  rcases h with h | ⟨h, hid⟩ <;> rcases h' with h' | ⟨h', hid'⟩
  · exact .inl (Instant.lt_trans h' h)
  · exact .inl (h' ▸ h)
  · exact .inl (h ▸ h')
  · exact .inr ⟨h.trans h', String.le_trans hid hid'⟩

theorem newestFirst_total (t u : Transaction) : (t.newestFirst u || u.newestFirst t) = true := by
  rw [Bool.or_eq_true, newestFirst_iff, newestFirst_iff]
  rcases Instant.lt_trichotomy t.timestamp u.timestamp with h | h | h
  · exact .inr (.inl h)
  · exact (String.le_total t.id u.id).imp (fun hid => .inr ⟨h, hid⟩) fun hid => .inr ⟨h.symm, hid⟩
  · exact .inl (.inl h)

end Transaction

theorem Manager.transactions_sorted (m : Manager) :
    m.transactions.Pairwise fun t u => t.timestamp.lt u.timestamp = false := by
  have h : m.transactions.Pairwise fun t u => t.newestFirst u = true :=
    List.pairwise_mergeSort Transaction.newestFirst_trans Transaction.newestFirst_total _
  refine h.imp fun {t u} htu => ?_
  rcases Transaction.newestFirst_iff.1 htu with hlt | ⟨heq, -⟩
  · exact Instant.lt_asymm hlt
  · rw [heq, ← Bool.not_eq_true, Instant.lt_iff]
    omega

end Retrace
