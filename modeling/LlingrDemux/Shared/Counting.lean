import Mathlib.Data.Nat.Count

/-!
# Counting the indices below a bound

How `Nat.count` changes when a predicate changes at one index, and the pigeonhole bound of
a list of distinct counted indices.
-/

namespace LlingrDemux.Shared

set_option autoImplicit false

variable {p q : Nat → Prop} [DecidablePred p] [DecidablePred q]

/-- Predicates that agree below the bound count alike. -/
theorem count_congr {n : Nat} (same : ∀ j < n, (p j ↔ q j)) : Nat.count p n = Nat.count q n := by
  induction n with
  | zero => rfl
  | succ n ih =>
    have hbelow := ih fun j hj => same j (Nat.lt_succ_of_lt hj)
    have hlast := same n (Nat.lt_succ_self n)
    rw [Nat.count_succ, Nat.count_succ, hbelow]
    simp only [hlast]

/-- A change at one index below the bound. -/
theorem count_change {n i : Nat} (hi : i < n) (same : ∀ j, j ≠ i → (p j ↔ q j)) :
    Nat.count p n + (if q i then 1 else 0) = Nat.count q n + (if p i then 1 else 0) := by
  induction n with
  | zero => exact absurd hi (Nat.not_lt_zero i)
  | succ n ih =>
    rw [Nat.count_succ, Nat.count_succ]
    by_cases hn : i = n
    · subst hn
      have hbelow : Nat.count p i = Nat.count q i :=
        count_congr fun j hj => same j (Nat.ne_of_lt hj)
      omega
    · have hbelow := ih (Nat.lt_of_le_of_ne (Nat.le_of_lt_succ hi) hn)
      have hlast := same n (Ne.symm hn)
      simp only [hlast]
      omega

/-- Distinct indices below the bound are at most as many as the count. -/
theorem length_le_count {n : Nat} {l : List Nat} (nodup : l.Nodup)
    (counted : ∀ i ∈ l, i < n ∧ p i) : l.length ≤ Nat.count p n := by
  rw [Nat.count_eq_card_filter_range, ← List.toFinset_card_of_nodup nodup]
  apply Finset.card_le_card
  intro i hi
  obtain ⟨hlt, hp⟩ := counted i (List.mem_toFinset.mp hi)
  exact Finset.mem_filter.mpr ⟨Finset.mem_range.mpr hlt, hp⟩

end LlingrDemux.Shared
