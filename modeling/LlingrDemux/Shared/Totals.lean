import Mathlib.Algebra.BigOperators.Group.Finset.Basic
import Mathlib.Algebra.BigOperators.Intervals
import Mathlib.Algebra.Order.Group.Multiset
import Mathlib.Algebra.Order.BigOperators.Group.Finset
import Mathlib.Data.Nat.Count

/-!
# Sums over the indices below a bound

How a sum changes when one summand changes, a sum of multisets as one list, and the bound of a sum
whose summands are bounded on the counted indices and vanish on the others.
-/

namespace LlingrDemux.Shared

set_option autoImplicit false

variable {n i : Nat}

theorem sum_change {M : Type*} [AddCommMonoid M] {g h : Nat → M} (hi : i < n)
    (same : ∀ j, j ≠ i → g j = h j) :
    ∑ j ∈ Finset.range n, g j + h i = ∑ j ∈ Finset.range n, h j + g i := by
  have hmem : i ∈ Finset.range n := Finset.mem_range.mpr hi
  have hrest : ∑ j ∈ (Finset.range n).erase i, g j = ∑ j ∈ (Finset.range n).erase i, h j :=
    Finset.sum_congr rfl fun j hj => same j (Finset.ne_of_mem_erase hj)
  rw [← Finset.add_sum_erase _ g hmem, ← Finset.add_sum_erase _ h hmem, hrest, add_assoc, add_comm,
    add_comm _ (h i)]

theorem sum_coe_eq_flatMap {α : Type*} (f : Nat → List α) (n : Nat) :
    ∑ j ∈ Finset.range n, (f j : Multiset α) = ((List.range n).flatMap f : List α) := by
  induction n with
  | zero => rfl
  | succ n ih =>
    rw [Finset.sum_range_succ, ih, List.range_succ, List.flatMap_append, List.flatMap_singleton,
      Multiset.coe_add]

theorem sum_le_mul_count {g : Nat → Nat} {p : Nat → Prop} [DecidablePred p] {c : Nat}
    (bound : ∀ j < n, g j ≤ if p j then c else 0) :
    ∑ j ∈ Finset.range n, g j ≤ c * Nat.count p n := by
  induction n with
  | zero => exact Nat.zero_le _
  | succ n ih =>
    have hrest := ih fun j hj => bound j (Nat.lt_succ_of_lt hj)
    have hlast := bound n (Nat.lt_succ_self n)
    rw [Finset.sum_range_succ, Nat.count_succ, Nat.mul_add]
    split at hlast
    · rename_i hp
      rw [if_pos hp]
      omega
    · rename_i hp
      rw [if_neg hp]
      omega

end LlingrDemux.Shared
