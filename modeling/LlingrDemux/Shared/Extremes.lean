import Mathlib.Algebra.Order.BigOperators.Group.List
import Mathlib.Algebra.Order.Group.Int
import Mathlib.Algebra.Ring.Int.Defs
import Mathlib.Data.Nat.Cast.Basic
import Mathlib.Data.Int.Order.Basic
import Mathlib.Data.List.Basic

/-!
# Greatest and least of a list

The extremes of a list of integers, zero for the empty one. A running extreme that starts
at zero agrees with them where the values are on the right side of zero.
-/

namespace LlingrDemux.Shared

set_option autoImplicit false

def greatest (xs : List Int) : Int := xs.max?.getD 0

def least (xs : List Int) : Int := xs.min?.getD 0

variable {xs ys : List Int}

theorem greatest_eq_iff (h : xs ≠ []) {a : Int} :
    greatest xs = a ↔ a ∈ xs ∧ ∀ b ∈ xs, b ≤ a := by
  rw [← List.max?_eq_some_iff]
  obtain ⟨m, hm⟩ := Option.isSome_iff_exists.mp (List.isSome_max?_of_ne_nil h)
  simp [greatest, hm]

theorem least_eq_iff (h : xs ≠ []) {a : Int} :
    least xs = a ↔ a ∈ xs ∧ ∀ b ∈ xs, a ≤ b := by
  rw [← List.min?_eq_some_iff]
  obtain ⟨m, hm⟩ := Option.isSome_iff_exists.mp (List.isSome_min?_of_ne_nil h)
  simp [least, hm]

theorem greatest_perm (h : xs.Perm ys) : greatest xs = greatest ys := by
  by_cases hys : ys = []
  · subst hys
    rw [List.perm_nil.mp h]
  · have hxs : xs ≠ [] := fun hnil => hys (List.nil_perm.mp (hnil ▸ h))
    obtain ⟨hmem, hbound⟩ := (greatest_eq_iff hys).mp rfl
    apply (greatest_eq_iff hxs).mpr
    exact ⟨h.mem_iff.mpr hmem, fun b hb => hbound b (h.mem_iff.mp hb)⟩

theorem least_perm (h : xs.Perm ys) : least xs = least ys := by
  by_cases hys : ys = []
  · subst hys
    rw [List.perm_nil.mp h]
  · have hxs : xs ≠ [] := fun hnil => hys (List.nil_perm.mp (hnil ▸ h))
    obtain ⟨hmem, hbound⟩ := (least_eq_iff hys).mp rfl
    apply (least_eq_iff hxs).mpr
    exact ⟨h.mem_iff.mpr hmem, fun b hb => hbound b (h.mem_iff.mp hb)⟩

theorem greatest_nonneg (h : ∀ x ∈ xs, 0 ≤ x) : 0 ≤ greatest xs := by
  by_cases hxs : xs = []
  · rw [hxs]
    rfl
  · exact h _ ((greatest_eq_iff hxs).mp rfl).1

theorem least_pos (h : ∀ x ∈ xs, 0 < x) (hxs : xs ≠ []) : 0 < least xs :=
  h _ ((least_eq_iff hxs).mp rfl).1

theorem greatest_append (hx : ∀ x ∈ xs, 0 ≤ x) (hy : ∀ y ∈ ys, 0 ≤ y) :
    greatest (xs ++ ys) = if greatest ys > greatest xs then greatest ys else greatest xs := by
  by_cases hys : ys = []
  · subst hys
    have hpos := greatest_nonneg hx
    rw [List.append_nil, if_neg]
    exact Int.not_lt.mpr hpos
  by_cases hxs : xs = []
  · subst hxs
    have hpos := greatest_nonneg hy
    have hnil : greatest [] = 0 := rfl
    rw [List.nil_append]
    split_ifs <;> omega
  obtain ⟨hxmem, hxbound⟩ := (greatest_eq_iff hxs).mp rfl
  obtain ⟨hymem, hybound⟩ := (greatest_eq_iff hys).mp rfl
  apply (greatest_eq_iff (List.append_ne_nil_of_left_ne_nil hxs ys)).mpr
  split_ifs with hgt
  · refine ⟨List.mem_append_right xs hymem, fun b hb => ?_⟩
    rcases List.mem_append.mp hb with hb | hb
    · exact Int.le_trans (hxbound b hb) (Int.le_of_lt hgt)
    · exact hybound b hb
  · refine ⟨List.mem_append_left ys hxmem, fun b hb => ?_⟩
    rcases List.mem_append.mp hb with hb | hb
    · exact hxbound b hb
    · exact Int.le_trans (hybound b hb) (Int.not_lt.mp hgt)

/-- Zero stands for no value yet. -/
theorem least_append (hx : ∀ x ∈ xs, 0 < x) :
    least (xs ++ ys) =
      if ys ≠ [] ∧ (least xs = 0 ∨ least ys < least xs) then least ys else least xs := by
  by_cases hys : ys = []
  · subst hys
    simp
  by_cases hxs : xs = []
  · subst hxs
    have hnil : least [] = 0 := rfl
    rw [List.nil_append, if_pos ⟨hys, .inl hnil⟩]
  have hpos := least_pos hx hxs
  obtain ⟨hxmem, hxbound⟩ := (least_eq_iff hxs).mp rfl
  obtain ⟨hymem, hybound⟩ := (least_eq_iff hys).mp rfl
  apply (least_eq_iff (List.append_ne_nil_of_left_ne_nil hxs ys)).mpr
  split_ifs with hlt
  · have hlt' : least ys < least xs := by omega
    refine ⟨List.mem_append_right xs hymem, fun b hb => ?_⟩
    rcases List.mem_append.mp hb with hb | hb
    · exact Int.le_trans (Int.le_of_lt hlt') (hxbound b hb)
    · exact hybound b hb
  · have hge : least xs ≤ least ys := Int.not_lt.mp fun hlt' => hlt ⟨hys, .inr hlt'⟩
    refine ⟨List.mem_append_left ys hxmem, fun b hb => ?_⟩
    rcases List.mem_append.mp hb with hb | hb
    · exact hxbound b hb
    · exact Int.le_trans hge (hybound b hb)

end LlingrDemux.Shared
