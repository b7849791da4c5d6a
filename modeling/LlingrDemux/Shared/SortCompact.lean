import Mathlib.Data.List.Sort
import Mathlib.Tactic.Common

/-!
# Sorting by a comparator and compacting equal runs

`SortFunc` is any sorting routine with the documented contract of Go's
`slices.SortFunc`: a permutation, sorted when the comparator is a strict weak
order, unstable on ties. The comparisons it made are kept, because a comparator
may have side effects. `compactFunc` is `slices.CompactFunc`: it keeps the first
element of each run of equal neighbours.
-/

namespace LlingrDemux.Shared

set_option autoImplicit false

universe u
variable {α : Type u}

/-- A three-way comparator whose negative results form a strict weak order. -/
structure StrictWeak (cmp : α → α → Int) : Prop where
  asymm : ∀ a b, cmp a b < 0 → ¬ cmp b a < 0
  negTrans : ∀ a b c, ¬ cmp b a < 0 → ¬ cmp c b < 0 → ¬ cmp c a < 0

structure SortFunc (α : Type u) where
  run : (α → α → Int) → List α → List α
  calls : (α → α → Int) → List α → List (α × α)
  perm : ∀ cmp l, (run cmp l).Perm l
  sorted : ∀ cmp l, StrictWeak cmp → (run cmp l).Pairwise fun a b => ¬ cmp b a < 0
  compared : ∀ cmp l pre a b post, run cmp l = pre ++ a :: b :: post →
    (a, b) ∈ calls cmp l ∨ (b, a) ∈ calls cmp l

theorem mem_zip_tail (pre : List α) (a b : α) (post : List α) :
    (a, b) ∈ (pre ++ a :: b :: post).zip (pre ++ a :: b :: post).tail := by
  induction pre with
  | nil => simp
  | cons c pre ih =>
    rw [List.cons_append, List.tail_cons]
    cases pre with
    | nil => simp
    | cons d pre =>
      rw [List.cons_append, List.zip_cons_cons]
      exact List.mem_cons_of_mem _ ih

/-- Insertion sort meets the contract; its recorded calls are the adjacent pairs of its output. -/
def SortFunc.insertion (α : Type u) : SortFunc α where
  run cmp l := l.insertionSort fun a b => ¬ cmp b a < 0
  calls cmp l :=
    (l.insertionSort fun a b => ¬ cmp b a < 0).zip (l.insertionSort fun a b => ¬ cmp b a < 0).tail
  perm cmp l := l.perm_insertionSort _
  sorted cmp l h := by
    have htotal : Std.Total fun a b : α => ¬ cmp b a < 0 := ⟨fun a b => by
      by_cases hab : cmp b a < 0
      · exact .inr (h.asymm b a hab)
      · exact .inl hab⟩
    have htrans : IsTrans α fun a b => ¬ cmp b a < 0 := ⟨h.negTrans⟩
    exact l.pairwise_insertionSort _
  compared cmp l pre a b post h := by
    rw [h]
    exact .inl (mem_zip_tail pre a b post)

/-- The run whose last element was `prev` continues while `eq` holds of neighbours. -/
def compactAfter (eq : α → α → Bool) (prev : α) : List α → List α
  | [] => []
  | b :: l => if eq b prev then compactAfter eq b l else b :: compactAfter eq b l

def compactFunc (eq : α → α → Bool) : List α → List α
  | [] => []
  | a :: l => a :: compactAfter eq a l

theorem compactAfter_sublist (eq : α → α → Bool) (prev : α) (l : List α) :
    (compactAfter eq prev l).Sublist l := by
  induction l generalizing prev with
  | nil => exact .slnil
  | cons b l ih =>
    simp only [compactAfter]
    split
    · exact (ih b).cons b
    · exact (ih b).cons_cons b

theorem compactFunc_sublist (eq : α → α → Bool) (l : List α) :
    (compactFunc eq l).Sublist l := by
  cases l with
  | nil => exact .slnil
  | cons a l => exact (compactAfter_sublist eq a l).cons_cons a

theorem compactAfter_eq_self {eq : α → α → Bool} {prev : α} {l : List α}
    (h : (prev :: l).IsChain fun a b => eq b a = false) : compactAfter eq prev l = l := by
  induction l generalizing prev with
  | nil => rfl
  | cons b l ih =>
    obtain ⟨hb, hl⟩ := List.isChain_cons_cons.mp h
    simp [compactAfter, hb, ih hl]

/-- Nothing is dropped from a list without equal neighbours. -/
theorem compactFunc_eq_self {eq : α → α → Bool} {l : List α}
    (h : l.IsChain fun a b => eq b a = false) : compactFunc eq l = l := by
  cases l with
  | nil => rfl
  | cons a l => simp [compactFunc, compactAfter_eq_self h]

section Keyed
variable (key : α → Int)

/-- On a list sorted by key every key of the tail is kept once, unless it is the
key of the run being continued. -/
theorem compactAfter_keys {prev : α} {l : List α}
    (h : (prev :: l).Pairwise fun a b => key a ≤ key b) :
    (∀ b ∈ compactAfter (fun x y => decide (key x = key y)) prev l, key prev < key b) ∧
    (compactAfter (fun x y => decide (key x = key y)) prev l).Pairwise
      (fun a b => key a < key b) := by
  induction l generalizing prev with
  | nil => simp [compactAfter]
  | cons b l ih =>
    obtain ⟨hp, hl⟩ := List.pairwise_cons.mp h
    have hb : key prev ≤ key b := hp b List.mem_cons_self
    obtain ⟨h1, h2⟩ := ih hl
    by_cases heq : key b = key prev
    · simp only [compactAfter, heq, decide_true, if_true]
      exact ⟨fun c hc => heq ▸ h1 c hc, h2⟩
    · have hlt : key prev < key b := by omega
      simp only [compactAfter, heq, decide_false]
      refine ⟨?_, List.pairwise_cons.mpr ⟨h1, h2⟩⟩
      intro c hc
      rcases List.mem_cons.mp hc with rfl | hc
      · exact hlt
      · exact hlt.trans (h1 c hc)

theorem compactFunc_strict {l : List α} (h : l.Pairwise fun a b => key a ≤ key b) :
    (compactFunc (fun x y => decide (key x = key y)) l).Pairwise (fun a b => key a < key b) := by
  cases l with
  | nil => exact .nil
  | cons a l =>
    obtain ⟨h1, h2⟩ := compactAfter_keys key h
    exact List.pairwise_cons.mpr ⟨h1, h2⟩

/-- An element of the tail survives, or it belongs to the run of a kept element
standing before it, or to the run being continued. -/
theorem compactAfter_first {prev : α} {l : List α} {R : α → α → Prop}
    (hkey : (prev :: l).Pairwise fun a b => key a ≤ key b)
    (hR : (prev :: l).Pairwise R) :
    ∀ b ∈ l, b ∈ compactAfter (fun x y => decide (key x = key y)) prev l ∨
      key b = key prev ∨
      ∃ a ∈ compactAfter (fun x y => decide (key x = key y)) prev l, key a = key b ∧ R a b := by
  induction l generalizing prev with
  | nil => simp
  | cons c l ih =>
    intro b hb
    have ih' := ih (List.pairwise_cons.mp hkey).2 (List.pairwise_cons.mp hR).2
    by_cases heq : key c = key prev
    · simp only [compactAfter, heq, decide_true, if_true]
      rcases List.mem_cons.mp hb with rfl | hb
      · exact .inr (.inl heq)
      · exact (ih' b hb).imp_right (Or.imp_left fun h => h.trans heq)
    · simp only [compactAfter, heq, decide_false]
      rcases List.mem_cons.mp hb with rfl | hb
      · exact .inl List.mem_cons_self
      · rcases ih' b hb with h | h | ⟨a, ha, hk, hr⟩
        · exact .inl (List.mem_cons_of_mem c h)
        · have hcb : R c b := (List.pairwise_cons.mp (List.pairwise_cons.mp hR).2).1 b hb
          exact .inr (.inr ⟨c, List.mem_cons_self, h.symm, hcb⟩)
        · exact .inr (.inr ⟨a, List.mem_cons_of_mem c ha, hk, hr⟩)

/-- Compacting a list sorted by key keeps, for every element, an element of the same
key that is the element itself or stood before it. -/
theorem compactFunc_first {l : List α} {R : α → α → Prop}
    (hkey : l.Pairwise fun a b => key a ≤ key b) (hR : l.Pairwise R) :
    ∀ b ∈ l, b ∈ compactFunc (fun x y => decide (key x = key y)) l ∨
      ∃ a ∈ compactFunc (fun x y => decide (key x = key y)) l, key a = key b ∧ R a b := by
  cases l with
  | nil => simp
  | cons c l =>
    intro b hb
    rcases List.mem_cons.mp hb with rfl | hb
    · exact .inl List.mem_cons_self
    · rcases compactAfter_first key hkey hR b hb with h | h | ⟨a, ha, hk, hr⟩
      · exact .inl (List.mem_cons_of_mem c h)
      · exact .inr ⟨c, List.mem_cons_self, h.symm, (List.pairwise_cons.mp hR).1 b hb⟩
      · exact .inr ⟨a, List.mem_cons_of_mem c ha, hk, hr⟩

end Keyed

end LlingrDemux.Shared
