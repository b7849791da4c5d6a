import Mathlib.Data.List.Nodup
import Mathlib.Tactic.Common

/-!
# Loops over keys that touch only their own entry

A loop over a list visits entries of a keyed state. When one iteration changes
only the entry of its own key and the keys are visited once each, the order of the
visits does not matter: every visited entry is changed by its own iteration from
its value before the loop, every other entry is left alone.
-/

namespace LlingrDemux.Shared

set_option autoImplicit false

universe u

/-- One iteration `step` as seen through the entries `view`, under an invariant `I`. -/
structure KeyedStep {S A K V : Type u} (step : S → A → S) (key : A → K) (view : S → K → V)
    (I : S → Prop) (f : A → V → V) : Prop where
  inv : ∀ s a, I s → I (step s a)
  same : ∀ s a, I s → view (step s a) (key a) = f a (view s (key a))
  other : ∀ s a k, I s → k ≠ key a → view (step s a) k = view s k

namespace KeyedStep
variable {S A K V : Type u} {step : S → A → S} {key : A → K} {view : S → K → V}
  {I : S → Prop} {f : A → V → V} (h : KeyedStep step key view I f)
include h

theorem foldl_inv (l : List A) {s : S} (hs : I s) : I (l.foldl step s) := by
  induction l generalizing s with
  | nil => exact hs
  | cons a l ih => exact ih (h.inv s a hs)

theorem foldl_other {l : List A} {s : S} (hs : I s) {k : K} (hk : k ∉ l.map key) :
    view (l.foldl step s) k = view s k := by
  induction l generalizing s with
  | nil => rfl
  | cons a l ih =>
    simp only [List.map_cons, List.mem_cons, not_or] at hk
    rw [List.foldl_cons, ih (h.inv s a hs) hk.2, h.other s a k hs hk.1]

theorem foldl_same {l : List A} {s : S} (hs : I s) (hnd : (l.map key).Nodup) {a : A}
    (ha : a ∈ l) : view (l.foldl step s) (key a) = f a (view s (key a)) := by
  induction l generalizing s with
  | nil => simp at ha
  | cons b l ih =>
    obtain ⟨hb, hl⟩ := List.nodup_cons.mp hnd
    rw [List.foldl_cons]
    rcases List.mem_cons.mp ha with rfl | ha
    · rw [h.foldl_other (h.inv s a hs) hb, h.same s a hs]
    · have hne : key a ≠ key b := by
        intro he
        exact hb (he ▸ List.mem_map_of_mem ha)
      rw [ih (h.inv s b hs) hl ha, h.other s b (key a) hs hne]

end KeyedStep

end LlingrDemux.Shared
