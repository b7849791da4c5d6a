import Mathlib.Logic.Function.Basic

/-!
# Elections

A slot that is taken once, by a try that never blocks, elects one party, which then acts
once. `Elected` follows the slot, the party that has still to act and the number of times
anybody has acted.
-/

namespace LlingrDemux.Shared

set_option autoImplicit false

/-- Nobody acts before the slot is taken; then one party holds the right to act, or has
used it. -/
structure Elected {ι : Type*} (taken : Prop) (holds : ι → Prop) (done : Nat) : Prop where
  vacant : ¬ taken → done = 0 ∧ ∀ i, ¬ holds i
  filled : taken → (done = 0 ∧ ∃ i, ∀ j, holds j ↔ j = i) ∨ (done = 1 ∧ ∀ i, ¬ holds i)

namespace Elected
variable {ι : Type*} {taken taken' : Prop} {holds holds' : ι → Prop} {done : Nat}

theorem initial (free : ¬ taken) (nobody : ∀ i, ¬ holds i) : Elected taken holds 0 :=
  ⟨fun _ => ⟨rfl, nobody⟩, fun h => absurd h free⟩

theorem done_le_one (h : Elected taken holds done) : done ≤ 1 := by
  by_cases ht : taken
  · rcases h.filled ht with ⟨hdone, _⟩ | ⟨hdone, _⟩ <;> omega
  · have := (h.vacant ht).1
    omega

theorem pending (h : Elected taken holds done) {i : ι} (hi : holds i) :
    taken ∧ done = 0 ∧ ∀ j, holds j ↔ j = i := by
  by_cases ht : taken
  · rcases h.filled ht with ⟨hdone, k, hk⟩ | ⟨_, hnone⟩
    · have hik := (hk i).mp hi
      subst hik
      exact ⟨ht, hdone, hk⟩
    · exact absurd hi (hnone i)
  · exact absurd hi ((h.vacant ht).2 i)

/-- Once the slot is taken and nobody has still to act, somebody has acted. -/
theorem done_of_nobody (h : Elected taken holds done) (ht : taken) (nobody : ∀ i, ¬ holds i) :
    done = 1 := by
  rcases h.filled ht with ⟨_, i, hi⟩ | ⟨hdone, _⟩
  · exact absurd ((hi i).mpr rfl) (nobody i)
  · exact hdone

theorem nobody_of_done (h : Elected taken holds done) (hdone : done = 1) :
    taken ∧ ∀ i, ¬ holds i := by
  by_cases ht : taken
  · rcases h.filled ht with ⟨hzero, _⟩ | ⟨_, hnone⟩
    · omega
    · exact ⟨ht, hnone⟩
  · have := (h.vacant ht).1
    omega

theorem congr (h : Elected taken holds done) (same : ∀ i, holds' i ↔ holds i) :
    Elected taken holds' done := by
  have heq : holds' = holds := funext fun i => propext (same i)
  exact heq ▸ h

/-- The winner takes the slot. -/
theorem win (h : Elected taken holds done) (free : ¬ taken) (ht : taken') {i : ι}
    (holder : ∀ j, holds' j ↔ j = i) : Elected taken' holds' done :=
  ⟨fun hn => absurd ht hn, fun _ => .inl ⟨(h.vacant free).1, i, holder⟩⟩

/-- The winner acts. -/
theorem act (h : Elected taken holds done) {i : ι} (hi : holds i)
    (others : ∀ j, holds' j → holds j ∧ j ≠ i) : Elected taken holds' (done + 1) := by
  obtain ⟨ht, hdone, honly⟩ := h.pending hi
  refine ⟨fun hn => absurd ht hn, fun _ => .inr ⟨by omega, fun j hj => ?_⟩⟩
  obtain ⟨hold, hne⟩ := others j hj
  exact hne ((honly j).mp hold)

section Update
variable {κ : Type*} [DecidableEq ι] {pcs : ι → κ} {P : κ → Prop} {i : ι} {pc : κ}

theorem update_iff (same : P pc ↔ P (pcs i)) (j : ι) :
    P (Function.update pcs i pc j) ↔ P (pcs j) := by
  by_cases hj : j = i
  · subst hj
    rw [Function.update_self]
    exact same
  · rw [Function.update_of_ne hj]

/-- A step of one party that neither wins nor acts. -/
theorem keep (h : Elected taken (fun j => P (pcs j)) done) (same : P pc ↔ P (pcs i)) :
    Elected taken (fun j => P (Function.update pcs i pc j)) done :=
  h.congr (update_iff same)

theorem winUpdate (h : Elected taken (fun j => P (pcs j)) done) (free : ¬ taken) (ht : taken')
    (hpc : P pc) : Elected taken' (fun j => P (Function.update pcs i pc j)) done := by
  refine h.win free ht (i := i) fun j => ?_
  by_cases hj : j = i
  · subst hj
    simpa using hpc
  · simpa [Function.update_of_ne hj, hj] using (h.vacant free).2 j

theorem actUpdate (h : Elected taken (fun j => P (pcs j)) done) (hi : P (pcs i)) (hpc : ¬ P pc) :
    Elected taken (fun j => P (Function.update pcs i pc j)) (done + 1) := by
  refine h.act hi fun j hj => ?_
  by_cases hne : j = i
  · subst hne
    exact absurd (by simpa using hj) hpc
  · rw [Function.update_of_ne hne] at hj
    exact ⟨hj, hne⟩

end Update

end Elected

end LlingrDemux.Shared
