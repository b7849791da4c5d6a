import Mathlib.Logic.Relation
import Mathlib.Order.OrderIsoNat
import Mathlib.Tactic.Common

/-!
# Step systems and their invariants

A step system is a set of initial states with a step relation; its runs are the
reflexive transitive closure. An invariant is proved once for the initial states
and once for a step, and a preorder that every step respects is respected by
every run. A rank that every step lowers bounds the number of steps to a goal.
-/

namespace LlingrDemux.Shared

set_option autoImplicit false

universe u
variable {σ : Type u}

structure System (σ : Type u) where
  init : σ → Prop
  step : σ → σ → Prop

namespace System
variable (M : System σ)

def Run : σ → σ → Prop := Relation.ReflTransGen M.step

def Reachable (s : σ) : Prop := ∃ s₀, M.init s₀ ∧ M.Run s₀ s

variable {M} {s t : σ}

theorem Reachable.init (h : M.init s) : M.Reachable s := ⟨s, h, .refl⟩

theorem Reachable.step (hs : M.Reachable s) (h : M.step s t) : M.Reachable t := by
  obtain ⟨s₀, h0, hr⟩ := hs
  exact ⟨s₀, h0, hr.tail h⟩

theorem Reachable.run (hs : M.Reachable s) (h : M.Run s t) : M.Reachable t := by
  obtain ⟨s₀, h0, hr⟩ := hs
  exact ⟨s₀, h0, hr.trans h⟩

/-- The invariant rule: initially true and kept by every step from a reachable state. -/
theorem invariant {P : σ → Prop} (initial : ∀ s, M.init s → P s)
    (preserved : ∀ s t, M.Reachable s → P s → M.step s t → P t) :
    ∀ s, M.Reachable s → P s := by
  rintro s ⟨s₀, h0, hr⟩
  induction hr with
  | refl => exact initial s₀ h0
  | @tail b c hb hstep ih => exact preserved b c ⟨s₀, h0, hb⟩ ih hstep

/-- A property of a suffix of a run, kept by every step from a reachable state. -/
theorem run_invariant {P : σ → Prop} (hs : M.Reachable s) (hP : P s)
    (preserved : ∀ a b, M.Reachable a → P a → M.step a b → P b)
    (h : M.Run s t) : P t := by
  induction h with
  | refl => exact hP
  | @tail b c hb hstep ih => exact preserved b c (hs.run hb) ih hstep

/-- A quantity that no step from a reachable state decreases is not decreased by a run. -/
theorem run_monotone {β : Type*} [Preorder β] (f : σ → β)
    (mono : ∀ a b, M.Reachable a → M.step a b → f a ≤ f b)
    (hs : M.Reachable s) (h : M.Run s t) : f s ≤ f t := by
  refine run_invariant (P := fun b => f s ≤ f b) hs le_rfl ?_ h
  intro a b ha hle hstep
  exact hle.trans (mono a b ha hstep)

end System

/-- A chain of `n` steps of a relation. -/
inductive Steps (R : σ → σ → Prop) : Nat → σ → σ → Prop where
  | refl (s : σ) : Steps R 0 s s
  | head {n : Nat} {s t u : σ} (step : R s t) (rest : Steps R n t u) : Steps R (n + 1) s u

/-- The rank rule: where every step keeps the goal or lowers the rank, and rank `0` is the
goal, as many steps as the rank says reach the goal. -/
theorem Steps.reaches {R : σ → σ → Prop} {I G : σ → Prop} {rank : σ → Nat}
    (keep : ∀ s t, I s → R s t → I t)
    (progress : ∀ s t, I s → R s t → G t ∨ (¬ G s ∧ rank t < rank s))
    (goal : ∀ s, I s → rank s = 0 → G s) {n : Nat} {s t : σ} (h : Steps R n s t) (hs : I s)
    (hn : G s ∨ rank s ≤ n) : G t := by
  induction h with
  | refl s =>
    rcases hn with hn | hn
    · exact hn
    · exact goal s hs (Nat.le_zero.mp hn)
  | @head n s t u step rest ih =>
    apply ih (keep s t hs step)
    rcases progress s t hs step with hg | ⟨hnot, hlt⟩
    · exact .inl hg
    · right
      rcases hn with hn | hn
      · exact absurd hn hnot
      · omega

/-- A run with `n` steps of one kind and any number of another between them. -/
inductive Rounds (R Q : σ → σ → Prop) : Nat → σ → σ → Prop where
  | refl (s : σ) : Rounds R Q 0 s s
  | head {n : Nat} {s t u : σ} (step : R s t) (rest : Rounds R Q n t u) : Rounds R Q (n + 1) s u
  | idle {n : Nat} {s t u : σ} (step : Q s t) (rest : Rounds R Q n t u) : Rounds R Q n s u

namespace Rounds
variable {R Q : σ → σ → Prop} {I : σ → Prop} {n : Nat} {s t : σ}

theorem keep (keep : ∀ s t, I s → R s t ∨ Q s t → I t) (h : Rounds R Q n s t) (hs : I s) : I t := by
  induction h with
  | refl s => exact hs
  | head step rest ih => exact ih (keep _ _ hs (.inl step))
  | idle step rest ih => exact ih (keep _ _ hs (.inr step))

end Rounds

end LlingrDemux.Shared
