import LlingrDemux.Shared.System

/-!
# Simulation between step systems

One system simulates another along a relation of their states when related states start
together and every step of the first is matched by a run, possibly empty, of the second. What
is known of every reachable state of the second then speaks of the first.
-/

namespace LlingrDemux.Shared

set_option autoImplicit false

universe u v
variable {σ : Type u} {τ : Type v}

namespace System

structure Simulates (M : System σ) (N : System τ) (R : σ → τ → Prop) : Prop where
  initial : ∀ s, M.init s → ∃ t, N.init t ∧ R s t
  step : ∀ s s' t, M.Reachable s → N.Reachable t → R s t → M.step s s' → ∃ t', N.Run t t' ∧ R s' t'

namespace Simulates
variable {M : System σ} {N : System τ} {R : σ → τ → Prop} {s s' : σ} {t : τ}

theorem run (h : M.Simulates N R) (hs : M.Reachable s) (ht : N.Reachable t) (hR : R s t)
    (hrun : M.Run s s') : ∃ t', N.Run t t' ∧ R s' t' := by
  induction hrun with
  | refl => exact ⟨t, .refl, hR⟩
  | @tail a b ha hstep ih =>
    obtain ⟨t₁, hrun₁, hR₁⟩ := ih
    obtain ⟨t₂, hrun₂, hR₂⟩ := h.step a b t₁ (hs.run ha) (ht.run hrun₁) hR₁ hstep
    exact ⟨t₂, hrun₁.trans hrun₂, hR₂⟩

theorem reachable (h : M.Simulates N R) (hs : M.Reachable s) : ∃ t, N.Reachable t ∧ R s t := by
  obtain ⟨s₀, h0, hrun⟩ := hs
  obtain ⟨t₀, ht₀, hR₀⟩ := h.initial s₀ h0
  obtain ⟨t, hrun', hR⟩ := h.run (.init h0) (.init ht₀) hR₀ hrun
  exact ⟨t, (Reachable.init ht₀).run hrun', hR⟩

end Simulates

end System

end LlingrDemux.Shared
