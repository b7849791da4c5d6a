import LlingrDemux.Shared.System
import Mathlib.Logic.Function.Basic

/-!
# Goroutines that share data behind a mutex

The code of a goroutine says what it does outside the mutex, where it locks and unlocks, and
what it does to the data in between. The rule is the one for monitors: an invariant of the data
for the times at which the mutex is free, and for every place in a critical section what the
goroutine there knows of the data. Both are proved for one goroutine at a time.
-/

namespace LlingrDemux.Shared

set_option autoImplicit false

universe u v w x
variable {σ : Type u} {γ : Type v} {Pc : Type w} {ι : Type x}

/-- Code over the data `σ` behind the mutex and the channels `γ` that need none. -/
structure MutexCode (σ : Type u) (γ : Type v) (Pc : Type w) where
  held : Pc → Prop
  outside : Pc → γ → Pc → γ → Prop
  lock : Pc → Pc → Prop
  inside : Pc → γ → σ → Pc → γ → σ → Prop
  unlock : Pc → Pc → Prop
  outside_held : ∀ {pc c pc' c'}, outside pc c pc' c' → ¬ held pc ∧ ¬ held pc'
  lock_held : ∀ {pc pc'}, lock pc pc' → ¬ held pc ∧ held pc'
  inside_held : ∀ {pc c d pc' c' d'}, inside pc c d pc' c' d' → held pc ∧ held pc'
  unlock_held : ∀ {pc pc'}, unlock pc pc' → held pc ∧ ¬ held pc'

structure Sharing (σ : Type u) (γ : Type v) (Pc : Type w) (ι : Type x) where
  data : σ
  channels : γ
  pcs : ι → Pc
  owner : Option ι := none

namespace MutexCode
variable [DecidableEq ι]

inductive Step (code : MutexCode σ γ Pc) : Sharing σ γ Pc ι → Sharing σ γ Pc ι → Prop where
  | outside (s : Sharing σ γ Pc ι) (i : ι) (pc : Pc) (c : γ)
      (move : code.outside (s.pcs i) s.channels pc c) :
      Step code s { s with channels := c, pcs := Function.update s.pcs i pc }
  | lock (s : Sharing σ γ Pc ι) (i : ι) (pc : Pc) (free : s.owner = none)
      (move : code.lock (s.pcs i) pc) :
      Step code s { s with pcs := Function.update s.pcs i pc, owner := some i }
  | inside (s : Sharing σ γ Pc ι) (i : ι) (pc : Pc) (c : γ) (d : σ)
      (move : code.inside (s.pcs i) s.channels s.data pc c d) :
      Step code s { s with data := d, channels := c, pcs := Function.update s.pcs i pc }
  | unlock (s : Sharing σ γ Pc ι) (i : ι) (pc : Pc) (move : code.unlock (s.pcs i) pc) :
      Step code s { s with pcs := Function.update s.pcs i pc, owner := none }

/-- All goroutines start at the place `start`. -/
def system (code : MutexCode σ γ Pc) (ι : Type x) [DecidableEq ι] (data : σ) (channels : γ)
    (start : Pc) : System (Sharing σ γ Pc ι) where
  init s := s = { data := data, channels := channels, pcs := fun _ => start }
  step := code.Step

variable {code : MutexCode σ γ Pc} {data : σ} {channels : γ} {start : Pc} {s : Sharing σ γ Pc ι}

/-- The goroutine in a critical section is the owner of the mutex. -/
theorem held_iff_owner (outside : ¬ code.held start)
    (h : (code.system ι data channels start).Reachable s) :
    ∀ i, code.held (s.pcs i) ↔ s.owner = some i := by
  refine System.invariant (P := fun s => ∀ i, code.held (s.pcs i) ↔ s.owner = some i) ?_ ?_ s h
  · intro s hs i
    obtain rfl := hs
    exact iff_of_false outside nofun
  · intro s s' _ ih step
    cases step with
    | outside i pc c move =>
      obtain ⟨hpc, hpc'⟩ := code.outside_held move
      refine (Function.forall_update_iff s.pcs fun j pc => code.held pc ↔ s.owner = some j).mpr ?_
      exact ⟨(iff_of_false hpc' hpc).trans (ih i), fun j _ => ih j⟩
    | inside i pc c d move =>
      obtain ⟨hpc, hpc'⟩ := code.inside_held move
      refine (Function.forall_update_iff s.pcs fun j pc => code.held pc ↔ s.owner = some j).mpr ?_
      exact ⟨(iff_of_true hpc' hpc).trans (ih i), fun j _ => ih j⟩
    | lock i pc free move =>
      refine (Function.forall_update_iff s.pcs fun j pc => code.held pc ↔ some i = some j).mpr ?_
      refine ⟨iff_of_true (code.lock_held move).2 rfl, ?_⟩
      intro j hj
      rw [ih j, free]
      exact iff_of_false nofun fun he => hj (Option.some.inj he).symm
    | unlock i pc move =>
      have howner := (ih i).mp (code.unlock_held move).1
      refine (Function.forall_update_iff s.pcs fun j pc => code.held pc ↔ none = some j).mpr ?_
      refine ⟨iff_of_false (code.unlock_held move).2 nofun, ?_⟩
      intro j hj
      rw [ih j, howner]
      exact iff_of_false (fun he => hj (Option.some.inj he).symm) nofun

/-- `inv` holds of the data while the mutex is free, `known` at each place behind the lock. -/
structure Monitor (code : MutexCode σ γ Pc) (inv : σ → Prop) (known : Pc → σ → Prop) : Prop where
  lock : ∀ {pc pc' d}, inv d → code.lock pc pc' → known pc' d
  inside : ∀ {pc c d pc' c' d'}, known pc d → code.inside pc c d pc' c' d' → known pc' d'
  unlock : ∀ {pc pc' d}, known pc d → code.unlock pc pc' → inv d

/-- The monitor rule. -/
theorem Monitor.of_reachable {inv : σ → Prop} {known : Pc → σ → Prop}
    (m : code.Monitor inv known) (outside : ¬ code.held start) (initial : inv data)
    (h : (code.system ι data channels start).Reachable s) :
    (s.owner = none → inv s.data) ∧ ∀ i, code.held (s.pcs i) → known (s.pcs i) s.data := by
  refine System.invariant (P := fun s : Sharing σ γ Pc ι => (s.owner = none → inv s.data) ∧
    ∀ i, code.held (s.pcs i) → known (s.pcs i) s.data) ?_ ?_ s h
  · intro s hs
    obtain rfl := hs
    exact ⟨fun _ => initial, fun _ hheld => absurd hheld outside⟩
  · intro s s' hreach ih step
    obtain ⟨hfree, hknown⟩ := ih
    have howner := held_iff_owner outside hreach
    -- nobody is behind the lock beside its owner
    have halone : ∀ {i j}, s.owner = some i → j ≠ i → ¬ code.held (s.pcs j) := by
      intro i j hi hj hheld
      exact hj (Option.some.inj (((howner j).mp hheld).symm.trans hi))
    cases step with
    | outside i pc c move =>
      refine ⟨hfree, (Function.forall_update_iff s.pcs
        fun _ pc => code.held pc → known pc s.data).mpr ⟨?_, fun j _ => hknown j⟩⟩
      exact fun hheld => absurd hheld (code.outside_held move).2
    | lock i pc free move =>
      refine ⟨nofun, (Function.forall_update_iff s.pcs
        fun _ pc => code.held pc → known pc s.data).mpr ⟨?_, fun j _ => hknown j⟩⟩
      exact fun _ => m.lock (hfree free) move
    | inside i pc c d move =>
      have hi := (howner i).mp (code.inside_held move).1
      refine ⟨fun hnone => (nomatch hi.symm.trans hnone), (Function.forall_update_iff s.pcs
        fun _ pc => code.held pc → known pc d).mpr ⟨?_, ?_⟩⟩
      · exact fun _ => m.inside (hknown i (code.inside_held move).1) move
      · exact fun j hj hheld => absurd hheld (halone hi hj)
    | unlock i pc move =>
      refine ⟨fun _ => m.unlock (hknown i (code.unlock_held move).1) move,
        (Function.forall_update_iff s.pcs
          fun _ pc => code.held pc → known pc s.data).mpr ⟨?_, fun j _ => hknown j⟩⟩
      exact fun hheld => absurd hheld (code.unlock_held move).2

end MutexCode

end LlingrDemux.Shared
