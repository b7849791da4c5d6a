import Mathlib.Logic.Function.Basic
import Mathlib.Tactic.Common

/-!
# Predecessor tracking

`prev.PartitionOffsets`: the offset accepted last on each partition since its last
reset. `GetPrevious` stamps a record with it and rejects negative, duplicate and
regressing offsets; `Reset` without arguments forgets every partition.
-/

namespace LlingrDemux.Prev

set_option autoImplicit false

/-- The wrapped errors of `GetPrevious` with the values their texts carry. -/
inductive OffsetError where
  | negativeOffset (partitionOffset partition : Int)
  | duplicateOffset (partitionOffset partition : Int)
  | offsetRegression (prevOffset partitionOffset partition : Int)
  deriving DecidableEq, Repr

structure PartitionOffsets where
  prevOffsets : Int → Option Int := fun _ => none

namespace PartitionOffsets

/-- The new tracker with `(prevOffset, isFirst)` or the error. -/
def getPrevious (s : PartitionOffsets) (partition partitionOffset : Int) :
    PartitionOffsets × Except OffsetError (Int × Bool) :=
  if partitionOffset < 0 then
    (s, .error (.negativeOffset partitionOffset partition))
  else
    match s.prevOffsets partition with
    | none =>
      (⟨Function.update s.prevOffsets partition (some partitionOffset)⟩,
        .ok (partitionOffset - 1, true))
    | some prevOffset =>
      if partitionOffset > prevOffset then
        (⟨Function.update s.prevOffsets partition (some partitionOffset)⟩, .ok (prevOffset, false))
      else if partitionOffset = prevOffset then
        (s, .error (.duplicateOffset partitionOffset partition))
      else (s, .error (.offsetRegression prevOffset partitionOffset partition))

/-- `Reset(partitions...)`: all partitions when none is named. -/
def reset (s : PartitionOffsets) (partitions : List Int) : PartitionOffsets :=
  if partitions = [] then {}
  else ⟨fun p => if p ∈ partitions then none else s.prevOffsets p⟩

variable {s s' : PartitionOffsets} {partition offset prev : Int} {first : Bool}

/-- An accepted call is the first since the reset, or lies above the offset it is stamped with. -/
theorem getPrevious_ok (h : s.getPrevious partition offset = (s', .ok (prev, first))) :
    0 ≤ offset ∧ s'.prevOffsets = Function.update s.prevOffsets partition (some offset) ∧
      ((s.prevOffsets partition = none ∧ prev = offset - 1 ∧ first = true) ∨
        (s.prevOffsets partition = some prev ∧ prev < offset ∧ first = false)) := by
  unfold getPrevious at h
  split at h
  · simp at h
  · rename_i hneg
    refine ⟨Int.not_lt.mp hneg, ?_⟩
    split at h
    · rename_i hnone
      simp only [Prod.mk.injEq, Except.ok.injEq] at h
      obtain ⟨rfl, rfl, rfl⟩ := h
      exact ⟨rfl, .inl ⟨hnone, rfl, rfl⟩⟩
    · rename_i last hsome
      split at h
      · rename_i hgt
        simp only [Prod.mk.injEq, Except.ok.injEq] at h
        obtain ⟨rfl, rfl, rfl⟩ := h
        exact ⟨rfl, .inr ⟨hsome, hgt, rfl⟩⟩
      · split at h <;> simp at h

@[simp] theorem reset_singleton_same (s : PartitionOffsets) (p : Int) :
    (s.reset [p]).prevOffsets p = none := by
  simp [reset]

end PartitionOffsets

end LlingrDemux.Prev
