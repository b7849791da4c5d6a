import LlingrDemux.Offset.Projection

/-!
# What the committer's own work leaves alone

A flush and a tick change neither which partitions are assigned nor the ownership mark
of a tracker. No tracker appears or disappears under them, and none receives a work
item that it did not hold.
-/

namespace LlingrDemux.Offset

open Shared OffsetsTracker
set_option autoImplicit false

variable {T : Type}

namespace OffsetsTracker

section Assignment
variable (slices : SortFunc (WorkItem T)) (t : OffsetsTracker T) (w : WorkItem T) (now : Int)

theorem processCommit_assignment :
    (processCommit (some t) w now).1.assignment = t.assignment := by
  obtain ⟨lo, hi, harrive⟩ := arrive_some_eq t w
  obtain ⟨_, _, _, heq⟩ := checkAndAdvance_eq (arrive (some t) w) (markFirst w) now
  rw [OffsetsTracker.processCommit, heq, harrive]

theorem flush_assignment : (t.flush slices now).1.assignment = t.assignment := by
  obtain ⟨_, _, _, heq⟩ := flush_eq slices t now
  rw [heq]

theorem collectCommit_assignment (assigned : Bool) :
    (t.collectCommit assigned now).1.assignment = t.assignment := by
  cases assigned with
  | false =>
    simp only [collectCommit, Bool.not_false, if_true]
    unfold discardOrphanedTracker
    split_ifs
    · rfl
    · rfl
  | true =>
    obtain ⟨_, _, _, hrepair⟩ := repairSuccessor_eq t now
    rcases collectCommit_cases t now with ⟨_, heq, _⟩ | ⟨_, _, _, heq, _⟩ | ⟨_, _, _, heq, _⟩
    · rw [heq, hrepair]
    · rw [heq, hrepair]
    · rw [heq, hrepair]

theorem tick_assignment (assigned : Bool) (k : PartitionTick) :
    (t.tick slices assigned k).1.assignment = t.assignment := by
  have hcollect := (collectCommit_assignment (t.flush slices k.flushTime).1 k.repairTime
    assigned).trans (flush_assignment slices t k.flushTime)
  exact tick_rule (P := fun q => q.1.assignment = t.assignment) slices k t hcollect
    fun _ => hcollect

end Assignment

theorem tick_allItems {Q : WorkItem.Stamp → Prop} {t : OffsetsTracker T} (h : AllItems Q t)
    (slices : SortFunc (WorkItem T)) (assigned : Bool) (k : PartitionTick) :
    AllItems Q (t.tick slices assigned k).1 := by
  have hcollect := (collectCommit_keeps (flush_allItems slices h k.flushTime) assigned
    k.repairTime).items
  exact tick_rule (P := fun q => AllItems Q q.1) slices k t hcollect
    (acceptCommit_allItems hcollect)

/-- An offered item was in the tracker. -/
theorem tick_offered {Q : WorkItem.Stamp → Prop} {t : OffsetsTracker T} (h : AllItems Q t)
    (slices : SortFunc (WorkItem T)) {assigned : Bool} {k : PartitionTick} {m : WorkItem T}
    (hm : (t.tick slices assigned k).2 = some m) : assigned = true ∧ Q m.stamp := by
  have hcollect := (collectCommit_keeps (flush_allItems slices h k.flushTime) assigned
    k.repairTime).items
  cases hoff : ((t.flush slices k.flushTime).1.collectCommit assigned k.repairTime).2.2 with
  | none =>
    rw [tick_of_none slices k t hoff] at hm
    cases hm
  | some w =>
    rw [tick_of_some slices k t hoff, Option.some.injEq] at hm
    subst hm
    refine ⟨?_, hcollect.ready w (Committer.collectCommit_offered (Option.mem_def.mpr hoff))⟩
    cases assigned with
    | false => simp [collectCommit] at hoff
    | true => rfl

end OffsetsTracker

namespace Committer

/-- `c'` holds the same trackers under the same owners, with no work item that was not there. -/
structure Preserves (c c' : Committer T) : Prop where
  keyed : c'.Keyed
  assigned : c'.assigned = c.assigned
  tracker : ∀ p t, c.partitionMap p = some t → ∃ t', c'.partitionMap p = some t' ∧
    t'.assignment = t.assignment ∧ ∀ Q, AllItems Q t → AllItems Q t'
  absent : ∀ p, c.partitionMap p = none → c'.partitionMap p = none

variable {c c' : Committer T}

theorem Preserves.of_entry (hk : c'.Keyed) {f : Int → OffsetsTracker T → OffsetsTracker T}
    (he : ∀ p, c'.entry p = ((c.partitionMap p).map (f p), c.assigned p))
    (hf : ∀ p t, (f p t).assignment = t.assignment ∧ ∀ Q, AllItems Q t → AllItems Q (f p t)) :
    c.Preserves c' where
  keyed := hk
  assigned := by
    funext p
    exact congrArg Prod.snd (he p)
  tracker := by
    intro p t ht
    refine ⟨f p t, ?_, hf p t⟩
    have hmap : c'.partitionMap p = (c.partitionMap p).map (f p) := congrArg Prod.fst (he p)
    rw [hmap, ht, Option.map_some]
  absent := by
    intro p hp
    have hmap : c'.partitionMap p = (c.partitionMap p).map (f p) := congrArg Prod.fst (he p)
    rw [hmap, hp, Option.map_none]

section
variable (slices : SortFunc (WorkItem T))

theorem preserves_flushGapBuffers (h : c.Keyed) {order : List Int} (ho : c.Iterates order)
    (now : Int) : c.Preserves (c.flushGapBuffers slices order now) := by
  apply Preserves.of_entry (h.flushGapBuffers slices now order)
    (flushGapBuffers_entry slices now h ho)
  intro p t
  exact ⟨flush_assignment slices t now, fun Q hQ => flush_allItems slices hQ now⟩

theorem preserves_commitOffsets (h : c.Keyed) {k : Tick} (hf : c.Iterates k.flushOrder)
    (hc : c.Iterates k.commitOrder) : c.Preserves (c.commitOffsets slices k).committer := by
  cases hg : k.guardAcquired with
  | false =>
    have hsame : (c.commitOffsets slices k).committer = c := by simp [commitOffsets, hg]
    rw [hsame]
    exact ⟨h, rfl, fun p t ht => ⟨t, ht, rfl, fun _ hQ => hQ⟩, fun _ hp => hp⟩
  | true =>
    apply Preserves.of_entry (h.commitOffsets slices k)
      (fun p => (commitOffsets_entry slices k h hg hf hc p).1)
    intro p t
    exact ⟨tick_assignment slices t _ _, fun Q hQ => tick_allItems hQ slices _ _⟩

/-- A sent item belongs to an assigned partition and was held by its tracker. -/
theorem sent_of_tick (h : c.Keyed) {k : Tick} (hf : c.Iterates k.flushOrder)
    (hc : c.Iterates k.commitOrder) {m : WorkItem T} (hm : m ∈ (c.commitOffsets slices k).sent) :
    c.assigned m.partition = true ∧ ∃ t, c.partitionMap m.partition = some t ∧
      ∀ Q, AllItems Q t → Q m.stamp := by
  have hg : k.guardAcquired = true := by
    cases hg : k.guardAcquired with
    | false => simp [commitOffsets, hg] at hm
    | true => rfl
  have hsent := (commitOffsets_entry slices k h hg hf hc m.partition).2
  have hmem : m ∈ ((c.commitOffsets slices k).sent.filter fun w => w.partition == m.partition) :=
    List.mem_filter.mpr ⟨hm, by simp⟩
  rw [hsent, Option.mem_toList, Option.bind_eq_some_iff] at hmem
  obtain ⟨t, ht, htick⟩ := hmem
  refine ⟨(tick_offered (Q := fun _ => True) ⟨by simp, by simp⟩ slices htick).1, t, ht, ?_⟩
  intro Q hQ
  exact (tick_offered hQ slices htick).2

end

end Committer

end LlingrDemux.Offset
