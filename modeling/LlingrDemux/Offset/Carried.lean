import LlingrDemux.Offset.Calls

/-!
# What the committer leaves alone on a work item

Between ingestion and retirement the committer writes four things on a work item: three
traits and the watermark time. A property that none of them touches, and that every ingested
item has, is a property of every retired item.
-/

namespace LlingrDemux.Offset

open Shared
set_option autoImplicit false

variable {T : Type}

/-- The property does not depend on what the committer writes. -/
structure Carried (P : WorkItem T → Prop) : Prop where
  setOrphaned : ∀ w, P w → P w.setOrphaned
  setCommitBuffered : ∀ w, P w → P w.setCommitBuffered
  setFirstAfterRebalance : ∀ w, P w → P w.setFirstAfterRebalance
  setWatermarkAdvanceTime : ∀ w now, P w → P (w.setWatermarkAdvanceTime now)

namespace Carried
variable {P : WorkItem T → Prop}

theorem orphanedAt (hP : Carried P) {w : WorkItem T} (h : P w) (now : Int) :
    P (orphanedAt w now) :=
  hP.setWatermarkAdvanceTime _ now (hP.setOrphaned w h)

theorem markFirst (hP : Carried P) {w : WorkItem T} (h : P w) :
    P (OffsetsTracker.markFirst w) := by
  unfold OffsetsTracker.markFirst
  split_ifs
  · exact hP.setFirstAfterRebalance w h
  · exact h

theorem map_setOrphaned (hP : Carried P) {l : List (WorkItem T)} (h : ∀ w ∈ l, P w) :
    ∀ w ∈ l.map WorkItem.setOrphaned, P w := by
  intro w hw
  obtain ⟨x, hx, rfl⟩ := List.mem_map.mp hw
  exact hP.setOrphaned x (h x hx)

end Carried

namespace OffsetsTracker
variable {P : WorkItem T → Prop} {t : OffsetsTracker T}

structure Holds (P : WorkItem T → Prop) (t : OffsetsTracker T) : Prop where
  ready : ∀ w ∈ t.ready.toList, P w
  buffered : ∀ w ∈ t.gapBuffer, P w

theorem Holds.leaves_nil (h : t.Holds P) : Leaves (Holds P) P (t, []) := ⟨h, List.forall_mem_nil P⟩

theorem holds_ready {w : WorkItem T} (h : P w) : ∀ x ∈ (some w).toList, P x := by
  simpa using h

theorem checkAndAdvance_leaves (hP : Carried P) (h : t.Holds P) {w : WorkItem T} (hw : P w)
    (now : Int) : Leaves (Holds P) P (t.checkAndAdvance w now) := by
  have hbuffer : ∀ x ∈ t.gapBuffer ++ [w.setCommitBuffered], P x := by
    intro x hx
    rcases List.mem_append.mp hx with hx | hx
    · exact h.buffered x hx
    · rw [List.mem_singleton.mp hx]
      exact hP.setCommitBuffered w hw
  have hdated := holds_ready (hP.setWatermarkAdvanceTime w now hw)
  have horphaned : ∀ x ∈ [orphanedAt w now], P x := by simpa using hP.orphanedAt hw now
  unfold checkAndAdvance
  cases hr : t.ready with
  | none =>
    simp only
    split_ifs
    · rw [advanceThroughGapBuffer_eq]
      exact Holds.leaves_nil ⟨hdated, h.buffered⟩
    · exact ⟨h, horphaned⟩
    · exact Holds.leaves_nil ⟨h.ready, hbuffer⟩
    · exact Holds.leaves_nil ⟨h.ready, hbuffer⟩
  | some r =>
    simp only
    split_ifs
    · exact ⟨h, horphaned⟩
    · rw [advanceThroughGapBuffer_eq]
      refine ⟨⟨hdated, h.buffered⟩, ?_⟩
      simpa [hr] using h.ready
    · exact Holds.leaves_nil ⟨h.ready, hbuffer⟩

theorem processCommit_leaves (hP : Carried P) (o : Option (OffsetsTracker T))
    (h : ∀ t, o = some t → t.Holds P) {w : WorkItem T} (hw : P w) (now : Int) :
    Leaves (Holds P) P (processCommit o w now) := by
  refine checkAndAdvance_leaves hP ?_ (hP.markFirst hw) now
  cases o with
  | none =>
    rw [arrive, raiseFromFirst_eq]
    exact ⟨List.forall_mem_nil P, List.forall_mem_nil P⟩
  | some t =>
    obtain ⟨lo, hi, heq⟩ := arrive_some_eq t w
    rw [heq]
    exact ⟨(h t rfl).ready, (h t rfl).buffered⟩

theorem walk_leaves (hP : Carried P) (cpo last now : Int) (ready : Option (WorkItem T))
    (l : List (WorkItem T)) (hready : ∀ w ∈ ready.toList, P w) (hl : ∀ w ∈ l, P w) :
    (∀ w ∈ (walk cpo last now ready l).ready.toList, P w) ∧
      (∀ w ∈ (walk cpo last now ready l).retired, P w) ∧
      ∀ w ∈ (walk cpo last now ready l).rest, P w := by
  fun_induction walk cpo last now ready l with
  | case1 ready => exact ⟨hready, by simp, by simp⟩
  | case2 g gs hlt q ih =>
    obtain ⟨hg, hgs⟩ := List.forall_mem_cons.mp hl
    obtain ⟨h1, h2, h3⟩ := ih hready hgs
    exact ⟨h1, List.forall_mem_cons.mpr ⟨hP.orphanedAt hg now, h2⟩, h3⟩
  | case3 g gs hge hinit ih =>
    obtain ⟨hg, hgs⟩ := List.forall_mem_cons.mp hl
    exact ih (holds_ready (hP.setWatermarkAdvanceTime g now hg)) hgs
  | case4 g gs => exact ⟨hready, by simp, hl⟩
  | case5 r g gs hle q ih =>
    obtain ⟨hg, hgs⟩ := List.forall_mem_cons.mp hl
    obtain ⟨h1, h2, h3⟩ := ih hready hgs
    exact ⟨h1, List.forall_mem_cons.mpr ⟨hP.orphanedAt hg now, h2⟩, h3⟩
  | case6 r g gs hlt hlink q ih =>
    obtain ⟨hg, hgs⟩ := List.forall_mem_cons.mp hl
    obtain ⟨h1, h2, h3⟩ := ih (holds_ready (hP.setWatermarkAdvanceTime g now hg)) hgs
    exact ⟨h1, List.forall_mem_cons.mpr ⟨by simpa using hready, h2⟩, h3⟩
  | case7 r g gs => exact ⟨hready, by simp, hl⟩

theorem flush_leaves (hP : Carried P) (slices : SortFunc (WorkItem T)) (h : t.Holds P) (now : Int) :
    Leaves (Holds P) P (t.flush slices now) := by
  unfold flush
  split_ifs
  · exact h.leaves_nil
  · exact Holds.leaves_nil ⟨h.ready, h.buffered⟩
  · obtain ⟨h1, h2, h3⟩ := walk_leaves hP t.committedPlusOne t.lastCommittedOffset now t.ready
      (sortGapBuffer slices t.gapBuffer) h.ready
      fun w hw => h.buffered w (mem_of_mem_sortGapBuffer slices t.gapBuffer hw)
    exact ⟨⟨h1, h3⟩, h2⟩

theorem repairSuccessor_leaves (hP : Carried P) (h : t.Holds P) (now : Int) :
    Leaves (Holds P) P (t.repairSuccessor now) := by
  unfold repairSuccessor
  split_ifs
  · exact h.leaves_nil
  · split
    · exact h.leaves_nil
    · rename_i s hs
      have hPs := h.buffered s (findSuccessor_some hs).1
      refine ⟨⟨holds_ready (hP.setWatermarkAdvanceTime s now hPs), ?_⟩, ?_⟩
      · exact fun w hw => h.buffered w (List.mem_of_mem_filter hw)
      · intro w hw
        obtain ⟨g, hg, rfl⟩ := List.mem_map.mp hw
        exact hP.orphanedAt (h.buffered g (List.mem_of_mem_filter hg)) now

theorem collectCommit_leaves (hP : Carried P) (h : t.Holds P) (assigned : Bool) (now : Int) :
    Leaves (Holds P) P ((t.collectCommit assigned now).1, (t.collectCommit assigned now).2.1) := by
  cases assigned with
  | false =>
    simp only [collectCommit, discardOrphanedTracker, Bool.not_false, if_true]
    split_ifs
    · exact h.leaves_nil
    · refine ⟨⟨List.forall_mem_nil P, List.forall_mem_nil P⟩, fun w hw => ?_⟩
      rcases List.mem_append.mp hw with hw | hw
      · exact hP.map_setOrphaned h.ready w hw
      · exact hP.map_setOrphaned h.buffered w hw
  | true =>
    have hrepair := repairSuccessor_leaves hP h now
    apply collectCommit_rule t now hrepair
    intro w hr
    refine ⟨⟨List.forall_mem_nil P, hrepair.tracker.buffered⟩, fun v hv => ?_⟩
    rcases List.mem_append.mp hv with hv | hv
    · exact hrepair.retired v hv
    · rw [List.mem_singleton.mp hv]
      exact hP.setOrphaned w (hrepair.tracker.ready w (by simp [hr]))

theorem tick_leaves (hP : Carried P) (slices : SortFunc (WorkItem T)) (h : t.Holds P)
    (assigned : Bool) (k : PartitionTick) :
    Leaves (Holds P) P ((t.tick slices assigned k).1, t.tickRetired slices assigned k) := by
  have hflush := flush_leaves hP slices h k.flushTime
  have hcollect := collectCommit_leaves hP hflush.tracker assigned k.repairTime
  have hretired : ∀ w ∈ (t.flush slices k.flushTime).2 ++
      ((t.flush slices k.flushTime).1.collectCommit assigned k.repairTime).2.1, P w :=
    fun w hw => (List.mem_append.mp hw).elim (hflush.retired w) (hcollect.retired w)
  apply tick_rule slices k t ⟨hcollect.tracker, hretired⟩
  intro offset
  refine ⟨⟨List.forall_mem_nil P, hcollect.tracker.buffered⟩, fun w hw => ?_⟩
  rcases List.mem_append.mp hw with hw | hw
  · exact hretired w hw
  · exact hcollect.tracker.ready w hw

theorem resetCommittedOffset_leaves (hP : Carried P) (o : Option (OffsetsTracker T))
    (h : ∀ t, o = some t → t.Holds P) (committedOffset : Int) :
    Leaves (Holds P) P (resetCommittedOffset o committedOffset) := by
  cases o with
  | none => exact Holds.leaves_nil ⟨List.forall_mem_nil P, List.forall_mem_nil P⟩
  | some t =>
    obtain ⟨hready, hbuffered⟩ := h t rfl
    have hfilter : ∀ (q : WorkItem T → Bool), ∀ x ∈ (t.ready.filter q).toList, P x :=
      fun q x hx => hready x (Option.mem_toList.mpr
        (Option.eq_some_of_filter_eq_some (Option.mem_toList.mp hx)))
    refine ⟨⟨fun w hw => ?_, fun w hw => ?_⟩, fun w hw => ?_⟩
    · simp only [resetCommittedOffset] at hw
      split at hw
      · cases hw
      · exact hfilter _ w hw
    · simp only [resetCommittedOffset] at hw
      split at hw
      · cases hw
      · exact hbuffered w hw
    · simp only [resetCommittedOffset] at hw
      rcases List.mem_append.mp hw with hw | hw
      · exact hP.map_setOrphaned (hfilter _) w hw
      · split at hw
        · rcases List.mem_append.mp hw with hw | hw
          · exact hP.map_setOrphaned (hfilter _) w hw
          · exact hP.map_setOrphaned hbuffered w hw
        · cases hw

end OffsetsTracker

theorem Slice.Keeps.carried {P : WorkItem T → Prop} {s : Slice T} (hP : Carried P)
    (h : s.Keeps (OffsetsTracker.Holds P) P) (slices : SortFunc (WorkItem T)) (p : Int)
    {call : Call T} (ingested : ∀ w ∈ call.ingested, P w) :
    (s.step slices p call).Keeps (OffsetsTracker.Holds P) P := by
  refine h.step slices p call ?_ ?_ ?_ ?_ (fun t ht => ⟨ht.ready, ht.buffered⟩)
  · rintro w now rfl
    exact OffsetsTracker.processCommit_leaves hP _ h.tracker (ingested w List.mem_cons_self) now
  · exact fun order now t _ ht => OffsetsTracker.flush_leaves hP slices (h.tracker t ht) now
  · exact fun k t _ _ ht => OffsetsTracker.tick_leaves hP slices (h.tracker t ht) s.assigned _
  · exact fun l r _ _ _ => OffsetsTracker.resetCommittedOffset_leaves hP _ h.tracker r.2

/-- What every ingested item has and the committer does not write, every retired item has. -/
theorem History.carried {slices : SortFunc (WorkItem T)} {allowed : Committer T → Call T → Prop}
    {h : History T} (hr : (callSystem slices allowed).Reachable h)
    (legal : ∀ c call, allowed c call → call.Legal c) {P : WorkItem T → Prop} (hP : Carried P)
    (ingested : ∀ w ∈ h.ingested, P w) : ∀ w ∈ h.committer.collected, P w := by
  have hslices : (∀ w ∈ h.ingested, P w) → ∀ p,
      (h.committer.slice p).Keeps (OffsetsTracker.Holds P) P := by
    refine System.invariant (P := fun h : History T => (∀ w ∈ h.ingested, P w) →
      ∀ p, (h.committer.slice p).Keeps (OffsetsTracker.Holds P) P) ?_ ?_ h hr
    · rintro _ rfl _ p
      exact .empty
    · rintro h _ hreach ih ⟨call, hallowed, rfl⟩ hin p
      rw [History.record_ingested] at hin
      obtain ⟨hbefore, hcall⟩ := List.forall_mem_append.mp hin
      simp only [History.record]
      rw [Committer.run_slice (Committer.Keyed.of_reachable hreach) slices (legal _ _ hallowed) p]
      exact (ih hbefore p).carried hP slices p hcall
  intro w hw
  exact (hslices ingested w.partition).collected w (List.mem_filter.mpr ⟨hw, by simp⟩)

end LlingrDemux.Offset
