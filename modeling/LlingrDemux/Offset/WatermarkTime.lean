import LlingrDemux.Offset.Calls

/-!
# The watermark time of a retired work item

The committer stamps `WatermarkAdvanceTime` when an item becomes `Ready` and when it
recognises one as orphaned, and the metrics window computes the end-to-end duration from
it. Two sites retire items straight from the gap buffer without the stamp: the discard of
an unassigned partition's tracker and the reset after a revoke. Where those find the
buffer empty, every retired item is stamped.
-/

namespace LlingrDemux

/-- The watermark time has been set. -/
def WorkItem.Dated {T : Type} (w : WorkItem T) : Prop := w.metrics.watermarkAdvanceTime ≠ 0

namespace Offset

open Shared
set_option autoImplicit false

variable {T : Type}

theorem dated_orphanedAt {now : Int} (hnow : now ≠ 0) (w : WorkItem T) :
    (orphanedAt w now).Dated := hnow

namespace OffsetsTracker

/-- The `Ready` item left behind and every retired item are stamped. -/
structure Dates (r : OffsetsTracker T × List (WorkItem T)) : Prop where
  ready : ∀ w, r.1.ready = some w → w.Dated
  retired : ∀ w ∈ r.2, w.Dated

section
variable {t : OffsetsTracker T} {now : Int}

theorem checkAndAdvance_dates (h : ∀ r, t.ready = some r → r.Dated) (hnow : now ≠ 0)
    (w : WorkItem T) : Dates (t.checkAndAdvance w now) := by
  unfold checkAndAdvance
  cases hr : t.ready with
  | none =>
    simp only
    split_ifs
    · rw [advanceThroughGapBuffer_eq]
      exact ⟨by rintro _ ⟨⟩; exact hnow, by simp⟩
    · exact ⟨h, by simpa using dated_orphanedAt hnow w⟩
    · exact ⟨by simp [addToGapBuffer, hr], by simp⟩
    · exact ⟨by simp [addToGapBuffer, hr], by simp⟩
  | some r =>
    simp only
    split_ifs
    · exact ⟨h, by simpa using dated_orphanedAt hnow w⟩
    · rw [advanceThroughGapBuffer_eq]
      exact ⟨by rintro _ ⟨⟩; exact hnow, by simpa using h r hr⟩
    · exact ⟨by simpa [addToGapBuffer] using h, by simp⟩

theorem processCommit_dates (o : Option (OffsetsTracker T))
    (h : ∀ t, o = some t → ∀ r, t.ready = some r → r.Dated) (hnow : now ≠ 0) (w : WorkItem T) :
    Dates (processCommit o w now) := by
  apply checkAndAdvance_dates _ hnow
  cases o with
  | none =>
    rw [arrive, raiseFromFirst_eq]
    simp [ofFirstSeen]
  | some t =>
    obtain ⟨lo, hi, heq⟩ := arrive_some_eq t w
    rw [heq]
    exact h t rfl

theorem walk_dates (cpo last : Int) (hnow : now ≠ 0) (ready : Option (WorkItem T))
    (l : List (WorkItem T)) (hready : ∀ r, ready = some r → r.Dated) :
    (∀ r, (walk cpo last now ready l).ready = some r → r.Dated) ∧
      ∀ w ∈ (walk cpo last now ready l).retired, w.Dated := by
  fun_induction walk cpo last now ready l with
  | case1 ready => exact ⟨hready, by simp⟩
  | case2 g gs hlt q ih =>
    refine ⟨(ih hready).1, ?_⟩
    rw [List.forall_mem_cons]
    exact ⟨dated_orphanedAt hnow g, (ih hready).2⟩
  | case3 g gs hge hinit ih =>
    apply ih
    rintro _ ⟨⟩
    exact hnow
  | case4 g gs => exact ⟨hready, by simp⟩
  | case5 r g gs hle q ih =>
    refine ⟨(ih hready).1, ?_⟩
    rw [List.forall_mem_cons]
    exact ⟨dated_orphanedAt hnow g, (ih hready).2⟩
  | case6 r g gs hlt hlink q ih =>
    have hrest := ih (by rintro _ ⟨⟩; exact hnow)
    refine ⟨hrest.1, ?_⟩
    rw [List.forall_mem_cons]
    exact ⟨hready r rfl, hrest.2⟩
  | case7 r g gs => exact ⟨hready, by simp⟩

theorem flush_dates (slices : SortFunc (WorkItem T)) (h : ∀ r, t.ready = some r → r.Dated)
    (hnow : now ≠ 0) : Dates (t.flush slices now) := by
  unfold flush
  split_ifs
  · exact ⟨h, by simp⟩
  · exact ⟨h, by simp⟩
  · obtain ⟨h1, h2⟩ := walk_dates t.committedPlusOne t.lastCommittedOffset hnow t.ready
      (sortGapBuffer slices t.gapBuffer) h
    exact ⟨h1, h2⟩

theorem repairSuccessor_dates (h : ∀ r, t.ready = some r → r.Dated) (hnow : now ≠ 0) :
    Dates (t.repairSuccessor now) := by
  unfold repairSuccessor
  split_ifs
  · exact ⟨h, by simp⟩
  · split
    · exact ⟨h, by simp⟩
    · refine ⟨by rintro _ ⟨⟩; exact hnow, ?_⟩
      intro w hw
      obtain ⟨g, _, rfl⟩ := List.mem_map.mp hw
      exact dated_orphanedAt hnow g

/-- The loop body stamps whatever it retires, an unassigned partition's buffer apart. -/
theorem collectCommit_dates (h : ∀ r, t.ready = some r → r.Dated) (hnow : now ≠ 0)
    {assigned : Bool} (hbuffer : assigned = false → t.gapBuffer = []) :
    Dates ((t.collectCommit assigned now).1, (t.collectCommit assigned now).2.1) := by
  cases assigned with
  | false =>
    simp only [collectCommit, discardOrphanedTracker, Bool.not_false, if_true, hbuffer rfl,
      List.map_nil, List.append_nil]
    split_ifs
    · exact ⟨h, by simp⟩
    · refine ⟨by simp, ?_⟩
      intro w hw
      obtain ⟨r, hr, rfl⟩ := List.mem_map.mp hw
      exact h r (Option.mem_toList.mp hr)
  | true =>
    have hrepair := repairSuccessor_dates h hnow
    apply collectCommit_rule t now hrepair
    intro w hr
    refine ⟨by simp, ?_⟩
    intro v hv
    rcases List.mem_append.mp hv with hv | hv
    · exact hrepair.retired v hv
    · rw [List.mem_singleton.mp hv]
      exact hrepair.ready w hr

theorem tick_dates (slices : SortFunc (WorkItem T)) (h : ∀ r, t.ready = some r → r.Dated)
    {k : PartitionTick} (hflush : k.flushTime ≠ 0) (hrepair : k.repairTime ≠ 0) {assigned : Bool}
    (hbuffer : assigned = false → t.gapBuffer = []) :
    Dates ((t.tick slices assigned k).1, t.tickRetired slices assigned k) := by
  have hflushed := flush_dates slices h hflush
  have hempty : assigned = false → (t.flush slices k.flushTime).1.gapBuffer = [] := by
    intro ha
    unfold flush
    simp only [hbuffer ha, if_true]
    split_ifs
    · exact hbuffer ha
    · rfl
  have hcollect := collectCommit_dates hflushed.ready hrepair hempty
  have hretired : ∀ w ∈ (t.flush slices k.flushTime).2 ++
      ((t.flush slices k.flushTime).1.collectCommit assigned k.repairTime).2.1, w.Dated := by
    intro w hw
    rcases List.mem_append.mp hw with hw | hw
    · exact hflushed.retired w hw
    · exact hcollect.retired w hw
  apply tick_rule slices k t ⟨hcollect.ready, hretired⟩
  intro offset
  refine ⟨by simp [acceptCommit], ?_⟩
  intro w hw
  rcases List.mem_append.mp hw with hw | hw
  · exact hretired w hw
  · exact hcollect.ready w (Option.mem_toList.mp hw)

/-- A reset retires only `Ready` items, a buffer left behind by a revoke apart. -/
theorem resetCommittedOffset_dates (o : Option (OffsetsTracker T))
    (h : ∀ t, o = some t → ∀ r, t.ready = some r → r.Dated)
    (hbuffer : ∀ t, o = some t → t.assignment = .revoke → t.gapBuffer = [])
    (committedOffset : Int) : Dates (resetCommittedOffset o committedOffset) := by
  cases o with
  | none => exact ⟨by simp [resetCommittedOffset], by simp [resetCommittedOffset]⟩
  | some t =>
    have hfilter : ∀ (q : WorkItem T → Bool), ∀ x ∈ (t.ready.filter q).toList, x.Dated :=
      fun q x hx => h t rfl x (Option.eq_some_of_filter_eq_some (Option.mem_toList.mp hx))
    constructor
    · intro r hr
      simp only [resetCommittedOffset] at hr
      split at hr
      · cases hr
      · exact h t rfl r (Option.eq_some_of_filter_eq_some hr)
    · intro w hw
      simp only [resetCommittedOffset] at hw
      rcases List.mem_append.mp hw with hw | hw
      · obtain ⟨x, hx, rfl⟩ := List.mem_map.mp hw
        exact hfilter _ x hx
      · split at hw
        · rename_i hrevoked
          rw [hbuffer t rfl hrevoked, List.map_nil, List.append_nil] at hw
          obtain ⟨x, hx, rfl⟩ := List.mem_map.mp hw
          exact hfilter _ x hx
        · cases hw

end

end OffsetsTracker

/-- Every clock reading of the call is a real time, and a new item has none yet. -/
def Call.Timed : Call T → Prop
  | .processCommit w now => w.metrics.watermarkAdvanceTime = 0 ∧ now ≠ 0
  | .flushGapBuffers _ now => now ≠ 0
  | .commitOffsets k => k.flushTime ≠ 0 ∧ ∀ p ∈ k.commitOrder, k.repairTime p ≠ 0
  | _ => True

instance : (call : Call T) → Decidable call.Timed
  | .processCommit w now =>
    inferInstanceAs (Decidable (w.metrics.watermarkAdvanceTime = 0 ∧ now ≠ 0))
  | .flushGapBuffers _ now => inferInstanceAs (Decidable (now ≠ 0))
  | .commitOffsets k =>
    inferInstanceAs (Decidable (k.flushTime ≠ 0 ∧ ∀ p ∈ k.commitOrder, k.repairTime p ≠ 0))
  | .resetCommittedOffsets _ => isTrue trivial
  | .markPartitionAssigned _ => isTrue trivial
  | .markPartitionRevoked _ => isTrue trivial

/-- No buffered item is discarded straight from the buffer: a tick finds the buffers of
unassigned partitions empty, and a reset those of revoked trackers. -/
def Call.SparesBuffers (c : Committer T) : Call T → Prop
  | .commitOffsets k => k.guardAcquired = true → ∀ p t, c.partitionMap p = some t →
      c.assigned p = false → t.gapBuffer = []
  | .resetCommittedOffsets partitionOffsets => ∀ r ∈ partitionOffsets, ∀ t,
      c.partitionMap r.1 = some t → t.assignment = .revoke → t.gapBuffer = []
  | _ => True

/-- The `Ready` item of the partition and its collected items are stamped. -/
def Slice.Dated (s : Slice T) : Prop :=
  (∀ t, s.tracker = some t → ∀ r, t.ready = some r → r.Dated) ∧ ∀ w ∈ s.collected, w.Dated

theorem Slice.Dated.step {slices : SortFunc (WorkItem T)} {c : Committer T} {call : Call T} {p : Int}
    (h : (c.slice p).Dated) (legal : call.Legal c) (timed : call.Timed)
    (spares : call.SparesBuffers c) :
    ((c.slice p).step slices p call).Dated := by
  have hleaves : ∀ {r : OffsetsTracker T × List (WorkItem T)}, OffsetsTracker.Dates r →
      Leaves (fun t => ∀ w, t.ready = some w → w.Dated) WorkItem.Dated r :=
    fun hr => ⟨hr.ready, hr.retired⟩
  have hkeeps := Slice.Keeps.step ⟨h.1, h.2⟩ slices p call ?_ ?_ ?_ ?_ (fun t ht => ht)
  · exact ⟨hkeeps.tracker, hkeeps.collected⟩
  · rintro w now rfl
    exact hleaves (OffsetsTracker.processCommit_dates _ h.1 timed.2 w)
  · rintro order now t rfl ht
    exact hleaves (OffsetsTracker.flush_dates slices (h.1 t ht) timed)
  · rintro k t rfl hg ht
    have hvisited : p ∈ k.commitOrder := (legal.2.2 p).mpr (Option.isSome_of_eq_some ht)
    exact hleaves (OffsetsTracker.tick_dates slices (h.1 t ht) timed.1 (timed.2 p hvisited)
      (spares hg p t ht))
  · rintro l r rfl hr rfl
    exact hleaves (OffsetsTracker.resetCommittedOffset_dates _ h.1 (spares r hr) r.2)

/-- In every run in which no buffered item is discarded straight from the buffer, every
retired item is stamped, and every recorded duration is computed from a stamp. -/
theorem retired_items_dated {slices : SortFunc (WorkItem T)} {h : History T}
    (reachable : (callSystem slices fun c call =>
      call.Legal c ∧ call.Timed ∧ call.SparesBuffers c).Reachable h) :
    (∀ w ∈ h.committer.collected, w.metrics.watermarkAdvanceTime ≠ 0) ∧
      ∀ r ∈ h.committer.recorded, ∃ w ∈ h.committer.collected,
        w.metrics.watermarkAdvanceTime ≠ 0 ∧
        r.endToEnd = timeSub w.metrics.watermarkAdvanceTime w.metrics.readTime := by
  have hdated : ∀ w ∈ h.committer.collected, w.Dated := by
    intro w hw
    have hslice := History.slice_invariant (P := Slice.Dated) w.partition (fun _ _ ha => ha.1)
      ⟨by simp, by simp⟩ (fun c call ha hs => hs.step ha.1 ha.2.1 ha.2.2) reachable
    exact hslice.2 w (List.mem_filter.mpr ⟨hw, by simp⟩)
  refine ⟨hdated, ?_⟩
  intro r hr
  rw [Committer.recorded_eq reachable] at hr
  obtain ⟨w, hw, rfl⟩ := List.mem_map.mp hr
  exact ⟨w, hw, hdated w hw, rfl⟩

/-- A new item of partition 0. -/
def undatedItem (ptr : Nat) (offset previousOffset : Int) (first : Bool) : WorkItem Unit where
  ptr := ptr
  message := { partition := 0, offset := offset }
  metrics := { readTime := 5 }
  previousOffset := previousOffset
  first := first

/-- The second record replaces the first as `Ready`. -/
def datedHistory : History Unit :=
  [Call.processCommit (undatedItem 0 0 (-1) true) 10,
    Call.processCommit (undatedItem 1 1 0 false) 11].foldl
    (History.record (SortFunc.insertion (WorkItem Unit))) {}

theorem retired_items_dated_sample :
    datedHistory.committer.collected.map WorkItem.ptr = [0] ∧
      ∀ w ∈ datedHistory.committer.collected, w.metrics.watermarkAdvanceTime ≠ 0 := by
  refine ⟨by decide, (retired_items_dated (reachable_of_script 0
    (R := fun _ call => call.Timed ∧ call.ingested.length = 1) ?_ (by decide))).1⟩
  intro c call legal hR
  refine ⟨legal, hR.1, ?_⟩
  cases call with
  | processCommit w now => trivial
  | flushGapBuffers order now => trivial
  | commitOffsets k => simp [Call.ingested] at hR
  | resetCommittedOffsets l => simp [Call.ingested] at hR
  | markPartitionAssigned p => trivial
  | markPartitionRevoked p => trivial

/-- Record 7 waits in the buffer of a partition that is not assigned when the tick comes. -/
def strayHistory : History Unit :=
  [Call.processCommit (undatedItem 0 7 6 false) 10,
    Call.commitOffsets { flushOrder := [0], commitOrder := [0], flushTime := 11, repairTime := fun _ => 12 }
    ].foldl (History.record (SortFunc.insertion (WorkItem Unit))) {}

/-- The tick retires the buffered item without a stamp; its recorded duration is counted
from the zero time. -/
theorem stray_item_retired_undated :
    (callSystem (SortFunc.insertion (WorkItem Unit)) fun c call =>
      call.Legal c ∧ call.Timed).Reachable strayHistory ∧
    strayHistory.committer.collected.map (fun w => w.metrics.watermarkAdvanceTime) = [0] ∧
    strayHistory.committer.recorded.map MetricsRecord.endToEnd = [-5] :=
  ⟨reachable_of_script 0 (R := fun _ call => call.Timed) (fun _ _ legal timed => ⟨legal, timed⟩)
    (by decide), by decide, by decide⟩

end Offset

end LlingrDemux
