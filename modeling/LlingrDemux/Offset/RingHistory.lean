import LlingrDemux.Offset.RingBuffer
import LlingrDemux.Shared.Extremes
import Mathlib.Algebra.BigOperators.Group.List.Basic
import Mathlib.Algebra.Ring.Int.Defs
import Mathlib.Data.List.Induction

/-!
# The metrics window against a plain history

The abstract counterpart of the ring keeps every record with the epoch it counts for, and
reads the statistics of a window off the records of its epochs. `windowData` returns the
same, with the sums wrapped, for every gap between two records and every late one.
-/

namespace LlingrDemux.Offset

open Shared
set_option autoImplicit false

/-! ## What a bucket has accumulated -/

/-- The statistics of a list of records. -/
def Bucket.of (rs : List MetricsRecord) : Bucket where
  count := rs.length
  deadLetterCount := rs.countP MetricsRecord.deadLetter
  totalProcessNanos := int64 (rs.map MetricsRecord.processDuration).sum
  totalEndToEndNanos := int64 (rs.map MetricsRecord.endToEnd).sum
  maxProcessNanos := greatest (rs.map MetricsRecord.processDuration)
  maxEndToEndNanos := greatest (rs.map MetricsRecord.endToEnd)
  minEndToEndNanos := least (rs.map MetricsRecord.endToEnd)

/-- The durations for which a zero extreme means that there is no record. -/
structure MetricsRecord.Timed (r : MetricsRecord) : Prop where
  process : 0 ≤ r.processDuration
  endToEnd : 0 < r.endToEnd

section Timed
variable {rs qs : List MetricsRecord}

theorem processDurations_nonneg (h : ∀ r ∈ rs, r.Timed) :
    ∀ x ∈ rs.map MetricsRecord.processDuration, 0 ≤ x := by
  intro x hx
  obtain ⟨r, hr, rfl⟩ := List.mem_map.mp hx
  exact (h r hr).process

theorem endToEnds_pos (h : ∀ r ∈ rs, r.Timed) :
    ∀ x ∈ rs.map MetricsRecord.endToEnd, 0 < x := by
  intro x hx
  obtain ⟨r, hr, rfl⟩ := List.mem_map.mp hx
  exact (h r hr).endToEnd

theorem endToEnds_nonneg (h : ∀ r ∈ rs, r.Timed) :
    ∀ x ∈ rs.map MetricsRecord.endToEnd, 0 ≤ x :=
  fun x hx => (endToEnds_pos h x hx).le

theorem Bucket.of_append_maxProcessNanos (hr : ∀ r ∈ rs, r.Timed) (hq : ∀ r ∈ qs, r.Timed) :
    (Bucket.of (rs ++ qs)).maxProcessNanos =
      if (Bucket.of qs).maxProcessNanos > (Bucket.of rs).maxProcessNanos
        then (Bucket.of qs).maxProcessNanos else (Bucket.of rs).maxProcessNanos := by
  simp only [Bucket.of, List.map_append]
  exact greatest_append (processDurations_nonneg hr) (processDurations_nonneg hq)

theorem Bucket.of_append_maxEndToEndNanos (hr : ∀ r ∈ rs, r.Timed) (hq : ∀ r ∈ qs, r.Timed) :
    (Bucket.of (rs ++ qs)).maxEndToEndNanos =
      if (Bucket.of qs).maxEndToEndNanos > (Bucket.of rs).maxEndToEndNanos
        then (Bucket.of qs).maxEndToEndNanos else (Bucket.of rs).maxEndToEndNanos := by
  simp only [Bucket.of, List.map_append]
  exact greatest_append (endToEnds_nonneg hr) (endToEnds_nonneg hq)

theorem Bucket.of_append_minEndToEndNanos (hr : ∀ r ∈ rs, r.Timed) (qs : List MetricsRecord) :
    (Bucket.of (rs ++ qs)).minEndToEndNanos =
      if (Bucket.of qs).count > 0 ∧ ((Bucket.of rs).minEndToEndNanos = 0 ∨
          (Bucket.of qs).minEndToEndNanos < (Bucket.of rs).minEndToEndNanos)
        then (Bucket.of qs).minEndToEndNanos else (Bucket.of rs).minEndToEndNanos := by
  simp only [Bucket.of, List.map_append, gt_iff_lt, List.length_pos_iff]
  rw [least_append (endToEnds_pos hr)]
  simp only [ne_eq, List.map_eq_nil_iff]

/-- `record` adds one record to what the bucket has accumulated. -/
theorem Bucket.of_add (hr : ∀ r ∈ rs, r.Timed) {r : MetricsRecord} (ht : r.Timed) :
    (Bucket.of rs).add r = Bucket.of (rs ++ [r]) := by
  have hone : ∀ q ∈ [r], q.Timed := List.forall_mem_singleton.mpr ht
  have hmax := Bucket.of_append_maxProcessNanos hr hone
  have hend := Bucket.of_append_maxEndToEndNanos hr hone
  have hmin := Bucket.of_append_minEndToEndNanos hr [r]
  unfold Bucket.add
  apply Eq.symm
  simp only [Bucket.mk.injEq, Bucket.of] at hmax hend hmin ⊢
  refine ⟨by simp, ?_, by simp [int64_add_int64], by simp [int64_add_int64], hmax, hend, ?_⟩
  · rw [List.countP_append]
    cases hdead : r.deadLetter <;> simp [hdead]
  · rw [hmin]
    apply if_congr _ rfl rfl
    simp [least]

theorem foldl_add_eq_of (h : ∀ r ∈ rs, r.Timed) : rs.foldl Bucket.add {} = Bucket.of rs := by
  induction rs using List.reverseRecOn with
  | nil => rfl
  | append_singleton rs r ih =>
    obtain ⟨hrs, hr⟩ := List.forall_mem_append.mp h
    rw [List.foldl_append, ih hrs, List.foldl_cons, List.foldl_nil]
    exact Bucket.of_add hrs (List.forall_mem_singleton.mp hr)

end Timed

/-! ## What the window adds up -/

/-- The window data of buckets that have accumulated the given groups of records. -/
def WindowData.of (bucketDuration : Int) (totalProcessed : Nat)
    (groups : List (List MetricsRecord)) : WindowData where
  throughputPerBucket := groups.map fun g => g.length % 2 ^ 32
  deadLetterPerBucket := groups.map fun g => g.countP MetricsRecord.deadLetter % 2 ^ 32
  bucketDuration := bucketDuration
  totalProcessed := totalProcessed
  totalCount := (Bucket.of groups.flatten).count
  totalProcessNanos := (Bucket.of groups.flatten).totalProcessNanos
  totalEndToEndNanos := (Bucket.of groups.flatten).totalEndToEndNanos
  maxProcessNanos := (Bucket.of groups.flatten).maxProcessNanos
  maxEndToEndNanos := (Bucket.of groups.flatten).maxEndToEndNanos
  minEndToEndNanos := (Bucket.of groups.flatten).minEndToEndNanos

theorem WindowData.of_add {bucketDuration : Int} {totalProcessed : Nat}
    {groups : List (List MetricsRecord)} {group : List MetricsRecord}
    (hgroups : ∀ r ∈ groups.flatten, r.Timed) (hgroup : ∀ r ∈ group, r.Timed) :
    (WindowData.of bucketDuration totalProcessed groups).add (Bucket.of group) =
      WindowData.of bucketDuration totalProcessed (groups ++ [group]) := by
  have hflat : (groups ++ [group]).flatten = groups.flatten ++ group := by simp
  unfold WindowData.of WindowData.add
  rw [hflat, Bucket.of_append_maxProcessNanos hgroups hgroup,
    Bucket.of_append_maxEndToEndNanos hgroups hgroup, Bucket.of_append_minEndToEndNanos hgroups group]
  simp only [Bucket.of, List.map_append, List.length_append, List.sum_append, List.map_cons,
    List.map_nil, int64_int64_add_int64]

theorem foldl_window_eq_of {bucketDuration : Int} {totalProcessed : Nat}
    (groups : List (List MetricsRecord)) (h : ∀ r ∈ groups.flatten, r.Timed) :
    (groups.map Bucket.of).foldl WindowData.add
        { totalProcessed := totalProcessed, bucketDuration := bucketDuration } =
      WindowData.of bucketDuration totalProcessed groups := by
  induction groups using List.reverseRecOn with
  | nil => rfl
  | append_singleton groups group ih =>
    rw [List.flatten_append, List.forall_mem_append] at h
    rw [List.map_append, List.foldl_append, ih h.1]
    refine WindowData.of_add h.1 fun r hr => h.2 r ?_
    simpa using hr

/-! ## The history -/

/-- The records in order, each with the epoch it counts for. -/
def recordHistory (bucketDuration created : Int) (records : List MetricsRecord) :
    List (Int × MetricsRecord) :=
  let epoch := fun r : MetricsRecord => epochOf (bucketSecondsOf bucketDuration) r.processedAt
  Ring.history epoch (epochOf (bucketSecondsOf bucketDuration) created) records

/-- The highest epoch reached. -/
def highestEpoch (bucketDuration created : Int) (records : List MetricsRecord) : Int :=
  records.foldl (fun e r => max e (epochOf (bucketSecondsOf bucketDuration) r.processedAt))
    (epochOf (bucketSecondsOf bucketDuration) created)

/-- The records of the last `bucketCount` epochs. -/
def shownRecords (bucketCount : Nat) (last : Int) (history : List (Int × MetricsRecord)) :
    List MetricsRecord :=
  (history.filter fun q => last - bucketCount < q.1).map Prod.snd

/-- What the window of the last `bucketCount` epochs over a plain history reports: the
abstract counterpart of `windowData`. -/
def historyWindow (bucketSeconds : Int) (bucketCount : Nat) (last : Int)
    (history : List (Int × MetricsRecord)) : WindowData :=
  let epochs := (List.range bucketCount).map fun i : Nat => last + 1 - bucketCount + i
  let shown := shownRecords bucketCount last history
  { throughputPerBucket := epochs.map fun e => history.countP fun q => q.1 = e
    deadLetterPerBucket := epochs.map fun e => history.countP fun q => q.1 = e ∧ q.2.deadLetter
    bucketDuration := bucketSeconds * 1000000000
    totalProcessed := history.length
    totalCount := shown.length
    totalProcessNanos := (shown.map MetricsRecord.processDuration).sum
    totalEndToEndNanos := (shown.map MetricsRecord.endToEnd).sum
    maxProcessNanos := (shown.map MetricsRecord.processDuration).max?.getD 0
    maxEndToEndNanos := (shown.map MetricsRecord.endToEnd).max?.getD 0
    minEndToEndNanos := (shown.map MetricsRecord.endToEnd).min?.getD 0 }

/-- The sums as the machine keeps them. -/
def WindowData.wrap (wd : WindowData) : WindowData :=
  { wd with
    totalProcessNanos := int64 wd.totalProcessNanos
    totalEndToEndNanos := int64 wd.totalEndToEndNanos }

/-- The sums do not leave the range. -/
structure SumsInRange (rs : List MetricsRecord) : Prop where
  process : (rs.map MetricsRecord.processDuration).sum ≤ maxInt64
  endToEnd : (rs.map MetricsRecord.endToEnd).sum ≤ maxInt64

theorem SumsInRange.perm {rs qs : List MetricsRecord} (h : SumsInRange rs) (hperm : rs.Perm qs) :
    SumsInRange qs := by
  refine ⟨?_, ?_⟩
  · rw [← (hperm.map _).sum_eq]
    exact h.process
  · rw [← (hperm.map _).sum_eq]
    exact h.endToEnd

theorem int64_sum {xs : List Int} (hnonneg : ∀ x ∈ xs, 0 ≤ x) (hsum : xs.sum ≤ maxInt64) :
    int64 xs.sum = xs.sum :=
  int64_of_range (le_trans (by decide) (List.sum_nonneg hnonneg)) hsum

theorem Bucket.of_totalProcessNanos {rs : List MetricsRecord} (timed : ∀ r ∈ rs, r.Timed)
    (sums : SumsInRange rs) :
    (Bucket.of rs).totalProcessNanos = (rs.map MetricsRecord.processDuration).sum :=
  int64_sum (processDurations_nonneg timed) sums.process

theorem Bucket.of_totalEndToEndNanos {rs : List MetricsRecord} (timed : ∀ r ∈ rs, r.Timed)
    (sums : SumsInRange rs) :
    (Bucket.of rs).totalEndToEndNanos = (rs.map MetricsRecord.endToEnd).sum :=
  int64_sum (endToEnds_nonneg timed) sums.endToEnd

section History
variable (bucketDuration created : Int) (bucketCount : Nat) (records : List MetricsRecord)

theorem recordedIn_eq_history (i : Nat) :
    recordedIn MetricsRecord.processedAt bucketDuration created bucketCount i records =
      ((recordHistory bucketDuration created records).filter fun q =>
        q.1 = highestEpoch bucketDuration created records + 1 - bucketCount + i).map Prod.snd := by
  rw [recordedIn, Ring.attributed_eq_history]
  congr 2
  funext q
  rw [decide_eq_decide, ← highestEpoch]
  omega

/-- The groups of a window are the records of its epochs. -/
theorem groups_perm :
    ((List.range bucketCount).map fun i =>
      recordedIn MetricsRecord.processedAt bucketDuration created bucketCount i records).flatten.Perm
      (shownRecords bucketCount (highestEpoch bucketDuration created records)
        (recordHistory bucketDuration created records)) := by
  have hepochs := (Ring.flatMap_epochs_perm (recordHistory bucketDuration created records)
    (highestEpoch bucketDuration created records + 1 - bucketCount) bucketCount).map Prod.snd
  simp only [recordedIn_eq_history, ← List.flatMap_def]
  rw [List.map_flatMap] at hepochs
  refine hepochs.trans (List.Perm.of_eq ?_)
  congr 1
  apply List.filter_congr
  intro q hq
  have hle := Ring.history_le _ _ _ q hq
  rw [← highestEpoch] at hle
  rw [decide_eq_decide]
  omega

theorem shownRecords_subset {r : MetricsRecord}
    (hr : r ∈ shownRecords bucketCount (highestEpoch bucketDuration created records)
      (recordHistory bucketDuration created records)) : r ∈ records := by
  obtain ⟨q, hq, rfl⟩ := List.mem_map.mp hr
  have hmem := List.mem_map_of_mem (f := Prod.snd) (List.mem_of_mem_filter hq)
  rwa [recordHistory, Ring.history_map_snd] at hmem

theorem Bucket.of_perm {rs qs : List MetricsRecord} (h : rs.Perm qs) :
    Bucket.of rs = Bucket.of qs := by
  unfold Bucket.of
  rw [h.length_eq, h.countP_eq, (h.map _).sum_eq, (h.map _).sum_eq, greatest_perm (h.map _),
    greatest_perm (h.map _), least_perm (h.map _)]

variable [NeZero bucketCount]

theorem window_eq_groups (h : ∀ r ∈ records, r.Timed) :
    (records.foldl MetricsRingBuffer.record
        (newRingBuffer bucketDuration bucketCount created)).window =
      ((List.range bucketCount).map fun i =>
        recordedIn MetricsRecord.processedAt bucketDuration created bucketCount i records).map
        Bucket.of := by
  apply List.ext_getElem?
  intro i
  by_cases hi : i < bucketCount
  · rw [window_recordedIn bucketDuration created bucketCount records hi, List.map_map,
      List.getElem?_map, List.getElem?_range hi, Option.map_some, Function.comp_apply,
      foldl_add_eq_of]
    intro r hr
    exact h r ((Ring.attributed_sublist _ _ _ _).subset hr)
  · rw [List.getElem?_eq_none, List.getElem?_eq_none]
    · simpa using hi
    · simpa [Ring.window] using hi

/-- The window is the summary of the groups of its epochs. -/
theorem windowData_eq_of (h : ∀ r ∈ records, r.Timed) :
    (records.foldl MetricsRingBuffer.record
        (newRingBuffer bucketDuration bucketCount created)).windowData =
      WindowData.of (bucketSecondsOf bucketDuration * 1000000000) records.length
        ((List.range bucketCount).map fun i =>
          recordedIn MetricsRecord.processedAt bucketDuration created bucketCount i records) := by
  have hrecord := MetricsRingBuffer.foldl_record records
    (newRingBuffer bucketDuration bucketCount created)
  have htotal := MetricsRingBuffer.foldl_record_totalProcessed records
    (newRingBuffer bucketDuration bucketCount created)
  rw [MetricsRingBuffer.windowData, window_eq_groups bucketDuration created bucketCount records h,
    hrecord.1, htotal, foldl_window_eq_of]
  · simp only [newRingBuffer, Nat.zero_add]
  · intro r hr
    exact h r (shownRecords_subset bucketDuration created bucketCount records
      ((groups_perm bucketDuration created bucketCount records).mem_iff.mp hr))

theorem windowData_eq_wrap (timed : ∀ r ∈ records, r.Timed)
    (counts : ∀ e, (recordHistory bucketDuration created records).countP (fun q => q.1 = e)
      < 2 ^ 32) :
    (records.foldl MetricsRingBuffer.record
        (newRingBuffer bucketDuration bucketCount created)).windowData =
      (historyWindow (bucketSecondsOf bucketDuration) bucketCount
        (highestEpoch bucketDuration created records)
        (recordHistory bucketDuration created records)).wrap := by
  have htotals := Bucket.of_perm (groups_perm bucketDuration created bucketCount records)
  have hlength : (recordHistory bucketDuration created records).length = records.length := by
    rw [← List.length_map Prod.snd, recordHistory, Ring.history_map_snd]
  rw [windowData_eq_of bucketDuration created bucketCount records timed]
  unfold WindowData.of historyWindow WindowData.wrap
  rw [htotals, hlength, List.map_map, List.map_map]
  simp only [WindowData.mk.injEq, Bucket.of, and_true, greatest, least, List.map_map]
  constructor
  · apply List.map_congr_left
    intro i _
    simp only [Function.comp_apply, recordedIn_eq_history, List.length_map,
      ← List.countP_eq_length_filter]
    exact Nat.mod_eq_of_lt (counts _)
  · apply List.map_congr_left
    intro i _
    simp only [Function.comp_apply, recordedIn_eq_history, List.countP_map, List.countP_filter]
    generalize highestEpoch bucketDuration created records + 1 - bucketCount + i = e
    have hboth : ∀ q ∈ recordHistory bucketDuration created records,
        (q.2.deadLetter && decide (q.1 = e)) = decide (q.1 = e ∧ q.2.deadLetter = true) := by
      intro q _
      rw [Bool.and_comm, Bool.decide_and, Bool.decide_eq_true]
    rw [List.countP_congr fun q hq => by rw [hboth q hq]]
    apply Nat.mod_eq_of_lt
    refine lt_of_le_of_lt (List.countP_mono_left ?_) (counts e)
    intro q _ hq
    exact decide_eq_true (of_decide_eq_true hq).1

/-- The ring refines the plain history, whatever the gaps between records and however late
they come: sums wrap, and are exact while they are in range. -/
theorem windowData_refines_history (timed : ∀ r ∈ records, r.Timed)
    (counts : ∀ e, (recordHistory bucketDuration created records).countP (fun q => q.1 = e)
      < 2 ^ 32) :
    let history := recordHistory bucketDuration created records
    let last := highestEpoch bucketDuration created records
    let plain := historyWindow (bucketSecondsOf bucketDuration) bucketCount last history
    let window := (records.foldl MetricsRingBuffer.record
      (newRingBuffer bucketDuration bucketCount created)).windowData
    window = plain.wrap ∧ (SumsInRange (shownRecords bucketCount last history) → window = plain) := by
  intro history last plain window
  have hwrap : window = plain.wrap :=
    windowData_eq_wrap bucketDuration created bucketCount records timed counts
  refine ⟨hwrap, fun sums => ?_⟩
  have hshown : ∀ r ∈ shownRecords bucketCount last history, r.Timed :=
    fun r hr => timed r (shownRecords_subset bucketDuration created bucketCount records hr)
  have hprocess : int64 plain.totalProcessNanos = plain.totalProcessNanos :=
    Bucket.of_totalProcessNanos hshown sums
  have hend : int64 plain.totalEndToEndNanos = plain.totalEndToEndNanos :=
    Bucket.of_totalEndToEndNanos hshown sums
  rw [hwrap, WindowData.wrap, hprocess, hend]

end History

/-- A record after a gap longer than the ring, then one that comes late. -/
theorem windowData_refines_history_gap :
    ([⟨100000000000000000000, 3, 5, false⟩, ⟨100000000007000000000, 2, 4, false⟩,
        ⟨100000000001000000000, 8, 6, true⟩].foldl MetricsRingBuffer.record
        (newRingBuffer 1000000000 3 100000000000000000000)).windowData =
      historyWindow (bucketSecondsOf 1000000000) 3
        (highestEpoch 1000000000 100000000000000000000
          [⟨100000000000000000000, 3, 5, false⟩, ⟨100000000007000000000, 2, 4, false⟩,
            ⟨100000000001000000000, 8, 6, true⟩])
        (recordHistory 1000000000 100000000000000000000
          [⟨100000000000000000000, 3, 5, false⟩, ⟨100000000007000000000, 2, 4, false⟩,
            ⟨100000000001000000000, 8, 6, true⟩]) := by
  refine (windowData_refines_history _ _ _ _ ?_ ?_).2 ⟨by decide, by decide⟩
  · intro r hr
    simp only [List.mem_cons, List.not_mem_nil, or_false] at hr
    rcases hr with rfl | rfl | rfl <;> exact ⟨by decide, by decide⟩
  · intro e
    exact lt_of_le_of_lt List.countP_le_length (by decide)

end LlingrDemux.Offset
